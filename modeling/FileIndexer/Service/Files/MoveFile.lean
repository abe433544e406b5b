import FileIndexer.Service.Files.World

namespace FileIndexer

inductive Fault where
  | none
  | before
  | after
  deriving DecidableEq, Repr

structure MoveFileRequest where
  id : FileID
  destinationKey : Key
  deriving DecidableEq, Repr

inductive MoveState where
  | getFile
  | getFileByKey (oldKey : Key)
  | acquireMoveLocks (oldKey : Key) (waiting : List Key)
  | getFileLocked (oldKey : Key)
  | getFileByKeyLocked (oldKey currentOldKey : Key)
  | copy (oldKey currentOldKey : Key)
  | moveFileWithDirectories (oldKey currentOldKey : Key)
  | rollbackDelete (oldKey : Key) (cause : DbError)
  | deleteOld (oldKey currentOldKey : Key) (moved : File)
  | release (oldKey : Key) (result : Except Failure File)
  | readBack (id : FileID)
  | done (result : Except Failure FileInfo)

def lockKeys (oldKey newKey : Key) : List Key := [oldKey, newKey].dedup.insertionSort (· ≤ ·)

theorem mem_lockKeys {oldKey newKey k : Key} :
    k ∈ lockKeys oldKey newKey ↔ k = oldKey ∨ k = newKey := by
  simp [lockKeys, List.mem_insertionSort]

def validateDestination (indexPrefix oldKey newKey : Key) : Option Failure :=
  if newKey = [] then
    some (errorf .invalidArgument "destination_key must not be empty" [])
  else if newKey = oldKey then
    some (errorf .invalidArgument "destination_key must differ from current key" [])
  else if underPrefix indexPrefix newKey then
    some (errorf .invalidArgument "destination_key %q is reserved for derived objects" [.key newKey])
  else
    none

def MoveState.updatesRow : MoveState → Bool
  | .moveFileWithDirectories _ _ => true
  | _ => false

def MoveState.validated : MoveState → Bool
  | .getFile | .rollbackDelete _ _ | .deleteOld _ _ _ | .release _ _ | .readBack _ | .done _ => false
  | _ => true

theorem MoveState.validated_of_updatesRow {m : MoveState} (h : m.updatesRow = true) :
    m.validated = true := by
  cases m with
  | moveFileWithDirectories => rfl
  | _ => cases h

section Step

variable {β ι : Type} [DecidableEq ι] (indexPrefix : Key) (req : MoveFileRequest) (me : ι)

def moveFileStep (fault : Fault) (w : World β ι) : MoveState → Option (World β ι × MoveState)
  | .getFile =>
    if fault ≠ .none then
      some (w, .done (.error (errorf .internal "failed to read source file" [])))
    else match w.getFile req.id with
      | none => some (w, .done (.error (errorf .notFound "file %d not found" [.id req.id])))
      | some f =>
        match validateDestination indexPrefix f.file.key req.destinationKey with
        | some e => some (w, .done (.error e))
        | none => some (w, .getFileByKey f.file.key)
  | .getFileByKey oldKey =>
    if fault ≠ .none then
      some (w, .done (.error (errorf .internal "failed to check destination key" [])))
    else match w.getFileByKey req.destinationKey with
      | some _ => some (w, .done (.error
          (errorf .alreadyExists "file with key %q already exists" [.key req.destinationKey])))
      | none => some (w, .acquireMoveLocks oldKey (lockKeys oldKey req.destinationKey))
  | .acquireMoveLocks oldKey waiting =>
    if fault ≠ .none then
      some (w.unlock me, .done (.error (errorf .internal "acquire move locks: %v" [.err (.db .other)])))
    else match waiting with
      | [] => some (w, .getFileLocked oldKey)
      | k :: waiting =>
        if w.locks k = none then some (w.lock k me, .acquireMoveLocks oldKey waiting) else none
  | .getFileLocked oldKey =>
    if fault ≠ .none then
      some (w, .release oldKey (.error (errorf .internal "failed to read source file" [])))
    else match w.getFile req.id with
      | none => some (w, .release oldKey (.error (errorf .notFound "file %d not found" [.id req.id])))
      | some src => some (w, .getFileByKeyLocked oldKey src.file.key)
  | .getFileByKeyLocked oldKey currentOldKey =>
    if fault ≠ .none then
      some (w, .release oldKey (.error (errorf .internal "failed to check destination key" [])))
    else match w.getFileByKey req.destinationKey with
      | some _ => some (w, .release oldKey (.error
          (errorf .alreadyExists "file with key %q already exists" [.key req.destinationKey])))
      | none => some (w, .copy oldKey currentOldKey)
  | .copy oldKey currentOldKey =>
    if fault = .before then
      some (w, .release oldKey (.error (errorf .internal "copy object: %v" [.err (.storage .other)])))
    else match w.bucket.copy w.now currentOldKey req.destinationKey with
      | .error e =>
        some (w, .release oldKey (.error (errorf .internal "copy object: %v" [.err (.storage e)])))
      | .ok bucket =>
        if fault = .after then
          some ({ w with bucket }, .release oldKey
            (.error (errorf .internal "copy object: %v" [.err (.storage .other)])))
        else some ({ w with bucket }, .moveFileWithDirectories oldKey currentOldKey)
  | .moveFileWithDirectories oldKey currentOldKey =>
    if fault = .before then some (w, .rollbackDelete oldKey .other)
    else match w.db.moveFileWithDirectories req.id req.destinationKey with
      | .ok (moved, db) =>
        if fault = .after then some ({ w with db }, .rollbackDelete oldKey .other)
        else some ({ w with db }, .deleteOld oldKey currentOldKey moved)
      | .error .uniqueViolation => some (w, .release oldKey (.error
          (errorf .alreadyExists "file with key %q already exists" [.key req.destinationKey])))
      | .error e => some (w, .rollbackDelete oldKey e)
  | .rollbackDelete oldKey cause =>
    some (if fault = .before then w else { w with bucket := w.bucket.delete req.destinationKey },
      .release oldKey (.error (errorf .internal "move file: %v" [.err (.db cause)])))
  -- a failed delete of the old object is only logged, the move has succeeded
  | .deleteOld oldKey currentOldKey moved =>
    some (if fault = .before then w else { w with bucket := w.bucket.delete currentOldKey },
      .release oldKey (.ok moved))
  | .release _ result =>
    match result with
    | .ok moved => some (w.unlock me, .readBack moved.id)
    | .error e => some (w.unlock me, .done (.error e))
  | .readBack id =>
    if fault ≠ .none then some (w, .done (.error (.cause (.db .other))))
    else match w.getFile id with
      | none => some (w, .done (.error (.cause (.db .noRows))))
      | some f => some (w, .done (.ok f))
  | .done _ => none

end Step

section Inversion

variable {β ι : Type} [DecidableEq ι] {indexPrefix : Key} {req : MoveFileRequest} {me : ι}

inductive MoveStep (indexPrefix : Key) (req : MoveFileRequest) (me : ι) (fault : Fault)
    (w : World β ι) : MoveState → World β ι → MoveState → Prop
  | refused {m} (e) : (m = .getFile ∨ ∃ old, m = .getFileByKey old) →
      MoveStep indexPrefix req me fault w m w (.done (.error e))
  | read {f} : w.getFile req.id = some f →
      validateDestination indexPrefix f.file.key req.destinationKey = none →
      MoveStep indexPrefix req me fault w .getFile w (.getFileByKey f.file.key)
  | vacant {old} : w.getFileByKey req.destinationKey = none →
      MoveStep indexPrefix req me fault w (.getFileByKey old) w
        (.acquireMoveLocks old (lockKeys old req.destinationKey))
  | lockFailed {old ks} (e) : MoveStep indexPrefix req me fault w (.acquireMoveLocks old ks)
      (w.unlock me) (.done (.error e))
  | lockedAll {old} : MoveStep indexPrefix req me fault w (.acquireMoveLocks old []) w
      (.getFileLocked old)
  | locked {old k ks} : w.locks k = none →
      MoveStep indexPrefix req me fault w (.acquireMoveLocks old (k :: ks)) (w.lock k me)
        (.acquireMoveLocks old ks)
  | reread {old f} : w.getFile req.id = some f →
      MoveStep indexPrefix req me fault w (.getFileLocked old) w (.getFileByKeyLocked old f.file.key)
  | recheck {old cur} : w.getFileByKey req.destinationKey = none →
      MoveStep indexPrefix req me fault w (.getFileByKeyLocked old cur) w (.copy old cur)
  | abandoned {m old} (e) : (m = .getFileLocked old ∨ ∃ cur, m = .getFileByKeyLocked old cur) →
      MoveStep indexPrefix req me fault w m w (.release old (.error e))
  | copyFailed {old cur} (e) : fault = .before ∨ w.bucket.lookup cur = none →
      MoveStep indexPrefix req me fault w (.copy old cur) w (.release old (.error e))
  | copied {old cur o} : w.bucket.lookup cur = some o → fault = .none →
      MoveStep indexPrefix req me fault w (.copy old cur)
        { w with bucket := w.bucket.put w.now req.destinationKey o.bytes }
        (.moveFileWithDirectories old cur)
  | copyLost {old cur o} (e) : w.bucket.lookup cur = some o → fault = .after →
      MoveStep indexPrefix req me fault w (.copy old cur)
        { w with bucket := w.bucket.put w.now req.destinationKey o.bytes }
        (.release old (.error e))
  | moved {old cur f db} : w.db.moveFileWithDirectories req.id req.destinationKey = .ok (f, db) →
      fault = .none →
      MoveStep indexPrefix req me fault w (.moveFileWithDirectories old cur) { w with db }
        (.deleteOld old cur f)
  | movedLost {old cur f db} :
      w.db.moveFileWithDirectories req.id req.destinationKey = .ok (f, db) → fault = .after →
      MoveStep indexPrefix req me fault w (.moveFileWithDirectories old cur) { w with db }
        (.rollbackDelete old .other)
  | conflict {old cur} (e) :
      w.db.moveFileWithDirectories req.id req.destinationKey = .error .uniqueViolation →
      MoveStep indexPrefix req me fault w (.moveFileWithDirectories old cur) w
        (.release old (.error e))
  | moveFailed {old cur} (e) : (fault = .before ∨ e ≠ .uniqueViolation ∧
        w.db.moveFileWithDirectories req.id req.destinationKey = .error e) →
      MoveStep indexPrefix req me fault w (.moveFileWithDirectories old cur) w (.rollbackDelete old e)
  | rolledBack {old cause} (e) : MoveStep indexPrefix req me fault w (.rollbackDelete old cause)
      (if fault = .before then w else { w with bucket := w.bucket.delete req.destinationKey })
      (.release old (.error e))
  | cleaned {old cur f} : MoveStep indexPrefix req me fault w (.deleteOld old cur f)
      (if fault = .before then w else { w with bucket := w.bucket.delete cur })
      (.release old (.ok f))
  | released {old r m} : (∃ f : File, m = .readBack f.id) ∨ (∃ e, m = .done (.error e)) →
      MoveStep indexPrefix req me fault w (.release old r) (w.unlock me) m
  | answered {id r} : MoveStep indexPrefix req me fault w (.readBack id) w (.done r)

theorem moveStep_of_step {fault : Fault} {w w' : World β ι} {m m' : MoveState}
    (h : moveFileStep indexPrefix req me fault w m = some (w', m')) :
    MoveStep indexPrefix req me fault w m w' m' := by
  cases m with
  | getFile =>
    simp only [moveFileStep] at h
    split at h
    · cases h; exact .refused _ (.inl rfl)
    · split at h
      · cases h; exact .refused _ (.inl rfl)
      · rename_i f hf
        split at h
        · cases h; exact .refused _ (.inl rfl)
        · rename_i hv
          cases h; exact .read hf hv
  | getFileByKey old =>
    simp only [moveFileStep] at h
    split at h
    · cases h; exact .refused _ (.inr ⟨old, rfl⟩)
    · split at h
      · cases h; exact .refused _ (.inr ⟨old, rfl⟩)
      · rename_i hv
        cases h; exact .vacant hv
  | acquireMoveLocks old ks =>
    simp only [moveFileStep] at h
    split at h
    · cases h; exact .lockFailed _
    · split at h
      · cases h; exact .lockedAll
      · split at h
        · rename_i hfree
          cases h; exact .locked hfree
        · cases h
  | getFileLocked old =>
    simp only [moveFileStep] at h
    split at h
    · cases h; exact .abandoned _ (.inl rfl)
    · split at h
      · cases h; exact .abandoned _ (.inl rfl)
      · rename_i f hf
        cases h; exact .reread hf
  | getFileByKeyLocked old cur =>
    simp only [moveFileStep] at h
    split at h
    · cases h; exact .abandoned _ (.inr ⟨cur, rfl⟩)
    · split at h
      · cases h; exact .abandoned _ (.inr ⟨cur, rfl⟩)
      · rename_i hv
        cases h; exact .recheck hv
  | copy old cur =>
    simp only [moveFileStep] at h
    split at h
    · rename_i hbefore
      cases h; exact .copyFailed _ (.inl hbefore)
    · rename_i hbefore
      split at h
      · rename_i e he
        cases h; exact .copyFailed _ (.inr (Bucket.lookup_of_copy_error he))
      · rename_i bucket hb
        obtain ⟨o, ho, rfl⟩ := Bucket.copy_ok_iff.mp hb
        split at h
        · rename_i hafter
          cases h; exact .copyLost _ ho hafter
        · rename_i hafter
          cases h
          exact .copied ho (by cases fault <;> simp_all)
  | moveFileWithDirectories old cur =>
    simp only [moveFileStep] at h
    split at h
    · rename_i hbefore
      cases h; exact .moveFailed _ (.inl hbefore)
    · rename_i hbefore
      split at h
      · rename_i f db hdb
        split at h
        · rename_i hafter
          cases h; exact .movedLost hdb hafter
        · rename_i hafter
          cases h
          exact .moved hdb (by cases fault <;> simp_all)
      · rename_i hu
        cases h; exact .conflict _ hu
      · rename_i e hne he
        cases h; exact .moveFailed e (.inr ⟨hne, he⟩)
  | rollbackDelete old cause =>
    cases h; exact .rolledBack _
  | deleteOld old cur f =>
    cases h; exact .cleaned
  | release old r =>
    cases r with
    | ok f => cases h; exact .released (.inl ⟨f, rfl⟩)
    | error e => cases h; exact .released (.inr ⟨e, rfl⟩)
  | readBack id =>
    simp only [moveFileStep] at h
    split at h
    · cases h; exact .answered
    · split at h <;> (cases h; exact .answered)
  | done r => cases h

theorem db_of_moveStep {fault : Fault} {w w' : World β ι} {m m' : MoveState}
    (h : MoveStep indexPrefix req me fault w m w' m') :
    w'.now = w.now ∧ (w'.db = w.db ∨ (m.updatesRow = true ∧ fault ≠ .before ∧
      ∃ f, w.db.moveFileWithDirectories req.id req.destinationKey = .ok (f, w'.db))) := by
  cases h with
  | moved hdb hf => exact ⟨rfl, Or.inr ⟨rfl, by simp [hf], _, hdb⟩⟩
  | movedLost hdb hf => exact ⟨rfl, Or.inr ⟨rfl, by simp [hf], _, hdb⟩⟩
  | rolledBack e => split <;> exact ⟨rfl, Or.inl rfl⟩
  | cleaned => split <;> exact ⟨rfl, Or.inl rfl⟩
  | _ => exact ⟨rfl, Or.inl rfl⟩

theorem unreserved_of_validate {oldKey : Key}
    (h : validateDestination indexPrefix oldKey req.destinationKey = none) :
    underPrefix indexPrefix req.destinationKey = false := by
  unfold validateDestination at h
  split_ifs at h with _ _ hp
  simpa using hp

theorem validated_of_moveStep {P : Prop} {fault : Fault} {w w' : World β ι} {m m' : MoveState}
    (h : MoveStep indexPrefix req me fault w m w' m')
    (hcheck : ∀ old, validateDestination indexPrefix old req.destinationKey = none → P)
    (hm : m.validated = true → P) : m'.validated = true → P := by
  cases h with
  | read hf hv => exact fun _ => hcheck _ hv
  | vacant hv => exact fun _ => hm rfl
  | lockedAll => exact fun _ => hm rfl
  | locked hfree => exact fun _ => hm rfl
  | reread hf => exact fun _ => hm rfl
  | recheck hv => exact fun _ => hm rfl
  | copied ho hf => exact fun _ => hm rfl
  | released hr =>
    intro hv
    rcases hr with ⟨f, rfl⟩ | ⟨e, rfl⟩ <;> cases hv
  | _ =>
    intro hv
    cases hv

end Inversion

end FileIndexer
