import FileIndexer.Foundation.Runs
import FileIndexer.Storage.Multipart
import FileIndexer.Service.Files.DeleteFile

namespace FileIndexer

open Transition

inductive FilesRequest where
  | getUploadURL (key : Key)
  | commitUpload (key : Key)
  | createMultipartUpload (key : Key)
  | getUploadPartURL (key : Key) (uploadId : String) (partNumber : Int)
  | listUploadedParts (key : Key) (uploadId : String)
  | completeMultipartUpload (key : Key) (uploadId : String)
  | abortMultipartUpload (key : Key) (uploadId : String)
  | moveFile (req : MoveFileRequest)
  | deleteFile (id : FileID)
  | deleteDirectory (path : Key)

-- storage: a storage call whose answer the handler only passes on
inductive FilesCall where
  | received
  | storage
  | completeMultipartUpload (key : Key)
  | stat (key : Key)
  | upsert (key : Key) (lastModified : Time)
  | readBack (key : Key)
  | move (req : MoveFileRequest) (state : MoveState)
  | delete (deleter : Deleter)
  | done (failure : Option Failure)

def withUploadKey (indexPrefix key : Key) (next : Key → FilesCall) : FilesCall :=
  match validateUploadKey indexPrefix key with
  | .error e => .done (some e)
  | .ok key => next key

def withUploadId (uploadId : String) (next : FilesCall) : FilesCall :=
  if uploadId = "" then
    .done (some (errorf .invalidArgument "upload_id must not be empty" []))
  else next

def withPartNumber (partNumber : Int) (next : FilesCall) : FilesCall :=
  if partNumber < minPartNumber ∨ (maxPartNumber : Int) < partNumber then
    .done (some (errorf .invalidArgument "part_number must be between %d and %d, got %d"
      [.id minPartNumber, .id maxPartNumber, .id partNumber]))
  else next

def FilesRequest.call (indexPrefix : Key) : FilesRequest → FilesCall
  | .getUploadURL key | .createMultipartUpload key =>
    withUploadKey indexPrefix key fun _ => .storage
  | .commitUpload key => withUploadKey indexPrefix key .stat
  | .getUploadPartURL key uploadId partNumber =>
    withUploadKey indexPrefix key fun _ => withUploadId uploadId (withPartNumber partNumber .storage)
  | .listUploadedParts key uploadId | .abortMultipartUpload key uploadId =>
    withUploadKey indexPrefix key fun _ => withUploadId uploadId .storage
  | .completeMultipartUpload key uploadId =>
    withUploadKey indexPrefix key fun key => withUploadId uploadId (.completeMultipartUpload key)
  | .moveFile req => .move req .getFile
  | .deleteFile id => .delete (.file id .getFile)
  | .deleteDirectory path => .delete (.directory path (.start indexPrefix path))

structure FilesService (β ι : Type) where
  world : World β ι
  calls : ι → FilesCall

-- assembled: what S3 joins under the upload id, if it has that upload
inductive FilesAction (β ι : Type) where
  | step (i : ι) (fault : Fault) (pick : Nat) (assembled : Option β)
  | put (key : Key) (bytes : β)
  | tick (d : Nat)

section Step

variable {β ι : Type} [DecidableEq ι] (indexPrefix : Key)

def filesCallStep (me : ι) (request : FilesRequest) (fault : Fault) (pick : Nat)
    (assembled : Option β) (w : World β ι) : FilesCall → Option (World β ι × FilesCall)
  | .received => some (w, request.call indexPrefix)
  | .storage => some (w, .done (if fault = .none then none else some (.cause (.storage .other))))
  | .completeMultipartUpload key =>
    if fault = .before then some (w, .done (some (.cause (.storage .other))))
    else match assembled with
      | none => some (w, .done (some (.cause (.storage .other))))
      | some bytes => some ({ w with bucket := w.bucket.put w.now key bytes },
          if fault = .after then .done (some (.cause (.storage .other))) else .stat key)
  | .stat key =>
    if fault ≠ .none then
      some (w, .done (some (errorf .notFound "stat uploaded object: %v" [.err (.storage .other)])))
    else match w.bucket.lookup key with
      | none => some (w, .done (some
          (errorf .notFound "stat uploaded object: %v" [.err (.storage .noSuchKey)])))
      | some o => some (w, .upsert key o.lastModified)
  | .upsert key lastModified =>
    if fault = .before then some (w, .done (some (.cause (.db .other))))
    else match w.db.upsertFilesWithDirectories w.now [(key, lastModified)] with
      | .error e => some (w, .done (some (.cause (.db e))))
      | .ok (_, db) => some ({ w with db },
          if fault = .after then .done (some (.cause (.db .other))) else .readBack key)
  | .readBack key =>
    if fault ≠ .none then some (w, .done (some (.cause (.db .other))))
    else match w.getFileByKey key with
      | none => some (w, .done (some (.cause (.db .noRows))))
      | some _ => some (w, .done none)
  | .move req state =>
    (moveFileStep indexPrefix req me fault w state).map fun (w, m) => (w, .move req m)
  | .delete deleter => (deleter.step fault pick w).map fun (w, d) => (w, .delete d)
  | .done _ => none

namespace FilesService

def started (w : World β ι) : FilesService β ι := ⟨w, fun _ => .received⟩

def step (requests : ι → FilesRequest) (s : FilesService β ι) :
    FilesAction β ι → Option (FilesService β ι)
  | .step i fault pick assembled =>
    (filesCallStep indexPrefix i (requests i) fault pick assembled s.world (s.calls i)).map
      fun (w, c) => ⟨w, Function.update s.calls i c⟩
  | .put key bytes => some { s with
      world := { s.world with bucket := s.world.bucket.put s.world.now key bytes } }
  | .tick d => some { s with world := { s.world with now := s.world.now + d } }

def Accepted (key : Key) : Prop := validateUploadKey indexPrefix key = .ok key

def WritesAccepted (requests : ι → FilesRequest) (s : FilesService β ι) (a : FilesAction β ι) : Prop :=
  ∀ t, s.step indexPrefix requests a = some t → ∀ f ∈ t.world.db.files.rows,
    (∃ g ∈ s.world.db.files.rows, g.id = f.id ∧ g.key = f.key) ∨ Accepted indexPrefix f.key

def InsideBucket (key : Key) : Prop := ¬[slash] <+: key ∧ hasDotDotSegment key = false

def MovesInside (s : FilesService β ι) : FilesAction β ι → Prop
  | .step i fault _ _ => ∀ req old cur, s.calls i = .move req (.moveFileWithDirectories old cur) →
      fault ≠ .before → s.world.getFile req.id ≠ none →
      s.world.getFileByKey req.destinationKey = none → InsideBucket req.destinationKey
  | _ => True

end FilesService

end Step

namespace FilesService

section Calls

variable {β ι : Type} {indexPrefix : Key} {request : FilesRequest} {fault : Fault} {pick : Nat}
  {assembled : Option β} {me : ι} {w w' : World β ι} {c c' : FilesCall}

theorem accepted_iff {key : Key} : Accepted indexPrefix key ↔
    key ≠ [] ∧ InsideBucket key ∧ underPrefix indexPrefix key = false := by
  rw [Accepted, validateUploadKey_ok_iff, InsideBucket, and_assoc]
  exact and_iff_right rfl

def CallOk (indexPrefix : Key) : FilesCall → Prop
  | .completeMultipartUpload key | .stat key | .upsert key _ => Accepted indexPrefix key
  | .move req m => m.validated = true →
    ∃ old, validateDestination indexPrefix old req.destinationKey = none
  | _ => True

theorem withUploadKey_ok {key : Key} {next : Key → FilesCall}
    (h : Accepted indexPrefix key → CallOk indexPrefix (next key)) :
    CallOk indexPrefix (withUploadKey indexPrefix key next) := by
  rw [withUploadKey]
  split
  · trivial
  · rename_i k hk
    obtain ⟨rfl, -⟩ := validateUploadKey_ok_iff.mp hk
    exact h hk

theorem withUploadId_ok {uploadId : String} {next : FilesCall} (h : CallOk indexPrefix next) :
    CallOk indexPrefix (withUploadId uploadId next) := by
  rw [withUploadId]
  split
  · trivial
  · exact h

theorem call_ok (request : FilesRequest) : CallOk indexPrefix (request.call indexPrefix) := by
  cases request with
  | getUploadURL key => exact withUploadKey_ok fun _ => trivial
  | createMultipartUpload key => exact withUploadKey_ok fun _ => trivial
  | commitUpload key => exact withUploadKey_ok id
  | getUploadPartURL key uploadId partNumber =>
    refine withUploadKey_ok fun _ => withUploadId_ok ?_
    rw [withPartNumber]
    split <;> trivial
  | listUploadedParts key uploadId => exact withUploadKey_ok fun _ => withUploadId_ok trivial
  | abortMultipartUpload key uploadId => exact withUploadKey_ok fun _ => withUploadId_ok trivial
  | completeMultipartUpload key uploadId => exact withUploadKey_ok fun h => withUploadId_ok h
  | moveFile req =>
    intro h
    cases h
  | deleteFile id => trivial
  | deleteDirectory path => trivial

variable [DecidableEq ι]

theorem callOk_of_step (hc : CallOk indexPrefix c)
    (h : filesCallStep indexPrefix me request fault pick assembled w c = some (w', c')) :
    CallOk indexPrefix c' := by
  cases c with
  | received =>
    cases h
    exact call_ok request
  | storage =>
    cases h
    trivial
  | completeMultipartUpload key =>
    simp only [filesCallStep] at h
    split at h
    · cases h
      trivial
    · split at h
      · cases h
        trivial
      · obtain ⟨-, rfl⟩ := Prod.mk.inj (Option.some.inj h)
        split
        · trivial
        · exact hc
  | stat key =>
    rw [filesCallStep] at h
    split at h
    · cases h
      trivial
    · split at h
      · cases h
        trivial
      · cases h
        exact hc
  | upsert key lastModified =>
    simp only [filesCallStep] at h
    split at h
    · cases h
      trivial
    · split at h
      · cases h
        trivial
      · obtain ⟨-, rfl⟩ := Prod.mk.inj (Option.some.inj h)
        split <;> trivial
  | readBack key =>
    rw [filesCallStep] at h
    split at h
    · cases h
      trivial
    · split at h <;> (cases h; trivial)
  | move req m =>
    obtain ⟨⟨u, m'⟩, hu, he⟩ := Option.map_eq_some_iff.mp h
    cases he
    exact validated_of_moveStep (moveStep_of_step hu) (fun old hv => ⟨old, hv⟩) hc
  | delete d =>
    obtain ⟨⟨u, d'⟩, hu, he⟩ := Option.map_eq_some_iff.mp h
    cases he
    trivial
  | done r => cases h

def RowKept (w : World β ι) (f : File) : Prop :=
  ∃ g ∈ w.db.files.rows, g.id = f.id ∧ g.key = f.key

theorem rows_of_step (hc : CallOk indexPrefix c)
    (h : filesCallStep indexPrefix me request fault pick assembled w c = some (w', c'))
    (hmove : ∀ req old cur, c ≠ .move req (.moveFileWithDirectories old cur)) :
    ∀ f ∈ w'.db.files.rows, RowKept w f ∨ Accepted indexPrefix f.key := by
  have hsame : ∀ f ∈ w.db.files.rows, RowKept w f ∨ Accepted indexPrefix f.key :=
    fun f hf => Or.inl ⟨f, hf, rfl, rfl⟩
  cases c with
  | received =>
    cases h
    exact hsame
  | storage =>
    cases h
    exact hsame
  | completeMultipartUpload key =>
    simp only [filesCallStep] at h
    split at h
    · cases h
      exact hsame
    · split at h <;> (cases h; exact hsame)
  | stat key =>
    rw [filesCallStep] at h
    split at h
    · cases h
      exact hsame
    · split at h <;> (cases h; exact hsame)
  | upsert key lastModified =>
    simp only [filesCallStep] at h
    split at h
    · cases h
      exact hsame
    · split at h
      · cases h
        exact hsame
      · rename_i n db hdb
        obtain ⟨rfl, -⟩ := Prod.mk.inj (Option.some.inj h)
        intro f hf
        have hfiles := (Db.upsertFilesWithDirectories_ok hdb).1
        simp only [hfiles] at hf
        rcases Files.mem_upsertFiles hf with ⟨hold, -⟩ | ⟨hkey, -⟩
        · exact hsame f hold
        · obtain hk : f.key = key := by simpa using hkey
          exact Or.inr (hk ▸ hc)
  | readBack key =>
    rw [filesCallStep] at h
    split at h
    · cases h
      exact hsame
    · split at h <;> (cases h; exact hsame)
  | move req m =>
    obtain ⟨⟨u, m'⟩, hu, he⟩ := Option.map_eq_some_iff.mp h
    cases he
    rcases (db_of_moveStep (moveStep_of_step hu)).2 with hdb | ⟨hupdates, -⟩
    · rw [hdb]
      exact hsame
    · cases m with
      | moveFileWithDirectories old cur => exact absurd rfl (hmove req old cur)
      | _ => cases hupdates
  | delete d =>
    obtain ⟨⟨u, d'⟩, hu, he⟩ := Option.map_eq_some_iff.mp h
    cases he
    exact fun f hf => hsame f ((rows_of_deleterStep hu).2 f hf)
  | done r => cases h

end Calls

section Moves

variable {β ι : Type} [DecidableEq ι] {indexPrefix : Key} {req : MoveFileRequest} {fault : Fault}
  {me : ι} {w w' : World β ι} {old cur : Key} {m' : MoveState}

theorem committed_of_moveStep
    (h : moveFileStep indexPrefix req me fault w (.moveFileWithDirectories old cur) = some (w', m'))
    (hfault : fault ≠ .before) (hfile : w.getFile req.id ≠ none)
    (hvacant : w.getFileByKey req.destinationKey = none) :
    ∃ f ∈ w'.db.files.rows, f.id = req.id ∧ f.key = req.destinationKey := by
  cases hdb : w.db.moveFileWithDirectories req.id req.destinationKey with
  | error e =>
    rcases Db.moveFileWithDirectories_error hdb with ⟨-, hnone⟩ | ⟨-, x, hx, hkey⟩
    · exact absurd (by rw [World.getFile, hnone]; rfl) hfile
    · have hno := Files.getFileByKey_eq_none_iff.mp (Option.map_eq_none_iff.mp hvacant)
      exact absurd hkey (hno x hx)
  | ok r =>
    obtain ⟨moved, db⟩ := r
    obtain ⟨g, hg, -, ⟨hfree, hfiles⟩, -⟩ := Db.moveFileWithDirectories_ok hdb
    obtain ⟨hmem, hid⟩ := Files.getFile_eq_some_iff.mp hg
    have hw : w'.db = db := by
      simp only [moveFileStep, if_neg hfault, hdb] at h
      split at h <;> (cases h; rfl)
    refine ⟨Files.rekeyed req.id req.destinationKey g, ?_, ?_, ?_⟩
    · rw [hw, hfiles]
      exact Files.mem_rekey.mpr ⟨g, hmem, rfl⟩
    · rw [Files.rekeyed_id, hid]
    · simp [Files.rekeyed, hid]

theorem rows_of_commit
    (h : moveFileStep indexPrefix req me fault w (.moveFileWithDirectories old cur) = some (w', m'))
    {f : File} (hf : f ∈ w'.db.files.rows) :
    RowKept w f ∨ (f.key = req.destinationKey ∧ fault ≠ .before ∧ w.getFile req.id ≠ none ∧
      w.getFileByKey req.destinationKey = none) := by
  rcases (db_of_moveStep (moveStep_of_step h)).2 with hdb | ⟨-, hfault, moved, hdb⟩
  · rw [hdb] at hf
    exact Or.inl ⟨f, hf, rfl, rfl⟩
  · obtain ⟨g, hg, -, ⟨hfree, hfiles⟩, -⟩ := Db.moveFileWithDirectories_ok hdb
    rw [hfiles] at hf
    obtain ⟨x, hx, rfl⟩ := Files.mem_rekey.mp hf
    by_cases hid : x.id = req.id
    · by_cases hkey : ∃ y ∈ w.db.files.rows, y.key = req.destinationKey
      · obtain ⟨y, hy, hyk⟩ := hkey
        have hyid : y.id = req.id := by
          by_contra hne
          exact hfree y hy hne hyk
        exact Or.inl ⟨y, hy, by rw [Files.rekeyed_id, hyid, hid], by simp [Files.rekeyed, hid, hyk]⟩
      · refine Or.inr ⟨by simp [Files.rekeyed, hid], hfault, ?_, ?_⟩
        · rw [World.getFile, hg]
          exact Option.some_ne_none _
        · rw [World.getFileByKey, Files.getFileByKey_eq_none_iff.mpr fun y hy hyk => hkey ⟨y, hy, hyk⟩]
          rfl
    · exact Or.inl ⟨x, hx, by rw [Files.rekeyed_id], by simp [Files.rekeyed, hid]⟩

theorem accepted_of_validated {old : Key}
    (h : validateDestination indexPrefix old req.destinationKey = none)
    (hinside : InsideBucket req.destinationKey) : Accepted indexPrefix req.destinationKey := by
  refine accepted_iff.mpr ⟨?_, hinside, unreserved_of_validate h⟩
  intro hempty
  simp [validateDestination, hempty] at h

end Moves

section Runs

variable {β ι : Type} [DecidableEq ι] {indexPrefix : Key} {requests : ι → FilesRequest}
  {s t : FilesService β ι}

def Inv (indexPrefix : Key) (s : FilesService β ι) : Prop := ∀ i, CallOk indexPrefix (s.calls i)

theorem inv_preserved : Preserves (step indexPrefix requests) (fun _ _ => True)
    (Inv indexPrefix (β := β)) := by
  intro s a t h _ ht
  cases a with
  | step i fault pick assembled =>
    obtain ⟨⟨w, c⟩, hwc, rfl⟩ := Option.map_eq_some_iff.mp ht
    intro j
    rcases eq_or_ne j i with rfl | hji
    · simpa using callOk_of_step (h j) hwc
    · simpa [hji] using h j
  | put key bytes =>
    obtain rfl := Option.some.inj ht
    exact h
  | tick d =>
    obtain rfl := Option.some.inj ht
    exact h

theorem accepted_iff_inside (h : Inv indexPrefix s) {a : FilesAction β ι}
    (ht : s.step indexPrefix requests a = some t) :
    s.WritesAccepted indexPrefix requests a ↔ s.MovesInside a := by
  cases a with
  | put key bytes =>
    refine iff_of_true (fun u hu f hf => ?_) trivial
    obtain rfl := Option.some.inj hu
    exact Or.inl ⟨f, hf, rfl, rfl⟩
  | tick d =>
    refine iff_of_true (fun u hu f hf => ?_) trivial
    obtain rfl := Option.some.inj hu
    exact Or.inl ⟨f, hf, rfl, rfl⟩
  | step i fault pick assembled =>
    by_cases hmove : ∃ req old cur, s.calls i = .move req (.moveFileWithDirectories old cur)
    · obtain ⟨req, old, cur, hcall⟩ := hmove
      constructor
      · intro hwrites req' old' cur' hcall' hfault hfile hvacant
        obtain ⟨rfl, -⟩ : req = req' ∧ _ := FilesCall.move.inj (hcall.symm.trans hcall')
        obtain ⟨⟨w, c⟩, hwc, rfl⟩ := Option.map_eq_some_iff.mp ht
        rw [hcall] at hwc
        obtain ⟨⟨u, m'⟩, hu, he⟩ := Option.map_eq_some_iff.mp hwc
        cases he
        obtain ⟨f, hf, -, hkey⟩ := committed_of_moveStep hu hfault hfile hvacant
        rcases hwrites _ ht f hf with ⟨g, hg, -, hgk⟩ | haccepted
        · have hno := Files.getFileByKey_eq_none_iff.mp (Option.map_eq_none_iff.mp hvacant)
          exact absurd (hgk.trans hkey) (hno g hg)
        · exact (accepted_iff.mp (hkey ▸ haccepted)).2.1
      · intro hinside u hu f hf
        obtain ⟨⟨w, c⟩, hwc, rfl⟩ := Option.map_eq_some_iff.mp hu
        rw [hcall] at hwc
        obtain ⟨⟨v, m'⟩, hv, he⟩ := Option.map_eq_some_iff.mp hwc
        cases he
        refine (rows_of_commit hv hf).imp_right fun hnew => ?_
        obtain ⟨hkey, hfault, hfile, hvacant⟩ := hnew
        have hcallOk := h i
        rw [hcall] at hcallOk
        obtain ⟨k, hk⟩ := hcallOk rfl
        exact hkey ▸ accepted_of_validated hk (hinside req old cur hcall hfault hfile hvacant)
    · have hno : ∀ req old cur, s.calls i ≠ .move req (.moveFileWithDirectories old cur) :=
        fun req old cur he => hmove ⟨req, old, cur, he⟩
      refine iff_of_true (fun u hu f hf => ?_) fun req old cur he => absurd he (hno req old cur)
      obtain ⟨⟨w, c⟩, hwc, rfl⟩ := Option.map_eq_some_iff.mp hu
      exact rows_of_step (h i) hwc hno f hf

theorem writes_accepted_iff (indexPrefix : Key) (requests : ι → FilesRequest) (w : World β ι)
    (as : List (FilesAction β ι)) :
    EveryStep (step indexPrefix requests) (WritesAccepted indexPrefix requests) (started w) as ↔
      EveryStep (step indexPrefix requests) MovesInside (started w) as :=
  everyStep_iff inv_preserved (fun _ _ _ h ht => accepted_iff_inside h ht) as fun _ => trivial

def oneFile : World FileID (Fin 1) where
  db := ⟨⟨[⟨1, ascii "A", 1, 1, 1⟩], 2, by decide, by decide, by decide⟩, ∅⟩
  previewKeys _ := none
  bucket := (∅ : Bucket FileID).put 1 (ascii "A") 1
  locks _ := none
  now := 1

def moveToRoot : Fin 1 → FilesRequest := fun _ => .moveFile ⟨1, ascii "/B"⟩

theorem rooted_destination_written : ¬EveryStep (step (ascii ".index/") moveToRoot)
    (WritesAccepted (ascii ".index/") moveToRoot) (started oneFile)
    (List.replicate 9 (.step 0 .none 0 none) ++ [.step 0 .none 0 none]) := by
  intro h
  have hrun : (exec (step (ascii ".index/") moveToRoot) (started oneFile)
      (List.replicate 9 (.step 0 .none 0 none))).map
      (fun s => ((s.step (ascii ".index/") moveToRoot (.step 0 .none 0 none)).map
        fun t => t.world.db.files.rows.map fun f => (f.id, f.key),
        s.world.db.files.rows.map fun f => (f.id, f.key))) =
      some (some [(1, ascii "/B")], [(1, ascii "A")]) := by
    decide
  obtain ⟨s, hexec, hs⟩ := Option.map_eq_some_iff.mp hrun
  obtain ⟨hnext, hrows⟩ := Prod.mk.inj hs
  obtain ⟨t, ht, htrows⟩ := Option.map_eq_some_iff.mp hnext
  obtain ⟨f, hf, hfk⟩ := List.mem_map.mp (htrows ▸ List.mem_singleton_self (1, ascii "/B"))
  obtain ⟨-, hkey⟩ := Prod.mk.inj hfk
  rcases ((h.exec hexec) t ht).1 t ht f hf with ⟨g, hg, -, hgk⟩ | haccepted
  · have hgk' : (g.id, g.key) ∈ [(1, ascii "A")] :=
      hrows ▸ List.mem_map.mpr ⟨g, hg, rfl⟩
    have hA := congrArg Prod.snd (List.mem_singleton.mp hgk')
    exact absurd (hA.symm.trans (hgk.trans hkey)) (by decide)
  · rw [hkey] at haccepted
    exact absurd (accepted_iff.mp haccepted).2.1.1 (by decide)

end Runs

end FilesService

end FileIndexer
