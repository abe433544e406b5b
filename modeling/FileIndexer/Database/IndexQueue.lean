import FileIndexer.Database.Files

namespace FileIndexer

abbrev Text := List Byte

inductive QueueStatus where
  | pending
  | claimed
  | done
  | error
  deriving DecidableEq, Repr

structure QueueRow where
  status : QueueStatus
  attempts : Int
  nextAttemptAt : Time
  claimedAt : Option Time
  lastError : Option Text
  updatedAt : Time
  mark : Option Time
  deriving DecidableEq, Repr

abbrev IndexQueue := FileID → Option QueueRow

namespace IndexQueue

def seedIndexQueue (q : IndexQueue) (now : Time) (files : Files) : IndexQueue := fun id =>
  match q id with
  | some r => some r
  | none => (files.getFile id).map fun _ => ⟨.pending, 0, now, none, none, now, none⟩

def isStale (r : QueueRow) (f : File) : Bool :=
  (r.status = .done || r.status = .pending) && r.mark.any (· < f.markedAt)

def requeued (now : Time) (r : QueueRow) : QueueRow :=
  { r with status := .pending, attempts := 0, nextAttemptAt := now, lastError := none, mark := none,
           updatedAt := now }

def requeueStaleIndexQueue (q : IndexQueue) (now : Time) (files : Files) : IndexQueue := fun id =>
  (q id).map fun r => if (files.getFile id).any (isStale r) then requeued now r else r

def claimable (now staleTimeout : Time) (r : QueueRow) : Bool :=
  (r.status = .pending && r.nextAttemptAt ≤ now) ||
    (r.status = .claimed && r.claimedAt.any fun c => staleTimeout ≤ now - c)

def claimIndexQueue (q : IndexQueue) (now : Time) (ids : List FileID) : IndexQueue := fun id =>
  (q id).map fun r => if id ∈ ids then
    { r with status := .claimed, attempts := r.attempts + 1, claimedAt := some now, updatedAt := now }
  else r

def completeIndexQueue (q : IndexQueue) (now : Time) (files : Files) (fileID : FileID) :
    IndexQueue := fun id =>
  if id = fileID then
    match q id, files.getFile id with
    | some r, some f =>
      some { r with status := .done, lastError := none, updatedAt := now, mark := some f.markedAt }
    | r, _ => r
  else q id

def failIndexQueue (q : IndexQueue) (now : Time) (fileID : FileID) (exhausted : Bool)
    (nextAttemptAt : Time) (lastError : Text) : IndexQueue := fun id =>
  if id = fileID then
    (q id).map fun r => { r with
      status := if exhausted then .error else .pending
      nextAttemptAt
      lastError := some lastError
      updatedAt := now }
  else q id

theorem row_of_seeded {q : IndexQueue} {now : Time} {files : Files} {id : FileID} {r' : QueueRow}
    (h : q.seedIndexQueue now files id = some r') :
    q id = some r' ∨ (q id = none ∧ (files.getFile id).isSome = true ∧
      r' = ⟨.pending, 0, now, none, none, now, none⟩) := by
  unfold seedIndexQueue at h
  split at h
  · rename_i r hr
    exact Or.inl (hr.trans h)
  · rename_i hr
    obtain ⟨f, hf, rfl⟩ := Option.map_eq_some_iff.mp h
    exact Or.inr ⟨hr, by simp [hf], rfl⟩

theorem mark_of_seeded {q : IndexQueue} {now : Time} {files : Files} {id : FileID} {r' : QueueRow}
    (h : q.seedIndexQueue now files id = some r') :
    q id = some r' ∨ (r'.mark = none ∧ ∃ f, files.getFile id = some f) := by
  rcases row_of_seeded h with hr | ⟨-, hfile, rfl⟩
  · exact Or.inl hr
  · exact Or.inr ⟨rfl, Option.isSome_iff_exists.mp hfile⟩

theorem row_of_requeued {q : IndexQueue} {now : Time} {files : Files} {id : FileID} {r' : QueueRow}
    (h : q.requeueStaleIndexQueue now files id = some r') :
    ∃ r, q id = some r ∧ (((files.getFile id).any (isStale r) = true ∧ r' = requeued now r) ∨
      ((files.getFile id).any (isStale r) = false ∧ r' = r)) := by
  obtain ⟨r, hr, rfl⟩ := Option.map_eq_some_iff.mp h
  refine ⟨r, hr, ?_⟩
  split
  · rename_i hstale
    exact Or.inl ⟨hstale, rfl⟩
  · rename_i hstale
    exact Or.inr ⟨Bool.eq_false_iff.mpr hstale, rfl⟩

theorem mark_of_requeued {q : IndexQueue} {now : Time} {files : Files} {id : FileID} {r' : QueueRow}
    (h : q.requeueStaleIndexQueue now files id = some r') :
    ∃ r, q id = some r ∧ (r' = r ∨ (r'.status = .pending ∧ r'.mark = none)) := by
  obtain ⟨r, hr, hrow⟩ := row_of_requeued h
  rcases hrow with ⟨-, rfl⟩ | ⟨-, rfl⟩
  · exact ⟨r, hr, Or.inr ⟨rfl, rfl⟩⟩
  · exact ⟨r', hr, Or.inl rfl⟩

def claimedRow (now : Time) (r : QueueRow) : QueueRow :=
  { r with status := .claimed, attempts := r.attempts + 1, claimedAt := some now, updatedAt := now }

theorem claimIndexQueue_of_not_mem {q : IndexQueue} {now : Time} {ids : List FileID} {id : FileID}
    (h : id ∉ ids) : q.claimIndexQueue now ids id = q id := by
  simp [claimIndexQueue, h]

theorem claimIndexQueue_of_mem {q : IndexQueue} {now : Time} {ids : List FileID} {id : FileID}
    (h : id ∈ ids) : q.claimIndexQueue now ids id = (q id).map (claimedRow now) := by
  simp only [claimIndexQueue, if_pos h]
  rfl

theorem row_of_claimed {q : IndexQueue} {now : Time} {ids : List FileID} {id : FileID}
    {r' : QueueRow} (h : q.claimIndexQueue now ids id = some r') :
    (id ∉ ids ∧ q id = some r') ∨ (id ∈ ids ∧ ∃ r, q id = some r ∧ r' = claimedRow now r) := by
  rcases Classical.em (id ∈ ids) with hid | hid
  · rw [claimIndexQueue_of_mem hid] at h
    obtain ⟨r, hr, rfl⟩ := Option.map_eq_some_iff.mp h
    exact Or.inr ⟨hid, r, hr, rfl⟩
  · rw [claimIndexQueue_of_not_mem hid] at h
    exact Or.inl ⟨hid, h⟩

theorem mark_of_claimed {q : IndexQueue} {now : Time} {ids : List FileID} {id : FileID}
    {r' : QueueRow} (h : q.claimIndexQueue now ids id = some r') :
    ∃ r, q id = some r ∧ r'.mark = r.mark ∧ (r'.status = .done → r.status = .done) := by
  rcases row_of_claimed h with ⟨-, hr⟩ | ⟨-, r, hr, rfl⟩
  · exact ⟨r', hr, rfl, fun hs => hs⟩
  · refine ⟨r, hr, rfl, fun hs => ?_⟩
    cases hs

def failedRow (now : Time) (exhausted : Bool) (nextAttemptAt : Time) (lastError : Text)
    (r : QueueRow) : QueueRow :=
  { r with
    status := if exhausted then .error else .pending
    nextAttemptAt
    lastError := some lastError
    updatedAt := now }

theorem failIndexQueue_of_ne {q : IndexQueue} {now nextAttemptAt : Time} {fileID id : FileID}
    {exhausted : Bool} {lastError : Text} (h : id ≠ fileID) :
    q.failIndexQueue now fileID exhausted nextAttemptAt lastError id = q id :=
  if_neg h

theorem failIndexQueue_self (q : IndexQueue) (now nextAttemptAt : Time) (id : FileID)
    (exhausted : Bool) (lastError : Text) :
    q.failIndexQueue now id exhausted nextAttemptAt lastError id =
      (q id).map (failedRow now exhausted nextAttemptAt lastError) := by
  simp only [failIndexQueue, if_pos]
  rfl

theorem row_of_failed {q : IndexQueue} {now nextAttemptAt : Time} {fileID id : FileID}
    {exhausted : Bool} {lastError : Text} {r' : QueueRow}
    (h : q.failIndexQueue now fileID exhausted nextAttemptAt lastError id = some r') :
    (id ≠ fileID ∧ q id = some r') ∨
      (id = fileID ∧ ∃ r, q id = some r ∧ r' = failedRow now exhausted nextAttemptAt lastError r) := by
  rcases eq_or_ne id fileID with rfl | hid
  · rw [failIndexQueue_self] at h
    obtain ⟨r, hr, rfl⟩ := Option.map_eq_some_iff.mp h
    exact Or.inr ⟨rfl, r, hr, rfl⟩
  · rw [failIndexQueue_of_ne hid] at h
    exact Or.inl ⟨hid, h⟩

theorem mark_of_failed {q : IndexQueue} {now nextAttemptAt : Time} {fileID id : FileID}
    {exhausted : Bool} {lastError : Text} {r' : QueueRow}
    (h : q.failIndexQueue now fileID exhausted nextAttemptAt lastError id = some r') :
    ∃ r, q id = some r ∧ r'.mark = r.mark ∧ (r'.status = .done → r.status = .done) := by
  rcases row_of_failed h with ⟨-, hr⟩ | ⟨-, r, hr, rfl⟩
  · exact ⟨r', hr, rfl, fun hs => hs⟩
  · refine ⟨r, hr, rfl, fun hs => ?_⟩
    cases exhausted with
    | true => cases hs
    | false => cases hs

theorem completeIndexQueue_of_ne {q : IndexQueue} {now : Time} {files : Files} {fileID id : FileID}
    (h : id ≠ fileID) : q.completeIndexQueue now files fileID id = q id :=
  if_neg h

theorem completeIndexQueue_self {q : IndexQueue} (now : Time) {files : Files} {id : FileID}
    {r : QueueRow} {f : File} (hr : q id = some r) (hf : files.getFile id = some f) :
    q.completeIndexQueue now files id id =
      some { r with
        status := .done, lastError := none, updatedAt := now, mark := some f.markedAt } := by
  simp [completeIndexQueue, hr, hf]

def completedRow (now markedAt : Time) (r : QueueRow) : QueueRow :=
  { r with status := .done, lastError := none, updatedAt := now, mark := some markedAt }

theorem row_of_completed {q : IndexQueue} {now : Time} {files : Files} {fileID id : FileID}
    {r' : QueueRow} (hknown : q fileID ≠ none → ∃ f, files.getFile fileID = some f)
    (h : q.completeIndexQueue now files fileID id = some r') :
    (id ≠ fileID ∧ q id = some r') ∨ (id = fileID ∧ ∃ r f, q id = some r ∧
      files.getFile id = some f ∧ r' = completedRow now f.markedAt r) := by
  rcases eq_or_ne id fileID with rfl | hid
  · have hne : q id ≠ none := by
      intro hnone
      simp [completeIndexQueue, hnone] at h
    obtain ⟨r, hr⟩ := Option.ne_none_iff_exists'.mp hne
    obtain ⟨f, hf⟩ := hknown hne
    rw [completeIndexQueue_self now hr hf, Option.some.injEq] at h
    exact Or.inr ⟨rfl, r, f, hr, hf, h.symm⟩
  · rw [completeIndexQueue_of_ne hid] at h
    exact Or.inl ⟨hid, h⟩

end IndexQueue

end FileIndexer
