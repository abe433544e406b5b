import FileIndexer.Database.IndexQueue
import FileIndexer.Service.Files.MoveFile
import FileIndexer.Service.Indexer.Results

namespace FileIndexer

structure Job where
  fileID : FileID
  key : Key
  attempts : Int
  deriving DecidableEq, Repr

structure IndexerConfig where
  batchSize : Nat
  maxAttempts : Int
  claimTTL : Time
  backoffBase : Time
  backoffMax : Time

def statusWriteTries : Nat := 3

def backoffLoop (backoffMax : Time) : Nat → Time → Time
  | 0, d => min d backoffMax
  | n + 1, d =>
    if backoffMax ≤ wrap 64 (d * 2) then backoffMax
    else backoffLoop backoffMax n (wrap 64 (d * 2))

def backoff (cfg : IndexerConfig) (attempts : Int) : Time :=
  backoffLoop cfg.backoffMax (attempts - 1).toNat cfg.backoffBase

inductive WorkerState (R : Type) where
  | idle
  | batch (jobs : List Job)
  | completing (job : Job) (result : R) (readAt : Time) (tries : Nat) (rest : List Job)
  | failing (job : Job) (cause : Text) (nextAttempt : Time) (tries : Nat) (rest : List Job)

structure Indexing (β R ρ ι : Type) where
  db : IndexDb ρ
  bucket : Bucket β
  workers : ι → WorkerState R
  now : Time
  provenance : FileID → Option Time

inductive IndexingAction (β R ι : Type) where
  | seedIndexQueue
  | requeueStaleIndexQueue
  | claim (i : ι) (ids : List FileID)
  | process (i : ι) (outcome : Except Text R)
  | complete (i : ι) (fault : Fault)
  | fail (i : ι) (fault : Fault)
  | stop (i : ι)
  | upsertFiles (arg : UpsertFilesParams)
  | replaceObject (key : Key) (bytes : β)
  | tick (d : Nat)

section Step

variable {β R ρ ι : Type} [DecidableEq ι] (T : IndexType R ρ) (cfg : IndexerConfig)

-- the last-modified time of the content that the result row, or its absence, was computed from
def IndexType.provenanceAfter (s : Indexing β R ρ ι) (fileID : FileID) (result : R) (readAt : Time) :
    Option Time :=
  if (T.row s.now result).isNone && (s.db.results.lookup fileID).isSome then s.provenance fileID
  else some readAt

def Indexing.setWorker (s : Indexing β R ρ ι) (i : ι) (w : WorkerState R) : Indexing β R ρ ι :=
  { s with workers := Function.update s.workers i w }

def retryOrGiveUp (w : Nat → WorkerState R) (tries : Nat) (rest : List Job) : WorkerState R :=
  if tries + 1 < statusWriteTries then w (tries + 1) else .batch rest

def claimedJobs (db : IndexDb ρ) (ids : List FileID) : List Job :=
  ids.filterMap fun id => match db.queue id, db.files.getFile id with
    | some r, some f => some ⟨id, f.key, r.attempts + 1⟩
    | _, _ => none

def Indexing.step (s : Indexing β R ρ ι) : IndexingAction β R ι → Option (Indexing β R ρ ι)
  | .seedIndexQueue =>
    some { s with db := { s.db with queue := s.db.queue.seedIndexQueue s.now s.db.files } }
  | .requeueStaleIndexQueue =>
    some { s with db := { s.db with queue := s.db.queue.requeueStaleIndexQueue s.now s.db.files } }
  | .claim i ids =>
    match s.workers i with
    | .idle | .batch [] =>
      if ids.Nodup ∧ ids.length ≤ cfg.batchSize ∧
          ∀ id ∈ ids, (s.db.queue id).any (IndexQueue.claimable s.now cfg.claimTTL) = true then
        some ({ s with db := { s.db with queue := s.db.queue.claimIndexQueue s.now ids } }.setWorker i
          (.batch (claimedJobs s.db ids)))
      else none
    | _ => none
  | .process i outcome =>
    match s.workers i with
    | .batch (job :: rest) =>
      match outcome, s.bucket.lookup job.key with
      | .ok result, some o => some (s.setWorker i (.completing job result o.lastModified 0 rest))
      | .error cause, _ =>
        some (s.setWorker i (.failing job cause (s.now + backoff cfg job.attempts) 0 rest))
      | .ok _, none => none
    | _ => none
  | .complete i fault =>
    match s.workers i with
    | .completing job result readAt tries rest =>
      let retry := retryOrGiveUp (.completing job result readAt · rest) tries rest
      if fault = .before then some (s.setWorker i retry)
      else match T.complete s.db s.now job.fileID result with
        | .error _ => some (s.setWorker i retry)
        | .ok db => some ({ s with
            db
            provenance := Function.update s.provenance job.fileID
              (T.provenanceAfter s job.fileID result readAt) }.setWorker i
            (if fault = Fault.after then retry else .batch rest))
    | _ => none
  | .fail i fault =>
    match s.workers i with
    | .failing job cause nextAttempt tries rest =>
      let retry := retryOrGiveUp (.failing job cause nextAttempt · rest) tries rest
      if fault = .before then some (s.setWorker i retry)
      else
        let queue := s.db.queue.failIndexQueue s.now job.fileID (cfg.maxAttempts ≤ job.attempts)
          nextAttempt cause
        some ({ s with db := { s.db with queue } }.setWorker i
          (if fault = Fault.after then retry else .batch rest))
    | _ => none
  | .stop i => some (s.setWorker i .idle)
  | .upsertFiles arg =>
    if ∀ row ∈ arg, (s.bucket.lookup row.1).any (row.2 ≤ ·.lastModified) = true then
      some { s with db := { s.db with files := (s.db.files.upsertFiles s.now arg).2 } }
    else none
  | .replaceObject key bytes =>
    if (s.bucket.lookup key).all (·.lastModified < s.now) = true then
      some { s with bucket := s.bucket.put s.now key bytes }
    else none
  | .tick d => some { s with now := s.now + d }

end Step

section Inversion

variable {β R ρ ι : Type} {T : IndexType R ρ} {cfg : IndexerConfig}

def WorkerState.jobs : WorkerState R → List Job
  | .idle => []
  | .batch jobs => jobs
  | .completing job _ _ _ rest | .failing job _ _ _ rest => job :: rest

def WorkerState.result : WorkerState R → Option (Job × R)
  | .completing job result _ _ _ => some (job, result)
  | _ => none

theorem WorkerState.mem_jobs_of_result {w : WorkerState R} {x : Job × R} (h : w.result = some x) :
    x.1 ∈ w.jobs := by
  cases w with
  | completing job result readAt tries rest =>
    obtain rfl := Option.some.inj h
    exact List.mem_cons_self
  | _ => cases h

def WorkerState.follows (w' w : WorkerState R) : Prop :=
  w'.jobs ⊆ w.jobs ∧ ∀ x ∈ w'.result, w.result = some x

theorem follows_retryOrGiveUp {w : WorkerState R} {retry : Nat → WorkerState R} {rest : List Job}
    (hretry : ∀ n, (retry n).follows w) (hrest : rest ⊆ w.jobs) (tries : Nat) :
    (retryOrGiveUp retry tries rest).follows w := by
  unfold retryOrGiveUp
  split
  · exact hretry _
  · exact ⟨hrest, nofun⟩

theorem mem_claimedJobs {db : IndexDb ρ} {ids : List FileID} {job : Job}
    (h : job ∈ claimedJobs db ids) : ∃ f ∈ db.files.rows, f.id = job.fileID := by
  obtain ⟨id, -, hid⟩ := List.mem_filterMap.mp h
  split at hid
  · rename_i r f hr hf
    obtain rfl := Option.some.inj hid
    exact ⟨f, Files.getFile_eq_some_iff.mp hf⟩
  · cases hid

variable [DecidableEq ι]

inductive IndexingStep (T : IndexType R ρ) (s : Indexing β R ρ ι) :
    IndexingAction β R ι → Indexing β R ρ ι → Prop
  | queued {a queue} : IndexingStep T s a { s with db := { s.db with queue } }
  | claimed {i ids queue} : IndexingStep T s (.claim i ids)
      ({ s with db := { s.db with queue } }.setWorker i (.batch (claimedJobs s.db ids)))
  | processed {i result job rest readAt} : s.workers i = .batch (job :: rest) →
      IndexingStep T s (.process i (.ok result))
        (s.setWorker i (.completing job result readAt 0 rest))
  | worked {a i w} (queue) : w.follows (s.workers i) →
      IndexingStep T s a ({ s with db := { s.db with queue } }.setWorker i w)
  | completed {i fault job result db prov w} : (s.workers i).result = some (job, result) →
      fault ≠ .before → T.complete s.db s.now job.fileID result = .ok db → w.follows (s.workers i) →
      IndexingStep T s (.complete i fault) ({ s with db, provenance := prov }.setWorker i w)
  | upserted {arg} : IndexingStep T s (.upsertFiles arg)
      { s with db := { s.db with files := (s.db.files.upsertFiles s.now arg).2 } }
  | replaced {key bytes} : IndexingStep T s (.replaceObject key bytes)
      { s with bucket := s.bucket.put s.now key bytes }
  | ticked {d} : IndexingStep T s (.tick d) { s with now := s.now + d }

theorem indexingStep_of_step {s t : Indexing β R ρ ι} {a : IndexingAction β R ι}
    (h : s.step T cfg a = some t) : IndexingStep T s a t := by
  cases a with
  | seedIndexQueue => cases h; exact .queued
  | requeueStaleIndexQueue => cases h; exact .queued
  | claim i ids =>
    simp only [Indexing.step] at h
    split at h
    · split at h
      · cases h; exact .claimed
      · cases h
    · split at h
      · cases h; exact .claimed
      · cases h
    · cases h
  | process i outcome =>
    simp only [Indexing.step] at h
    split at h
    · rename_i job rest hw
      split at h
      · cases h; exact .processed hw
      · cases h
        refine .worked s.db.queue ⟨?_, nofun⟩
        rw [hw]
        exact List.Subset.refl _
      · cases h
    · cases h
  | complete i fault =>
    simp only [Indexing.step] at h
    split at h
    · rename_i job result readAt tries rest hw
      have hretry : (retryOrGiveUp (.completing job result readAt · rest) tries rest).follows
          (s.workers i) :=
        follows_retryOrGiveUp (fun n => hw ▸ ⟨List.Subset.refl _, fun _ h => h⟩)
          (by simp [hw, WorkerState.jobs]) tries
      split at h
      · cases h; exact .worked s.db.queue hretry
      · rename_i hfault
        split at h
        · cases h; exact .worked s.db.queue hretry
        · rename_i db hdb
          cases h
          refine .completed (by rw [hw]; rfl) hfault hdb ?_
          split
          · exact hretry
          · exact ⟨by simp [hw, WorkerState.jobs], nofun⟩
    · cases h
  | fail i fault =>
    simp only [Indexing.step] at h
    split at h
    · rename_i job cause nextAttempt tries rest hw
      have hretry : (retryOrGiveUp (.failing job cause nextAttempt · rest) tries rest).follows
          (s.workers i) :=
        follows_retryOrGiveUp (fun n => hw ▸ ⟨List.Subset.refl _, fun _ h => h⟩)
          (by simp [hw, WorkerState.jobs]) tries
      split at h
      · cases h; exact .worked s.db.queue hretry
      · cases h
        refine .worked _ ?_
        split
        · exact hretry
        · exact ⟨by simp [hw, WorkerState.jobs], nofun⟩
    · cases h
  | stop i =>
    cases h
    exact .worked s.db.queue ⟨nofun, nofun⟩
  | upsertFiles arg =>
    simp only [Indexing.step] at h
    split at h
    · cases h; exact .upserted
    · cases h
  | replaceObject key bytes =>
    simp only [Indexing.step] at h
    split at h
    · cases h; exact .replaced
    · cases h
  | tick d => cases h; exact .ticked

end Inversion

end FileIndexer
