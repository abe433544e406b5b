import FileIndexer.Database.Store
import FileIndexer.Service.Indexer.Freshness

namespace FileIndexer

section Evolution

structure Files.Follows (t' t : Files) : Prop where
  nextId : t.nextId ≤ t'.nextId
  origin : ∀ g ∈ t'.rows, (∃ f ∈ t.rows, f.id = g.id ∧ f.markedAt ≤ g.markedAt) ∨ t.nextId ≤ g.id

theorem Files.follows_refl (t : Files) : t.Follows t where
  nextId := le_refl _
  origin g hg := Or.inl ⟨g, hg, rfl, le_refl _⟩

theorem Files.follows_upsertFiles (t : Files) (now : Time) (arg : UpsertFilesParams) :
    (t.upsertFiles now arg).2.Follows t where
  nextId := nextId_upsertFiles t now arg
  origin _ hg := origin_upsertFiles hg

theorem Files.follows_deleteWhere (t : Files) (p : File → Bool) : (t.deleteWhere p).Follows t where
  nextId := le_refl _
  origin g hg := Or.inl ⟨g, (mem_deleteWhere.mp hg).1, rfl, le_refl _⟩

theorem Files.follows_rekey (t : Files) (id : FileID) (key : Key)
    (h : ∀ f ∈ t.rows, f.id ≠ id → f.key ≠ key) : (t.rekey id key h).Follows t where
  nextId := le_refl _
  origin g hg := by
    obtain ⟨f, hf, rfl⟩ := mem_rekey.mp hg
    refine Or.inl ⟨f, hf, (rekeyed_id id key f).symm, ?_⟩
    unfold rekeyed
    split
    · exact le_refl _
    · exact le_refl _

theorem follows_run {db db' : Db} {op : StoreOp} (h : op.run db = .ok db') :
    db'.files.Follows db.files := by
  cases op with
  | upsertFiles now arg =>
    obtain ⟨n, hn⟩ := ok_of_map_snd (e := db.upsertFilesWithDirectories now arg) h
    exact (Db.upsertFilesWithDirectories_ok hn).1 ▸ Files.follows_upsertFiles ..
  | deleteFile id =>
    obtain ⟨f, hf⟩ := ok_of_map_snd h
    exact (Db.deleteFileWithDirectories_ok hf).2.1 ▸ Files.follows_deleteWhere ..
  | moveFile id newKey =>
    obtain ⟨f, hf⟩ := ok_of_map_snd h
    obtain ⟨old, -, -, ⟨hfree, hfiles⟩, -⟩ := Db.moveFileWithDirectories_ok hf
    exact hfiles ▸ Files.follows_rekey ..
  | deleteFilesByIDs ids keys =>
    obtain ⟨n, hn⟩ := ok_of_map_snd (e := db.deleteFilesByIDsWithDirectories ids keys) h
    exact (Db.deleteFilesByIDsWithDirectories_ok hn).1 ▸ Files.follows_deleteWhere ..
  | deleteUnseenFiles cutoff =>
    obtain ⟨n, hn⟩ := ok_of_map_snd (e := db.deleteUnseenFilesWithDirectories cutoff) h
    exact (Db.deleteUnseenFilesWithDirectories_ok hn).1 ▸ Files.follows_deleteWhere ..

theorem follows_withTx {db db' : Db} {tx : Transaction} (h : withTx db tx = some db') :
    db'.files.Follows db.files := by
  unfold withTx at h
  split at h
  · rename_i db'' hrun
    obtain rfl := Option.some.inj h
    split
    · exact follows_run hrun
    · exact Files.follows_refl _
  · exact Option.some.inj h ▸ Files.follows_refl _

end Evolution

-- ON DELETE CASCADE of index_queue and of the result tables
def IndexDb.cascade {ρ : Type} (db : IndexDb ρ) (files : Files) : IndexDb ρ where
  files
  queue id := if (files.getFile id).isSome then db.queue id else none
  results := ⟨db.results.entries.filter fun e => (files.getFile e.1).isSome,
    db.results.nodupKeys.sublist List.filter_sublist⟩

structure Pool (β R ρ ι : Type) where
  indexing : Indexing β R ρ ι
  directories : Directories

inductive PoolAction (β R ι : Type) where
  | indexing (a : IndexingAction β R ι)
  | store (tx : Transaction)
  | replaceBucket (bucket : Bucket β)

def PoolAction.claimedIds {β R ι : Type} : PoolAction β R ι → List FileID
  | .indexing (.claim _ ids) => ids
  | _ => []

section Step

variable {β R ρ ι : Type} [DecidableEq ι] (T : IndexType R ρ) (cfg : IndexerConfig)

def Pool.step (s : Pool β R ρ ι) : PoolAction β R ι → Option (Pool β R ρ ι)
  | .indexing a => (s.indexing.step T cfg a).map fun indexing => { s with indexing }
  | .store tx =>
    (withTx ⟨s.indexing.db.files, s.directories⟩ tx).map fun db =>
      ⟨{ s.indexing with db := s.indexing.db.cascade db.files }, db.directories⟩
  | .replaceBucket bucket => some { s with indexing := { s.indexing with bucket } }

end Step

section StatusWrites

structure StatusWrite (ι : Type) where
  worker : ι
  job : Job
  status : QueueStatus

variable {β R ρ ι : Type} (T : IndexType R ρ) (cfg : IndexerConfig)

def Indexing.statusWrite (s : Indexing β R ρ ι) :
    IndexingAction β R ι → Option (StatusWrite ι)
  | .complete i fault =>
    match s.workers i with
    | .completing job result _ _ _ =>
      if fault ≠ .before ∧ (T.complete s.db s.now job.fileID result).isOk = true ∧
          (s.db.queue job.fileID).isSome = true then some ⟨i, job, .done⟩
      else none
    | _ => none
  | .fail i fault =>
    match s.workers i with
    | .failing job _ _ _ _ =>
      if fault ≠ .before ∧ (s.db.queue job.fileID).isSome = true then
        some ⟨i, job, if cfg.maxAttempts ≤ job.attempts then .error else .pending⟩
      else none
    | _ => none
  | _ => none

def IndexingAction.fault : IndexingAction β R ι → Option Fault
  | .complete _ fault | .fail _ fault => some fault
  | _ => none

def WorkerState.tries : WorkerState R → Nat
  | .completing _ _ _ tries _ | .failing _ _ _ tries _ => tries
  | _ => 0

def Indexing.Unrepeated (s : Indexing β R ρ ι) (a : IndexingAction β R ι) : Prop :=
  ∀ w ∈ s.statusWrite T cfg a, a.fault = some .after →
    statusWriteTries ≤ (s.workers w.worker).tries + 1

end StatusWrites

section Inversion

variable {β R ρ ι : Type} {T : IndexType R ρ} {cfg : IndexerConfig}

inductive WorkerState.Resumes : WorkerState R → WorkerState R → Prop
  | complete {job result readAt tries rest} : Resumes (.completing job result readAt tries rest)
      (.completing job result readAt (tries + 1) rest)
  | fail {job cause nextAttempt tries rest} : Resumes (.failing job cause nextAttempt tries rest)
      (.failing job cause nextAttempt (tries + 1) rest)
  | completed {job result readAt tries rest} :
      Resumes (.completing job result readAt tries rest) (.batch rest)
  | failed {job cause nextAttempt tries rest} :
      Resumes (.failing job cause nextAttempt tries rest) (.batch rest)

theorem WorkerState.Resumes.sublist {v w : WorkerState R} (h : v.Resumes w) :
    w.jobs.Sublist v.jobs := by
  cases h with
  | complete => exact List.Sublist.refl _
  | fail => exact List.Sublist.refl _
  | completed => exact List.sublist_cons_self _ _
  | failed => exact List.sublist_cons_self _ _

theorem retryOrGiveUp_cases (w : Nat → WorkerState R) (tries : Nat) (rest : List Job) :
    (tries + 1 < statusWriteTries ∧ retryOrGiveUp w tries rest = w (tries + 1)) ∨
      retryOrGiveUp w tries rest = .batch rest := by
  unfold retryOrGiveUp
  split
  · rename_i h
    exact Or.inl ⟨h, rfl⟩
  · exact Or.inr rfl

theorem statusWrite_complete {s : Indexing β R ρ ι} {i : ι} {fault : Fault} {job : Job} {result : R}
    {readAt : Time} {tries : Nat} {rest : List Job} {db : IndexDb ρ} {r : QueueRow}
    (hw : s.workers i = .completing job result readAt tries rest) (hfault : fault ≠ .before)
    (hdb : T.complete s.db s.now job.fileID result = .ok db) (hr : s.db.queue job.fileID = some r) :
    s.statusWrite T cfg (.complete i fault) = some ⟨i, job, .done⟩ := by
  simp [Indexing.statusWrite, hw, hfault, hdb, hr, Except.isOk, Except.toBool]

theorem statusWrite_fail {s : Indexing β R ρ ι} {i : ι} {fault : Fault} {job : Job} {cause : Text}
    {nextAttempt : Time} {tries : Nat} {rest : List Job} {r : QueueRow}
    (hw : s.workers i = .failing job cause nextAttempt tries rest) (hfault : fault ≠ .before)
    (hr : s.db.queue job.fileID = some r) : s.statusWrite T cfg (.fail i fault) =
      some ⟨i, job, if cfg.maxAttempts ≤ job.attempts then .error else .pending⟩ := by
  simp [Indexing.statusWrite, hw, hfault, hr]

theorem batch_of_unrepeated {s : Indexing β R ρ ι} {a : IndexingAction β R ι} {write : StatusWrite ι}
    {w : WorkerState R} {fault : Fault} {tries : Nat} {rest : List Job}
    (hok : s.Unrepeated T cfg a) (hwrite : s.statusWrite T cfg a = some write)
    (hfault : a.fault = some fault) (htries : (s.workers write.worker).tries = tries)
    (hnext : (fault = .after ∧ tries + 1 < statusWriteTries) ∨ w = .batch rest) :
    w = .batch rest := by
  refine hnext.resolve_left fun ⟨hafter, hlt⟩ => ?_
  have hlast : statusWriteTries ≤ tries + 1 := htries ▸ hok write hwrite (hafter ▸ hfault)
  omega

variable [DecidableEq ι]

inductive PoolStep (T : IndexType R ρ) (cfg : IndexerConfig) (s : Indexing β R ρ ι) :
    PoolAction β R ι → Indexing β R ρ ι → Prop
  | seeded : PoolStep T cfg s (.indexing .seedIndexQueue)
      { s with db := { s.db with queue := s.db.queue.seedIndexQueue s.now s.db.files } }
  | requeued : PoolStep T cfg s (.indexing .requeueStaleIndexQueue)
      { s with db := { s.db with queue := s.db.queue.requeueStaleIndexQueue s.now s.db.files } }
  | claimed {i ids} : (s.workers i).jobs = [] → ids.Nodup →
      (∀ id ∈ ids, (s.db.queue id).any (IndexQueue.claimable s.now cfg.claimTTL) = true) →
      PoolStep T cfg s (.indexing (.claim i ids))
        ({ s with db := { s.db with queue := s.db.queue.claimIndexQueue s.now ids } }.setWorker i
          (.batch (claimedJobs s.db ids)))
  | processed {i result job readAt rest} : s.workers i = .batch (job :: rest) →
      PoolStep T cfg s (.indexing (.process i (.ok result)))
        (s.setWorker i (.completing job result readAt 0 rest))
  | errored {i cause job rest} : s.workers i = .batch (job :: rest) →
      PoolStep T cfg s (.indexing (.process i (.error cause)))
        (s.setWorker i (.failing job cause (s.now + backoff cfg job.attempts) 0 rest))
  | unwritten {a i w} : a.fault.isSome = true → s.statusWrite T cfg a = none →
      (s.workers i).Resumes w → PoolStep T cfg s (.indexing a) (s.setWorker i w)
  | completed {i fault job result readAt tries rest db prov w} :
      s.workers i = .completing job result readAt tries rest → fault ≠ .before →
      T.complete s.db s.now job.fileID result = .ok db → (s.workers i).Resumes w →
      (fault = .after ∧ tries + 1 < statusWriteTries) ∨ w = .batch rest →
      PoolStep T cfg s (.indexing (.complete i fault))
        ({ s with db, provenance := prov }.setWorker i w)
  | failed {i fault job cause nextAttempt tries rest w} :
      s.workers i = .failing job cause nextAttempt tries rest → fault ≠ .before →
      (s.workers i).Resumes w → (fault = .after ∧ tries + 1 < statusWriteTries) ∨ w = .batch rest →
      PoolStep T cfg s (.indexing (.fail i fault))
        ({ s with db := { s.db with queue := (s.db.queue.failIndexQueue s.now job.fileID
            (cfg.maxAttempts ≤ job.attempts) nextAttempt cause) } }.setWorker i w)
  | stopped {i} : PoolStep T cfg s (.indexing (.stop i)) (s.setWorker i .idle)
  | upserted {arg} : PoolStep T cfg s (.indexing (.upsertFiles arg))
      { s with db := { s.db with files := (s.db.files.upsertFiles s.now arg).2 } }
  | replaced {key bytes} : PoolStep T cfg s (.indexing (.replaceObject key bytes))
      { s with bucket := s.bucket.put s.now key bytes }
  | ticked {d} : PoolStep T cfg s (.indexing (.tick d)) { s with now := s.now + (d : Nat) }
  | stored {tx files} : files.Follows s.db.files →
      PoolStep T cfg s (.store tx) { s with db := s.db.cascade files }
  | rebucketed {bucket} : PoolStep T cfg s (.replaceBucket bucket) { s with bucket }

theorem poolStep_of_indexing {s t : Indexing β R ρ ι} {a : IndexingAction β R ι}
    (h : s.step T cfg a = some t) : PoolStep T cfg s (.indexing a) t := by
  cases a with
  | seedIndexQueue => cases h; exact .seeded
  | requeueStaleIndexQueue => cases h; exact .requeued
  | claim i ids =>
    have hclaim (hjobs : (s.workers i).jobs = [])
        (h : (if ids.Nodup ∧ ids.length ≤ cfg.batchSize ∧
            ∀ id ∈ ids, (s.db.queue id).any (IndexQueue.claimable s.now cfg.claimTTL) = true then
          some ({ s with db := { s.db with queue := s.db.queue.claimIndexQueue s.now ids } }.setWorker
            i (.batch (claimedJobs s.db ids))) else none) = some t) :
        PoolStep T cfg s (.indexing (.claim i ids)) t := by
      split at h
      · rename_i hc
        cases h
        exact .claimed hjobs hc.1 hc.2.2
      · cases h
    simp only [Indexing.step] at h
    split at h
    · rename_i hw
      exact hclaim (by rw [hw]; rfl) h
    · rename_i hw
      exact hclaim (by rw [hw]; rfl) h
    · cases h
  | process i outcome =>
    simp only [Indexing.step] at h
    split at h
    · rename_i hw
      split at h
      · cases h; exact .processed hw
      · cases h; exact .errored hw
      · cases h
    · cases h
  | complete i fault =>
    simp only [Indexing.step] at h
    split at h
    · rename_i job result readAt tries rest hw
      have hretry : (s.workers i).Resumes
          (retryOrGiveUp (.completing job result readAt · rest) tries rest) := by
        rw [hw]
        rcases retryOrGiveUp_cases (.completing job result readAt · rest) tries rest with h | h
        · rw [h.2]; exact .complete
        · rw [h]; exact .completed
      split at h
      · rename_i hfault
        cases h
        exact .unwritten rfl (by simp [Indexing.statusWrite, hw, hfault]) hretry
      · rename_i hfault
        split at h
        · rename_i e hdb
          cases h
          refine .unwritten rfl ?_ hretry
          simp [Indexing.statusWrite, hw, hdb, Except.isOk, Except.toBool]
        · rename_i db hdb
          cases h
          split
          · rename_i hafter
            refine .completed hw hfault hdb hretry ?_
            exact (retryOrGiveUp_cases _ tries rest).imp (fun h => ⟨hafter, h.1⟩) fun h => h
          · exact .completed hw hfault hdb (hw ▸ .completed) (Or.inr rfl)
    · cases h
  | fail i fault =>
    simp only [Indexing.step] at h
    split at h
    · rename_i job cause nextAttempt tries rest hw
      have hretry : (s.workers i).Resumes
          (retryOrGiveUp (.failing job cause nextAttempt · rest) tries rest) := by
        rw [hw]
        rcases retryOrGiveUp_cases (.failing job cause nextAttempt · rest) tries rest with h | h
        · rw [h.2]; exact .fail
        · rw [h]; exact .failed
      split at h
      · rename_i hfault
        cases h
        exact .unwritten rfl (by simp [Indexing.statusWrite, hw, hfault]) hretry
      · rename_i hfault
        cases h
        split
        · rename_i hafter
          refine .failed hw hfault hretry ?_
          exact (retryOrGiveUp_cases _ tries rest).imp (fun h => ⟨hafter, h.1⟩) fun h => h
        · exact .failed hw hfault (hw ▸ .failed) (Or.inr rfl)
    · cases h
  | stop i => cases h; exact .stopped
  | upsertFiles arg =>
    simp only [Indexing.step] at h
    split at h
    · cases h; exact .upserted
    · cases h
  | replaceObject key bytes =>
    simp only [Indexing.step] at h
    split at h
    · cases h; exact .replaced
    · cases h
  | tick d => cases h; exact .ticked

theorem poolStep_of_step {s t : Pool β R ρ ι} {a : PoolAction β R ι}
    (h : s.step T cfg a = some t) : PoolStep T cfg s.indexing a t.indexing := by
  cases a with
  | indexing a =>
    obtain ⟨u, hu, rfl⟩ := Option.map_eq_some_iff.mp h
    exact poolStep_of_indexing hu
  | store tx =>
    obtain ⟨db, hdb, rfl⟩ := Option.map_eq_some_iff.mp h
    exact .stored (follows_withTx hdb)
  | replaceBucket bucket =>
    obtain rfl := Option.some.inj h
    exact .rebucketed

end Inversion

section Sound

variable {β R ρ ι : Type} {T : IndexType R ρ} {cfg : IndexerConfig}

def Indexing.Covered (id : FileID) (s : Indexing β R ρ ι) : Prop :=
  s.db.queue id ≠ none ∨ ((∀ f ∈ s.db.files.rows, f.id ≠ id) ∧ id < s.db.files.nextId)

structure Indexing.Sound (s : Indexing β R ρ ι) : Prop where
  known : ∀ id, s.db.queue id ≠ none → ∃ f ∈ s.db.files.rows, f.id = id
  held : ∀ i, ∀ job ∈ (s.workers i).jobs, s.Covered job.fileID
  nodup : ∀ i, ((s.workers i).jobs.map Job.fileID).Nodup

theorem Indexing.Sound.file {s : Indexing β R ρ ι} (hs : s.Sound) {id : FileID}
    (hr : s.db.queue id ≠ none) : ∃ f, s.db.files.getFile id = some f := by
  obtain ⟨f, hf, hid⟩ := hs.known id hr
  exact ⟨f, Files.getFile_eq_some_iff.mpr ⟨hf, hid⟩⟩

theorem Indexing.sound_of_idle {s : Indexing β R ρ ι}
    (hknown : ∀ id, s.db.queue id ≠ none → ∃ f ∈ s.db.files.rows, f.id = id)
    (hidle : ∀ i, s.workers i = .idle) : s.Sound where
  known := hknown
  held i job hjob := by
    rw [hidle i] at hjob
    cases hjob
  nodup i := by simp [hidle i, WorkerState.jobs]

theorem Indexing.Initial.sound {s : Indexing β R ρ ι} (hs : s.Initial) : s.Sound :=
  sound_of_idle (fun id h => absurd (hs.queue id) h) hs.workers

theorem Indexing.Sound.issued {s : Indexing β R ρ ι} (hs : s.Sound) {id : FileID}
    (h : s.Covered id) : id < s.db.files.nextId := by
  rcases h with hrow | ⟨-, hlt⟩
  · obtain ⟨f, hf, rfl⟩ := hs.known id hrow
    exact s.db.files.serial f hf
  · exact hlt

theorem Indexing.Sound.origin {s : Indexing β R ρ ι} (hs : s.Sound) {files : Files}
    (hf : files.Follows s.db.files) {g : File} (hg : g ∈ files.rows) {r : QueueRow}
    (hr : s.db.queue g.id = some r) : ∃ f ∈ s.db.files.rows, f.id = g.id ∧ f.markedAt ≤ g.markedAt := by
  refine (hf.origin g hg).resolve_right fun hnext => ?_
  have hlt : g.id < s.db.files.nextId := hs.issued (Or.inl (by simp [hr]))
  exact absurd hlt (not_lt.mpr hnext)

@[simp] theorem Indexing.setWorker_db [DecidableEq ι] (s : Indexing β R ρ ι) (i : ι)
    (w : WorkerState R) : (s.setWorker i w).db = s.db := rfl

@[simp] theorem Indexing.setWorker_now [DecidableEq ι] (s : Indexing β R ρ ι) (i : ι)
    (w : WorkerState R) : (s.setWorker i w).now = s.now := rfl

@[simp] theorem Indexing.setWorker_workers [DecidableEq ι] (s : Indexing β R ρ ι) (i : ι)
    (w : WorkerState R) : (s.setWorker i w).workers = Function.update s.workers i w := rfl

theorem IndexDb.cascade_queue {db : IndexDb ρ} {files : Files} {id : FileID} {r : QueueRow} :
    (db.cascade files).queue id = some r ↔ db.queue id = some r ∧ ∃ f ∈ files.rows, f.id = id := by
  simp only [IndexDb.cascade, ← Files.getFile_eq_some_iff]
  cases files.getFile id <;> simp

theorem IndexDb.cascade_of_mem {db : IndexDb ρ} {files : Files} {f : File} (h : f ∈ files.rows) :
    (db.cascade files).queue f.id = db.queue f.id := by
  simp [IndexDb.cascade, Files.getFile_eq_some_iff.mpr ⟨h, rfl⟩]

theorem claimedJobs_sublist (db : IndexDb ρ) (ids : List FileID) :
    ((claimedJobs db ids).map Job.fileID).Sublist ids := by
  induction ids with
  | nil => exact List.Sublist.refl _
  | cons id ids ih =>
    unfold claimedJobs at ih ⊢
    rw [List.filterMap_cons]
    split
    · exact ih.cons id
    · rename_i job hjob
      split at hjob
      · obtain rfl := Option.some.inj hjob
        exact ih.cons_cons id
      · cases hjob

theorem row_of_claimedJobs {db : IndexDb ρ} {ids : List FileID} {job : Job}
    (h : job ∈ claimedJobs db ids) :
    job.fileID ∈ ids ∧ ∃ r, db.queue job.fileID = some r ∧ job.attempts = r.attempts + 1 := by
  obtain ⟨id, hmem, hid⟩ := List.mem_filterMap.mp h
  split at hid
  · rename_i r f hr hf
    obtain rfl := Option.some.inj hid
    exact ⟨hmem, r, hr, rfl⟩
  · cases hid

theorem Indexing.Covered.refiled {s : Indexing β R ρ ι} {id : FileID} (hs : s.Sound)
    (h : s.Covered id) {db : IndexDb ρ} (hfiles : db.files.Follows s.db.files)
    (hq : ∀ f ∈ db.files.rows, db.queue f.id = s.db.queue f.id) : Covered id { s with db } := by
  have hlt : id < s.db.files.nextId := hs.issued h
  rcases Classical.em (∃ f ∈ db.files.rows, f.id = id) with ⟨f, hf, rfl⟩ | hgone
  · refine Or.inl fun hnone => ?_
    rcases h with hrow | ⟨habsent, -⟩
    · exact hrow ((hq f hf).symm.trans hnone)
    · rcases hfiles.origin f hf with ⟨g, hg, hid, -⟩ | hnext
      · exact habsent g hg hid
      · exact absurd hlt (not_lt.mpr hnext)
  · exact Or.inr ⟨fun f hf hid => hgone ⟨f, hf, hid⟩, hlt.trans_le hfiles.nextId⟩

variable [DecidableEq ι]

theorem Indexing.covered_preserved {s t : Indexing β R ρ ι} {a : PoolAction β R ι} {id : FileID}
    (hs : s.Sound) (h : s.Covered id) (ht : PoolStep T cfg s a t) : t.Covered id := by
  cases ht with
  | seeded =>
    refine h.imp_left fun hrow hnone => hrow ?_
    cases hr : s.db.queue id with
    | none => rfl
    | some r => simp [IndexQueue.seedIndexQueue, hr] at hnone
  | requeued => exact h.imp_left fun hrow hnone => hrow (Option.map_eq_none_iff.mp hnone)
  | claimed => exact h.imp_left fun hrow hnone => hrow (Option.map_eq_none_iff.mp hnone)
  | @completed i fault job result readAt tries rest db prov w hw hfault hdb =>
    obtain ⟨hfiles, hqueue, -⟩ := IndexType.complete_ok hdb
    have hkept : db.queue id = none → s.db.queue id = none := by
      rw [hqueue]
      rcases eq_or_ne id job.fileID with rfl | hid
      · intro hnone
        by_contra hrow
        obtain ⟨r, hr⟩ := Option.ne_none_iff_exists'.mp hrow
        obtain ⟨f, hf⟩ := hs.file hrow
        rw [IndexQueue.completeIndexQueue_self s.now hr hf] at hnone
        cases hnone
      · rw [IndexQueue.completeIndexQueue_of_ne hid]
        exact fun hnone => hnone
    exact h.imp (fun hrow hnone => hrow (hkept hnone)) fun hgone => by
      simpa [hfiles] using hgone
  | @failed i fault job cause nextAttempt tries rest w hw =>
    refine h.imp_left fun hrow hnone => hrow ?_
    rcases eq_or_ne id job.fileID with rfl | hid
    · exact Option.map_eq_none_iff.mp ((IndexQueue.failIndexQueue_self ..).symm.trans hnone)
    · exact (IndexQueue.failIndexQueue_of_ne hid).symm.trans hnone
  | upserted => exact h.refiled hs (Files.follows_upsertFiles ..) fun _ _ => rfl
  | stored hfiles => exact h.refiled hs hfiles fun f hf => IndexDb.cascade_of_mem hf
  | _ => exact h

theorem PoolStep.jobs_origin {s t : Indexing β R ρ ι} {a : PoolAction β R ι}
    (ht : PoolStep T cfg s a t) (i : ι) : (t.workers i).jobs.Sublist (s.workers i).jobs ∨
      ∃ ids, a = .indexing (.claim i ids) ∧ ids.Nodup ∧ (t.workers i).jobs = claimedJobs s.db ids := by
  have hworker {j : ι} {w : WorkerState R} (hw : w.jobs.Sublist (s.workers j).jobs) :
      (Function.update s.workers j w i).jobs.Sublist (s.workers i).jobs := by
    rw [Function.update_apply]
    split
    · rename_i hij
      exact hij ▸ hw
    · exact List.Sublist.refl _
  cases ht with
  | @claimed j ids _ hnodup =>
    rcases eq_or_ne i j with rfl | hij
    · refine Or.inr ⟨ids, rfl, hnodup, ?_⟩
      rw [Indexing.setWorker_workers, Function.update_self]
      rfl
    · refine Or.inl ?_
      rw [Indexing.setWorker_workers, Function.update_of_ne hij]
  | processed hw => exact Or.inl (hworker (hw ▸ List.Sublist.refl _))
  | errored hw => exact Or.inl (hworker (hw ▸ List.Sublist.refl _))
  | unwritten _ _ hw => exact Or.inl (hworker hw.sublist)
  | completed _ _ _ hw => exact Or.inl (hworker hw.sublist)
  | failed _ _ hw => exact Or.inl (hworker hw.sublist)
  | stopped => exact Or.inl (hworker (List.nil_sublist _))
  | _ => exact Or.inl (List.Sublist.refl _)

omit [DecidableEq ι] in
theorem claimedIds_of_fault {a : IndexingAction β R ι} (h : a.fault.isSome = true) :
    (PoolAction.indexing a).claimedIds = [] := by
  cases a with
  | complete => rfl
  | fail => rfl
  | _ => cases h

theorem PoolStep.jobs_subset {s t : Indexing β R ρ ι} {a : PoolAction β R ι}
    (ht : PoolStep T cfg s a t) (ha : a.claimedIds = []) (i : ι) :
    (t.workers i).jobs ⊆ (s.workers i).jobs := by
  rcases ht.jobs_origin i with hsub | ⟨ids, rfl, -, hjobs⟩
  · exact hsub.subset
  · have hnil : ids = [] := ha
    rw [hjobs, hnil]
    exact List.nil_subset _

theorem Indexing.known_preserved {s t : Indexing β R ρ ι} {a : PoolAction β R ι} (hs : s.Sound)
    (ht : PoolStep T cfg s a t) {id : FileID} (h : t.db.queue id ≠ none) :
    ∃ f ∈ t.db.files.rows, f.id = id := by
  cases ht with
  | seeded =>
    obtain ⟨r', hr'⟩ := Option.ne_none_iff_exists'.mp h
    rcases IndexQueue.row_of_seeded hr' with hr | ⟨-, hf, -⟩
    · exact hs.known id (by simp [hr])
    · obtain ⟨f, hf⟩ := Option.isSome_iff_exists.mp hf
      obtain ⟨hmem, hid⟩ := Files.getFile_eq_some_iff.mp hf
      exact ⟨f, hmem, hid⟩
  | requeued => exact hs.known id fun hnone => h (Option.map_eq_none_iff.mpr hnone)
  | claimed => exact hs.known id fun hnone => h (Option.map_eq_none_iff.mpr hnone)
  | completed _ _ hdb =>
    obtain ⟨hfiles, hqueue, -⟩ := IndexType.complete_ok hdb
    obtain ⟨r', hr'⟩ := Option.ne_none_iff_exists'.mp h
    rw [Indexing.setWorker_db, hqueue] at hr'
    rw [Indexing.setWorker_db, hfiles]
    rcases IndexQueue.row_of_completed hs.file hr' with ⟨-, hr⟩ | ⟨-, r, f, hr, -⟩
    · exact hs.known id (by simp [hr])
    · exact hs.known id (by simp [hr])
  | failed =>
    obtain ⟨r', hr'⟩ := Option.ne_none_iff_exists'.mp h
    rcases IndexQueue.row_of_failed hr' with ⟨-, hr⟩ | ⟨-, r, hr, -⟩
    · exact hs.known id (by simp [hr])
    · exact hs.known id (by simp [hr])
  | upserted =>
    obtain ⟨f, hf, rfl⟩ := hs.known id h
    exact Files.kept_upsertFiles hf
  | stored =>
    obtain ⟨r, hr⟩ := Option.ne_none_iff_exists'.mp h
    exact (IndexDb.cascade_queue.mp hr).2
  | _ => exact hs.known id h

theorem Indexing.sound_preserved {s t : Indexing β R ρ ι} {a : PoolAction β R ι} (hs : s.Sound)
    (ht : PoolStep T cfg s a t) : t.Sound where
  known _ h := known_preserved hs ht h
  held i job hjob := by
    rcases ht.jobs_origin i with hsub | ⟨ids, -, -, hjobs⟩
    · exact covered_preserved hs (hs.held i job (hsub.subset hjob)) ht
    · obtain ⟨-, r, hr, -⟩ := row_of_claimedJobs (hjobs ▸ hjob)
      exact covered_preserved hs (Or.inl (by simp [hr])) ht
  nodup i := by
    rcases ht.jobs_origin i with hsub | ⟨ids, -, hnodup, hjobs⟩
    · exact (hs.nodup i).sublist (hsub.map Job.fileID)
    · exact hjobs ▸ hnodup.sublist (claimedJobs_sublist s.db ids)

theorem Pool.sound_preserved : Transition.Preserves (Pool.step T cfg) (fun _ _ => True)
    fun s : Pool β R ρ ι => s.indexing.Sound :=
  fun _ _ _ hs _ ht => Indexing.sound_preserved hs (poolStep_of_step ht)

end Sound

abbrev StatPool := Pool String StatResult StatRow Bool

def twoWorkers : StatPool where
  indexing :=
    { db := oneNote.db, bucket := oneNote.bucket, workers := fun _ => .idle, now := 1,
      provenance := fun _ => none }
  directories := ∅

end FileIndexer
