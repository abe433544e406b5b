import FileIndexer.Service.Indexer.Pool

namespace FileIndexer

section Property

variable {β R ρ ι : Type} (T : IndexType R ρ) (cfg : IndexerConfig)

-- counted per file since its row was last enqueued
structure Tally where
  handed : FileID → Nat
  failures : FileID → Nat

def Tally.zero : Tally := ⟨fun _ => 0, fun _ => 0⟩

def Tally.restart (g : Tally) (enqueued : FileID → Bool) : Tally where
  handed id := if enqueued id then 0 else g.handed id
  failures id := if enqueued id then 0 else g.failures id

def Tally.failed (g : Tally) (fileID : FileID) : Tally :=
  { g with failures := fun id => if id = fileID then g.failures id + 1 else g.failures id }

def Tally.record (s : Pool β R ρ ι) (a : PoolAction β R ι) (g : Tally) : Tally :=
  let db := s.indexing.db
  match a with
  | .indexing .seedIndexQueue =>
    g.restart fun id => (db.queue id).isNone && (db.files.getFile id).isSome
  | .indexing .requeueStaleIndexQueue =>
    g.restart fun id => (db.queue id).any fun r => (db.files.getFile id).any (IndexQueue.isStale r)
  | .indexing (.claim _ ids) =>
    { g with handed := fun id => if id ∈ ids then g.handed id + 1 else g.handed id }
  | .indexing (.process i (.error _)) =>
    match s.indexing.workers i with
    | .batch (job :: _) => g.failed job.fileID
    | _ => g
  | _ => g

def WithinBudget (s : Pool β R ρ ι × Tally) : Prop :=
  ∀ id, s.2.handed id ≤ cfg.maxAttempts ∧
    ∀ r ∈ s.1.indexing.db.queue id, r.status = .error → cfg.maxAttempts ≤ s.2.failures id

def ClaimsPending (s : Indexing β R ρ ι) : IndexingAction β R ι → Prop
  | .claim _ ids => ∀ id ∈ ids, ∀ r ∈ s.db.queue id, r.status = .pending
  | _ => True

def FailsEachClaim (s : Pool β R ρ ι × Tally) : PoolAction β R ι → Prop
  | .indexing a => ClaimsPending s.1.indexing a ∧ s.1.indexing.Unrepeated T cfg a
  | _ => True

end Property

section Invariant

variable {β R ρ ι : Type} {T : IndexType R ρ} {cfg : IndexerConfig}

def WorkerState.failingJob : WorkerState R → Option Job
  | .failing job _ _ _ _ => some job
  | _ => none

theorem WorkerState.Resumes.failingJob {v w : WorkerState R} (h : v.Resumes w) {job : Job}
    (hj : w.failingJob = some job) : v.failingJob = some job := by
  cases h with
  | fail => exact hj
  | _ => cases hj

theorem WorkerState.mem_jobs_of_failingJob {w : WorkerState R} {job : Job}
    (h : w.failingJob = some job) : job ∈ w.jobs := by
  cases w with
  | failing =>
    obtain rfl := Option.some.inj h
    exact List.mem_cons_self
  | _ => cases h

structure Tally.Accounts (cfg : IndexerConfig) (g : Tally) (id : FileID) (r : QueueRow) : Prop where
  attempts : r.attempts = g.handed id
  pending : r.status = .pending → r.attempts < cfg.maxAttempts ∧ r.attempts ≤ g.failures id
  claimed : r.status = .claimed → r.attempts ≤ g.failures id + 1
  error : r.status = .error → cfg.maxAttempts ≤ g.failures id

theorem Tally.Accounts.mono {g g' : Tally} {id : FileID} {r : QueueRow} (h : g.Accounts cfg id r)
    (hhanded : g'.handed id = g.handed id) (hfailures : g.failures id ≤ g'.failures id) :
    g'.Accounts cfg id r := by
  have hle : (g.failures id : Int) ≤ g'.failures id := Int.ofNat_le.mpr hfailures
  refine ⟨hhanded ▸ h.attempts, fun hs => ?_, fun hs => ?_, fun hs => (h.error hs).trans hle⟩
  · exact ⟨(h.pending hs).1, (h.pending hs).2.trans hle⟩
  · exact (h.claimed hs).trans (by gcongr)

theorem Tally.Accounts.of_done {g : Tally} {id : FileID} {r : QueueRow}
    (hattempts : r.attempts = g.handed id) (hdone : r.status = .done) : g.Accounts cfg id r where
  attempts := hattempts
  pending h := by cases hdone.symm.trans h
  claimed h := by cases hdone.symm.trans h
  error h := by cases hdone.symm.trans h

theorem Tally.Accounts.of_claimed {g : Tally} {id : FileID} {r : QueueRow}
    (hattempts : r.attempts = g.handed id) (hclaimed : r.status = .claimed)
    (hfailures : r.attempts ≤ g.failures id + 1) : g.Accounts cfg id r where
  attempts := hattempts
  pending h := by cases hclaimed.symm.trans h
  claimed _ := hfailures
  error h := by cases hclaimed.symm.trans h

structure Budgeted (cfg : IndexerConfig) (s : Indexing β R ρ ι) (g : Tally) : Prop where
  handed : ∀ id, g.handed id ≤ cfg.maxAttempts
  rows : ∀ id, ∀ r ∈ s.db.queue id, g.Accounts cfg id r
  held : ∀ i, ∀ job ∈ (s.workers i).jobs, ∀ r ∈ s.db.queue job.fileID,
    r.status = .claimed ∧ r.attempts = job.attempts
  failing : ∀ i job, (s.workers i).failingJob = some job → ∀ r ∈ s.db.queue job.fileID,
    r.attempts ≤ g.failures job.fileID
  apart : ∀ i j, ∀ a ∈ (s.workers i).jobs, ∀ b ∈ (s.workers j).jobs, a.fileID = b.fileID → i = j

theorem Budgeted.of_rows {s t : Indexing β R ρ ι} {g g' : Tally} (h : Budgeted cfg s g)
    (hworkers : t.workers = s.workers) (hhanded : ∀ id, g'.handed id ≤ cfg.maxAttempts)
    (hrows : ∀ id, ∀ r ∈ t.db.queue id, g'.Accounts cfg id r)
    (hheld : ∀ i, ∀ job ∈ (s.workers i).jobs, ∀ r ∈ t.db.queue job.fileID,
      r ∈ s.db.queue job.fileID ∧ g.failures job.fileID ≤ g'.failures job.fileID) :
    Budgeted cfg t g' where
  handed := hhanded
  rows := hrows
  held i job hjob r hr := by
    rw [hworkers] at hjob
    exact h.held i job hjob r (hheld i job hjob r hr).1
  failing i job hjob r hr := by
    rw [hworkers] at hjob
    obtain ⟨hrow, hle⟩ := hheld i job (WorkerState.mem_jobs_of_failingJob hjob) r hr
    exact (h.failing i job hjob r hrow).trans (Int.ofNat_le.mpr hle)
  apart i j a ha b hb := h.apart i j a (hworkers ▸ ha) b (hworkers ▸ hb)

theorem Budgeted.of_queue {s t : Indexing β R ρ ι} {g : Tally} (h : Budgeted cfg s g)
    (hworkers : t.workers = s.workers) (hq : ∀ id, ∀ r ∈ t.db.queue id, r ∈ s.db.queue id) :
    Budgeted cfg t g :=
  h.of_rows hworkers h.handed (fun id r hr => h.rows id r (hq id r hr))
    fun _ job _ r hr => ⟨hq job.fileID r hr, le_refl _⟩

theorem Budgeted.restart {s t : Indexing β R ρ ι} {g : Tally} {enqueued : FileID → Bool}
    (hmax : 1 ≤ cfg.maxAttempts) (h : Budgeted cfg s g) (hworkers : t.workers = s.workers)
    (hq : ∀ id, ∀ r ∈ t.db.queue id, (enqueued id = false ∧ r ∈ s.db.queue id) ∨
      (enqueued id = true ∧ r.status = .pending ∧ r.attempts = 0))
    (hheld : ∀ i, ∀ job ∈ (s.workers i).jobs, t.db.queue job.fileID ≠ none →
      enqueued job.fileID = false) : Budgeted cfg t (g.restart enqueued) := by
  have hkept {id : FileID} (hid : enqueued id = false) :
      (g.restart enqueued).handed id = g.handed id ∧
        (g.restart enqueued).failures id = g.failures id := by
    simp [Tally.restart, hid]
  refine h.of_rows hworkers (fun id => ?_) (fun id r hr => ?_) fun i job hjob r hr => ?_
  · cases hid : enqueued id with
    | false => exact (hkept hid).1 ▸ h.handed id
    | true =>
      simp only [Tally.restart, hid, if_true]
      exact zero_le_one.trans hmax
  · rcases hq id r hr with ⟨hid, hr⟩ | ⟨hid, hpending, hzero⟩
    · exact (h.rows id r hr).mono (hkept hid).1 (hkept hid).2.ge
    · refine ⟨by simp [Tally.restart, hid, hzero], fun _ => ⟨?_, ?_⟩, fun hs => ?_, fun hs => ?_⟩
      · exact hzero ▸ hmax
      · simp [Tally.restart, hid, hzero]
      · cases hpending.symm.trans hs
      · cases hpending.symm.trans hs
  · have hid : enqueued job.fileID = false := hheld i job hjob (by simp [Option.mem_def.mp hr])
    rcases hq job.fileID r hr with ⟨-, hr⟩ | ⟨hid', -⟩
    · exact ⟨hr, (hkept hid).2.ge⟩
    · cases hid.symm.trans hid'

variable [DecidableEq ι]

theorem Budgeted.setWorker {s : Indexing β R ρ ι} {g : Tally} (h : Budgeted cfg s g) {i : ι}
    {w : WorkerState R} (hsub : w.jobs.Sublist (s.workers i).jobs)
    (hfailing : ∀ job, w.failingJob = some job → ∀ r ∈ s.db.queue job.fileID,
      r.attempts ≤ g.failures job.fileID) : Budgeted cfg (s.setWorker i w) g := by
  have hjobs {j : ι} {job : Job} (hjob : job ∈ (Function.update s.workers i w j).jobs) :
      job ∈ (s.workers j).jobs := by
    rw [Function.update_apply] at hjob
    split at hjob
    · rename_i hij
      exact hij ▸ hsub.subset hjob
    · exact hjob
  refine ⟨h.handed, h.rows, fun j job hjob => h.held j job (hjobs hjob), fun j job hjob => ?_,
    fun j k a ha b hb => h.apart j k a (hjobs ha) b (hjobs hb)⟩
  rw [Indexing.setWorker_workers, Function.update_apply] at hjob
  split at hjob
  · exact hfailing job hjob
  · exact h.failing j job hjob

theorem Budgeted.setQuiet {s : Indexing β R ρ ι} {g : Tally} (h : Budgeted cfg s g) {i : ι}
    {w : WorkerState R} (hsub : w.jobs.Sublist (s.workers i).jobs) (hquiet : w.failingJob = none) :
    Budgeted cfg (s.setWorker i w) g :=
  h.setWorker hsub fun job hjob => by cases hquiet.symm.trans hjob

theorem Budgeted.resumed {s : Indexing β R ρ ι} {g : Tally} (h : Budgeted cfg s g) {i : ι}
    {w : WorkerState R} (hw : (s.workers i).Resumes w) : Budgeted cfg (s.setWorker i w) g :=
  h.setWorker hw.sublist fun job hjob => h.failing i job (hw.failingJob hjob)

theorem Budgeted.errored {s : Indexing β R ρ ι} {g : Tally} (h : Budgeted cfg s g) {i : ι}
    {job : Job} {rest : List Job} (hw : s.workers i = .batch (job :: rest)) (cause : Text)
    (nextAttempt : Time) :
    Budgeted cfg (s.setWorker i (.failing job cause nextAttempt 0 rest)) (g.failed job.fileID) := by
  have hle (id : FileID) : g.failures id ≤ (g.failed job.fileID).failures id := by
    simp only [Tally.failed]
    split <;> omega
  have hcounted : Budgeted cfg s (g.failed job.fileID) :=
    h.of_rows rfl h.handed (fun id r hr => (h.rows id r hr).mono rfl (hle id))
      fun _ job _ r hr => ⟨hr, hle job.fileID⟩
  refine hcounted.setWorker (by rw [hw]; exact List.Sublist.refl _) fun j hj r hr => ?_
  obtain rfl := Option.some.inj hj
  obtain ⟨hclaimed, -⟩ := h.held i job (by rw [hw]; exact List.mem_cons_self) r hr
  have hbound := (h.rows job.fileID r hr).claimed hclaimed
  simpa [Tally.failed] using hbound

theorem Budgeted.wrote {s t : Indexing β R ρ ι} {g : Tally} {i : ι} {job : Job} {rest : List Job}
    (h : Budgeted cfg s g) (hs : s.Sound) (hjobs : (s.workers i).jobs = job :: rest)
    (hworkers : t.workers = (s.setWorker i (.batch rest)).workers)
    (hother : ∀ id, id ≠ job.fileID → t.db.queue id = s.db.queue id)
    (hrow : ∀ r ∈ t.db.queue job.fileID, g.Accounts cfg job.fileID r) : Budgeted cfg t g := by
  have hsub : rest.Sublist (s.workers i).jobs := hjobs ▸ List.sublist_cons_self job rest
  have hreleased : Budgeted cfg (s.setWorker i (.batch rest)) g := h.setQuiet hsub rfl
  have hnodup : (job.fileID :: rest.map Job.fileID).Nodup := by
    simpa [hjobs] using hs.nodup i
  have hfree (j : ι) (b : Job) (hb : b ∈ ((s.setWorker i (.batch rest)).workers j).jobs) :
      b.fileID ≠ job.fileID := by
    intro hid
    rcases eq_or_ne j i with rfl | hij
    · rw [Indexing.setWorker_workers, Function.update_self] at hb
      exact (List.nodup_cons.mp hnodup).1 (List.mem_map.mpr ⟨b, hb, hid⟩)
    · rw [Indexing.setWorker_workers, Function.update_of_ne hij] at hb
      exact hij (h.apart j i b hb job (hjobs ▸ List.mem_cons_self) hid)
  refine hreleased.of_rows hworkers h.handed (fun id r hr => ?_) fun j b hb r hr => ?_
  · rcases eq_or_ne id job.fileID with rfl | hid
    · exact hrow r hr
    · exact h.rows id r (hother id hid ▸ hr)
  · exact ⟨hother b.fileID (hfree j b hb) ▸ hr, le_refl _⟩

theorem Budgeted.claimed {s : Indexing β R ρ ι} {g : Tally} (h : Budgeted cfg s g) {i : ι}
    {ids : List FileID}
    (hpending : ∀ id ∈ ids, ∃ r, s.db.queue id = some r ∧ r.status = .pending) :
    Budgeted cfg ({ s with db := { s.db with queue := s.db.queue.claimIndexQueue s.now ids } }.setWorker
      i (.batch (claimedJobs s.db ids)))
      { g with handed := fun id => if id ∈ ids then g.handed id + 1 else g.handed id } := by
  have hheld {j : ι} {b : Job} (hb : b ∈ (s.workers j).jobs) {r : QueueRow}
      (hr : s.db.queue b.fileID = some r) : b.fileID ∉ ids := by
    intro hid
    obtain ⟨r', hr', hs⟩ := hpending b.fileID hid
    obtain rfl : r' = r := Option.some.inj (hr'.symm.trans hr)
    cases hs.symm.trans (h.held j b hb r' hr).1
  have hworker (j : ι) (b : Job) (hb : b ∈ (Function.update s.workers i
      (.batch (claimedJobs s.db ids)) j).jobs) :
      (j = i ∧ b ∈ claimedJobs s.db ids) ∨ (j ≠ i ∧ b ∈ (s.workers j).jobs) := by
    rw [Function.update_apply] at hb
    split at hb
    · rename_i hij
      exact Or.inl ⟨hij, hb⟩
    · rename_i hij
      exact Or.inr ⟨hij, hb⟩
  refine ⟨fun id => ?_, fun id r' hr' => ?_, fun j b hb r' hr' => ?_, fun j b hb r' hr' => ?_,
    fun j k a ha b hb hid => ?_⟩
  · show ((if id ∈ ids then g.handed id + 1 else g.handed id : Nat) : Int) ≤ cfg.maxAttempts
    split
    · rename_i hid
      obtain ⟨r, hr, hs⟩ := hpending id hid
      have hlt := ((h.rows id r hr).pending hs).1
      rw [(h.rows id r hr).attempts] at hlt
      exact_mod_cast hlt
    · exact h.handed id
  · rcases IndexQueue.row_of_claimed hr' with ⟨hid, hr⟩ | ⟨hid, r, hr, rfl⟩
    · exact (h.rows id r' hr).mono (if_neg hid) (le_refl _)
    · obtain ⟨r₀, hr₀, hs⟩ := hpending id hid
      obtain rfl : r₀ = r := Option.some.inj (hr₀.symm.trans hr)
      have hrow := h.rows id r₀ hr
      refine .of_claimed ?_ rfl ?_
      · simp [hid, IndexQueue.claimedRow, hrow.attempts]
      · exact add_le_add_left (hrow.pending hs).2 1
  · rcases hworker j b hb with ⟨-, hb⟩ | ⟨-, hb⟩
    · obtain ⟨hid, r, hr, hattempts⟩ := row_of_claimedJobs hb
      rcases IndexQueue.row_of_claimed hr' with ⟨hnot, -⟩ | ⟨-, r₀, hr₀, rfl⟩
      · exact absurd hid hnot
      · obtain rfl : r₀ = r := Option.some.inj (hr₀.symm.trans hr)
        exact ⟨rfl, hattempts.symm⟩
    · rcases IndexQueue.row_of_claimed hr' with ⟨-, hr⟩ | ⟨hid, r, hr, -⟩
      · exact h.held j b hb r' hr
      · exact absurd hid (hheld hb hr)
  · rw [Indexing.setWorker_workers, Function.update_apply] at hb
    split at hb
    · cases hb
    · rcases IndexQueue.row_of_claimed hr' with ⟨-, hr⟩ | ⟨hid, r, hr, -⟩
      · exact h.failing j b hb r' hr
      · exact absurd hid (hheld (WorkerState.mem_jobs_of_failingJob hb) hr)
  · rcases hworker j a ha with ⟨hj, hnew⟩ | ⟨-, hold⟩
    · rcases hworker k b hb with ⟨hk, -⟩ | ⟨-, hold⟩
      · exact hj.trans hk.symm
      · obtain ⟨hmem, r, hr, -⟩ := row_of_claimedJobs hnew
        exact absurd (hid ▸ hmem) (hheld hold (hid ▸ hr))
    · rcases hworker k b hb with ⟨-, hnew⟩ | ⟨-, hold'⟩
      · obtain ⟨hmem, r, hr, -⟩ := row_of_claimedJobs hnew
        exact absurd (hid ▸ hmem) (hheld hold (hid ▸ hr))
      · exact h.apart j k a hold b hold' hid

theorem Budgeted.completed {s : Indexing β R ρ ι} {g : Tally} (h : Budgeted cfg s g) (hs : s.Sound)
    {i : ι} {fault : Fault} (hok : s.Unrepeated T cfg (.complete i fault)) {job : Job} {result : R}
    {readAt : Time} {tries : Nat} {rest : List Job} {db : IndexDb ρ} {prov : FileID → Option Time}
    {w : WorkerState R} (hw : s.workers i = .completing job result readAt tries rest)
    (hfault : fault ≠ .before) (hdb : T.complete s.db s.now job.fileID result = .ok db)
    (hres : (s.workers i).Resumes w)
    (hnext : (fault = .after ∧ tries + 1 < statusWriteTries) ∨ w = .batch rest) :
    Budgeted cfg ({ s with db, provenance := prov }.setWorker i w) g := by
  have hqueue : db.queue = s.db.queue.completeIndexQueue s.now s.db.files job.fileID :=
    (IndexType.complete_ok hdb).2.1
  cases hr : s.db.queue job.fileID with
  | none =>
    refine (h.resumed hres).of_queue rfl fun id r hr' => ?_
    rw [Indexing.setWorker_db, hqueue] at hr'
    rcases IndexQueue.row_of_completed hs.file hr' with ⟨-, hr'⟩ | ⟨hid, r', -, hr', -⟩
    · exact hr'
    · cases hr.symm.trans (hid ▸ hr')
  | some r =>
    have hwrite : s.statusWrite T cfg (.complete i fault) = some ⟨i, job, .done⟩ :=
      statusWrite_complete hw hfault hdb hr
    obtain rfl := batch_of_unrepeated hok hwrite rfl (by rw [hw]; rfl) hnext
    have hjobs : (s.workers i).jobs = job :: rest := by rw [hw]; rfl
    refine h.wrote hs hjobs rfl (fun id hid => ?_) fun r' hr' => ?_
    · exact (congrFun hqueue id).trans (IndexQueue.completeIndexQueue_of_ne hid)
    · rw [Option.mem_def, Indexing.setWorker_db, hqueue] at hr'
      rcases IndexQueue.row_of_completed hs.file hr' with ⟨hne, -⟩ | ⟨-, r₀, f, hr₀, -, rfl⟩
      · exact absurd rfl hne
      · exact .of_done (h.rows job.fileID r₀ hr₀).attempts rfl

theorem Budgeted.failed {s : Indexing β R ρ ι} {g : Tally} (h : Budgeted cfg s g) (hs : s.Sound)
    {i : ι} {fault : Fault} (hok : s.Unrepeated T cfg (.fail i fault)) {job : Job} {cause : Text}
    {nextAttempt : Time} {tries : Nat} {rest : List Job} {w : WorkerState R}
    (hw : s.workers i = .failing job cause nextAttempt tries rest) (hfault : fault ≠ .before)
    (hres : (s.workers i).Resumes w)
    (hnext : (fault = .after ∧ tries + 1 < statusWriteTries) ∨ w = .batch rest) :
    Budgeted cfg ({ s with db := { s.db with queue := (s.db.queue.failIndexQueue s.now job.fileID
      (cfg.maxAttempts ≤ job.attempts) nextAttempt cause) } }.setWorker i w) g := by
  cases hr : s.db.queue job.fileID with
  | none =>
    refine (h.resumed hres).of_queue rfl fun id r hr' => ?_
    rcases IndexQueue.row_of_failed hr' with ⟨-, hr'⟩ | ⟨hid, r', hr', -⟩
    · exact hr'
    · cases hr.symm.trans (hid ▸ hr')
  | some r =>
    have hwrite : s.statusWrite T cfg (.fail i fault) =
        some ⟨i, job, if cfg.maxAttempts ≤ job.attempts then .error else .pending⟩ :=
      statusWrite_fail hw hfault hr
    obtain rfl := batch_of_unrepeated hok hwrite rfl (by rw [hw]; rfl) hnext
    have hjobs : (s.workers i).jobs = job :: rest := by rw [hw]; rfl
    have hrow := h.rows job.fileID r hr
    have hattempts : r.attempts = job.attempts := (h.held i job (hjobs ▸ List.mem_cons_self) r hr).2
    have hfailures : r.attempts ≤ g.failures job.fileID := h.failing i job (by rw [hw]; rfl) r hr
    refine h.wrote hs hjobs rfl (fun id hid => ?_) fun r' hr' => ?_
    · exact IndexQueue.failIndexQueue_of_ne hid
    · rcases IndexQueue.row_of_failed hr' with ⟨hne, -⟩ | ⟨-, r₀, hr₀, rfl⟩
      · exact absurd rfl hne
      · obtain rfl : r₀ = r := Option.some.inj (hr₀.symm.trans hr)
        refine ⟨hrow.attempts, fun hs => ⟨?_, hfailures⟩, fun hs => ?_, fun hs => ?_⟩
        · by_contra hle
          have hexhausted : cfg.maxAttempts ≤ job.attempts := hattempts ▸ not_lt.mp hle
          simp [IndexQueue.failedRow, hexhausted] at hs
        · unfold IndexQueue.failedRow at hs
          dsimp only at hs
          split at hs <;> cases hs
        · have hexhausted : cfg.maxAttempts ≤ job.attempts := by
            by_contra hle
            simp [IndexQueue.failedRow, hle] at hs
          exact (hattempts ▸ hexhausted).trans hfailures

omit [DecidableEq ι] in
theorem Tally.record_of_fault {s : Pool β R ρ ι} {a : IndexingAction β R ι} {g : Tally}
    (h : a.fault.isSome = true) : g.record s (.indexing a) = g := by
  cases a with
  | complete => rfl
  | fail => rfl
  | _ => cases h

theorem budgeted_preserved (hmax : 1 ≤ cfg.maxAttempts) {s t : Pool β R ρ ι} {g : Tally}
    {a : PoolAction β R ι} (hs : s.indexing.Sound) (h : Budgeted cfg s.indexing g)
    (hok : FailsEachClaim T cfg (s, g) a) (ht : PoolStep T cfg s.indexing a t.indexing) :
    Budgeted cfg t.indexing (g.record s a) := by
  obtain ⟨s, ds⟩ := s
  obtain ⟨t, dt⟩ := t
  simp only at hs h ht ⊢
  cases ht with
  | seeded =>
    refine h.restart hmax rfl (fun id r hr => ?_) fun i job hjob hrow => ?_
    · rcases IndexQueue.row_of_seeded hr with hr | ⟨hnone, hf, rfl⟩
      · exact Or.inl ⟨by simp [hr], hr⟩
      · exact Or.inr ⟨by simp [hnone, hf], rfl, rfl⟩
    · rcases hs.held i job hjob with hrow | ⟨hgone, -⟩
      · simp [Option.isNone_eq_false_iff.mpr (Option.isSome_iff_ne_none.mpr hrow)]
      · simp [Files.getFile_eq_none_iff.mpr hgone]
  | requeued =>
    refine h.restart hmax rfl (fun id r' hr' => ?_) fun i job hjob hrow => ?_
    · obtain ⟨r, hr, ⟨hstale, rfl⟩ | ⟨hfresh, rfl⟩⟩ := IndexQueue.row_of_requeued hr'
      · exact Or.inr ⟨by simp [hr, hstale], rfl, rfl⟩
      · exact Or.inl ⟨by simp [hr, hfresh], hr⟩
    · cases hr : s.db.queue job.fileID with
      | none => rfl
      | some r =>
        have hclaimed := (h.held i job hjob r hr).1
        cases s.db.files.getFile job.fileID <;> simp [IndexQueue.isStale, hclaimed]
  | claimed _ _ hids =>
    refine h.claimed fun id hid => ?_
    obtain ⟨r, hr, -⟩ := (Option.any_eq_true _ _).mp (hids id hid)
    exact ⟨r, hr, hok.1 id hid r hr⟩
  | processed hw => exact h.setQuiet (by rw [hw]; exact List.Sublist.refl _) rfl
  | @errored i cause job rest hw =>
    have hrecord : g.record ⟨s, ds⟩ (.indexing (.process i (.error cause))) = g.failed job.fileID := by
      simp [Tally.record, hw]
    exact hrecord ▸ h.errored hw cause _
  | unwritten hfault _ hw => exact (Tally.record_of_fault hfault).symm ▸ h.resumed hw
  | completed hw hfault hdb hres hnext => exact h.completed hs hok.2 hw hfault hdb hres hnext
  | failed hw hfault hres hnext => exact h.failed hs hok.2 hw hfault hres hnext
  | stopped => exact h.setQuiet (List.nil_sublist _) rfl
  | upserted => exact h.of_queue rfl fun _ _ hr => hr
  | replaced => exact h.of_queue rfl fun _ _ hr => hr
  | ticked => exact h.of_queue rfl fun _ _ hr => hr
  | stored => exact h.of_queue rfl fun _ _ hr => (IndexDb.cascade_queue.mp hr).1
  | rebucketed => exact h.of_queue rfl fun _ _ hr => hr

theorem within_budget_of_failed_claims (hmax : 1 ≤ cfg.maxAttempts) (s : Pool β R ρ ι)
    (hs : s.indexing.Initial) (as : List (PoolAction β R ι))
    (hok : Transition.EveryStep (Transition.recorded (Pool.step T cfg) Tally.record)
      (FailsEachClaim T cfg) (s, Tally.zero) as) :
    Transition.EveryState (Transition.recorded (Pool.step T cfg) Tally.record) (WithinBudget cfg)
      (s, Tally.zero) as := by
  have hpres : Transition.Preserves (Transition.recorded (Pool.step T cfg) Tally.record)
      (FailsEachClaim T cfg)
      fun p : Pool β R ρ ι × Tally => p.1.indexing.Sound ∧ Budgeted cfg p.1.indexing p.2 := by
    refine Pool.sound_preserved.recorded.and fun p a q hsound h hok ht => ?_
    obtain ⟨ht, hg⟩ := Transition.recorded_eq_some_iff.mp ht
    exact hg ▸ budgeted_preserved hmax hsound h hok (poolStep_of_step ht)
  have hidle (i : ι) (job : Job) : job ∉ (s.indexing.workers i).jobs := by
    rw [hs.workers i]
    exact List.not_mem_nil
  have hnone (id : FileID) (r : QueueRow) : r ∉ s.indexing.db.queue id := by
    simp [hs.queue id]
  have hinit : Budgeted cfg s.indexing Tally.zero :=
    { handed := fun _ => zero_le_one.trans hmax
      rows := fun id r hr => absurd hr (hnone id r)
      held := fun i job hjob => absurd hjob (hidle i job)
      failing := fun i job _ r hr => absurd hr (hnone job.fileID r)
      apart := fun i _ a ha => absurd ha (hidle i a) }
  refine (Transition.everyState_of_preserves hpres as ⟨hs.sound, hinit⟩ hok).mono fun p hp id => ?_
  exact ⟨hp.2.handed id, fun r hr => (hp.2.rows id r hr).error⟩

end Invariant

section Runs

instance failsEachClaimDecidable (p : StatPool × Tally) :
    (a : PoolAction String StatResult Bool) → Decidable (FailsEachClaim statIndex statConfig p a)
  | .indexing a =>
    have : Decidable (ClaimsPending p.1.indexing a) := by
      cases a <;> unfold ClaimsPending <;> infer_instance
    have : Decidable (p.1.indexing.Unrepeated statIndex statConfig a) := by
      unfold Indexing.Unrepeated; infer_instance
    inferInstanceAs (Decidable (_ ∧ _))
  | .store _ | .replaceBucket _ => isTrue trivial

def crashes : List (PoolAction String StatResult Bool) :=
  [.indexing (.claim true [1]), .indexing (.stop true), .indexing (.tick 60)]

theorem crashed_claims_exceed_budget :
    ¬Transition.EveryState (Transition.recorded (Pool.step statIndex statConfig) Tally.record)
      (WithinBudget statConfig) (twoWorkers, Tally.zero)
      (.indexing .seedIndexQueue :: crashes ++ crashes ++ crashes ++
        [.indexing (.claim true [1]), .indexing (.process true (.error (ascii "corrupt"))),
          .indexing (.fail true .none)]) := by
  intro h
  have hlast := (h.last rfl 1).1
  exact absurd hlast (by decide)

theorem within_budget_retry :
    Transition.EveryState (Transition.recorded (Pool.step statIndex statConfig) Tally.record)
      (WithinBudget statConfig) (twoWorkers, Tally.zero)
      [.indexing .seedIndexQueue, .indexing (.claim true [1]),
        .indexing (.process true (.error (ascii "timeout"))), .indexing (.fail true .before),
        .indexing (.fail true .none), .indexing (.tick 5), .indexing (.claim false [1]),
        .indexing (.process false (.ok draftStat)), .indexing (.complete false .none)] :=
  within_budget_of_failed_claims (T := statIndex) (by decide) twoWorkers
    ⟨fun _ => rfl, fun _ => rfl⟩ _ (by decide)

end Runs

end FileIndexer
