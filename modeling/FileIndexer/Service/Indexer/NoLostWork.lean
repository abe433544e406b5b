import FileIndexer.Service.Indexer.Pool

namespace FileIndexer

theorem backoff_le (cfg : IndexerConfig) (attempts : Int) : backoff cfg attempts ≤ cfg.backoffMax := by
  unfold backoff
  generalize (attempts - 1).toNat = n, cfg.backoffBase = d
  induction n generalizing d with
  | zero => exact min_le_right _ _
  | succ n ih =>
    unfold backoffLoop
    split
    · exact le_refl _
    · exact ih _

section Invariant

variable {β R ρ ι : Type} {T : IndexType R ρ} {cfg : IndexerConfig}

structure QueueRow.Live (cfg : IndexerConfig) (now : Time) (f : File) (r : QueueRow) : Prop where
  mark : ∀ m ∈ r.mark, m ≤ f.markedAt
  pending : r.status = .pending → r.nextAttemptAt ≤ max now (now + cfg.backoffMax)
  claimed : r.status = .claimed → r.claimedAt.any (· ≤ now) = true
  done : r.status = .done → r.mark ≠ none

theorem QueueRow.Live.mono {now now' : Time} {f g : File} {r : QueueRow} (h : r.Live cfg now f)
    (hnow : now ≤ now') (hmark : f.markedAt ≤ g.markedAt) : r.Live cfg now' g where
  mark m hm := (h.mark m hm).trans hmark
  pending hr := by
    have hbound : max now (now + cfg.backoffMax) ≤ max now' (now' + cfg.backoffMax) := by gcongr
    exact (h.pending hr).trans hbound
  claimed hr := by
    obtain ⟨c, hc, hle⟩ := (Option.any_eq_true _ _).mp (h.claimed hr)
    have hle' : c ≤ now' := (of_decide_eq_true hle).trans hnow
    exact (Option.any_eq_true _ _).mpr ⟨c, hc, decide_eq_true hle'⟩
  done := h.done

theorem live_seeded (now : Time) (f : File) :
    QueueRow.Live cfg now f ⟨.pending, 0, now, none, none, now, none⟩ where
  mark := nofun
  pending _ := le_max_left _ _
  claimed := nofun
  done := nofun

theorem live_requeued (now : Time) (f : File) (r : QueueRow) :
    (IndexQueue.requeued now r).Live cfg now f where
  mark := nofun
  pending _ := le_max_left _ _
  claimed := nofun
  done := nofun

theorem QueueRow.Live.claimedRow {now : Time} {f : File} {r : QueueRow} (h : r.Live cfg now f) :
    (IndexQueue.claimedRow now r).Live cfg now f where
  mark := h.mark
  pending := nofun
  claimed _ := by simp [IndexQueue.claimedRow]
  done := nofun

theorem live_completedRow (now : Time) (f : File) (r : QueueRow) :
    (IndexQueue.completedRow now f.markedAt r).Live cfg now f where
  mark _ hm := le_of_eq (Option.some.inj hm).symm
  pending := nofun
  claimed := nofun
  done _ := nofun

theorem QueueRow.Live.failedRow {now nextAttempt : Time} {f : File} {r : QueueRow}
    {exhausted : Bool} {cause : Text} (h : r.Live cfg now f)
    (hnext : nextAttempt ≤ now + cfg.backoffMax) :
    (IndexQueue.failedRow now exhausted nextAttempt cause r).Live cfg now f where
  mark := h.mark
  pending _ := hnext.trans (le_max_right _ _)
  claimed hs := by cases exhausted <;> cases hs
  done hs := by cases exhausted <;> cases hs

def WorkerState.nextAttempt : WorkerState R → Option Time
  | .failing _ _ nextAttempt _ _ => some nextAttempt
  | _ => none

theorem WorkerState.Resumes.nextAttempt {v w : WorkerState R} (h : v.Resumes w) {n : Time}
    (hn : w.nextAttempt = some n) : v.nextAttempt = some n := by
  cases h with
  | fail => exact hn
  | _ => cases hn

structure Indexing.Live (cfg : IndexerConfig) (s : Indexing β R ρ ι) : Prop where
  rows : ∀ f ∈ s.db.files.rows, ∀ r ∈ s.db.queue f.id, r.Live cfg s.now f
  workers : ∀ i, ∀ n ∈ (s.workers i).nextAttempt, n ≤ s.now + cfg.backoffMax

theorem Indexing.Live.of_rows {s t : Indexing β R ρ ι} (h : s.Live cfg)
    (hfiles : t.db.files = s.db.files) (hnow : t.now = s.now) (hworkers : t.workers = s.workers)
    (hrows : ∀ f ∈ s.db.files.rows, ∀ r ∈ t.db.queue f.id, r.Live cfg s.now f) : t.Live cfg where
  rows f hf r hr := hnow ▸ hrows f (hfiles ▸ hf) r hr
  workers i n hn := hnow ▸ h.workers i n (hworkers ▸ hn)

theorem Indexing.Live.refiled {s : Indexing β R ρ ι} (h : s.Live cfg) (hs : s.Sound)
    {db : IndexDb ρ} (hfiles : db.files.Follows s.db.files)
    (hq : ∀ id r, db.queue id = some r → s.db.queue id = some r) : Live cfg { s with db } where
  rows g hg r hr := by
    have hrow := hq g.id r hr
    obtain ⟨f, hf, hid, hmark⟩ := hs.origin hfiles hg hrow
    exact (h.rows f hf r (hid ▸ hrow)).mono (le_refl _) hmark
  workers := h.workers

theorem Indexing.Live.setWorker [DecidableEq ι] {s : Indexing β R ρ ι} (h : s.Live cfg) (i : ι)
    {w : WorkerState R} (hw : ∀ n ∈ w.nextAttempt, n ≤ s.now + cfg.backoffMax) :
    (s.setWorker i w).Live cfg where
  rows := h.rows
  workers j n hn := by
    rw [setWorker_workers, Function.update_apply] at hn
    split at hn
    · exact hw n hn
    · exact h.workers j n hn

theorem Indexing.Live.seeded {s : Indexing β R ρ ι} (h : s.Live cfg) :
    Live cfg { s with db := { s.db with queue := s.db.queue.seedIndexQueue s.now s.db.files } } := by
  refine h.of_rows rfl rfl rfl fun f hf r hr => ?_
  rcases IndexQueue.row_of_seeded hr with hr | ⟨-, -, rfl⟩
  · exact h.rows f hf r hr
  · exact live_seeded s.now f

theorem Indexing.Live.requeued {s : Indexing β R ρ ι} (h : s.Live cfg) :
    Live cfg { s with db := { s.db with
      queue := s.db.queue.requeueStaleIndexQueue s.now s.db.files } } := by
  refine h.of_rows rfl rfl rfl fun f hf r' hr' => ?_
  obtain ⟨r, hr, ⟨-, rfl⟩ | ⟨-, rfl⟩⟩ := IndexQueue.row_of_requeued hr'
  · exact live_requeued s.now f r
  · exact h.rows f hf r' hr

theorem Indexing.Live.claimed {s : Indexing β R ρ ι} (h : s.Live cfg) (ids : List FileID) :
    Live cfg { s with db := { s.db with queue := s.db.queue.claimIndexQueue s.now ids } } := by
  refine h.of_rows rfl rfl rfl fun f hf r' hr' => ?_
  rcases IndexQueue.row_of_claimed hr' with ⟨-, hr⟩ | ⟨-, r, hr, rfl⟩
  · exact h.rows f hf r' hr
  · exact (h.rows f hf r hr).claimedRow

theorem Indexing.Live.completed {s : Indexing β R ρ ι} (h : s.Live cfg) (hs : s.Sound)
    {fileID : FileID} {result : R} {db : IndexDb ρ} {prov : FileID → Option Time}
    (hdb : T.complete s.db s.now fileID result = .ok db) :
    Live cfg { s with db, provenance := prov } := by
  obtain ⟨hfiles, hqueue, -⟩ := IndexType.complete_ok hdb
  refine h.of_rows hfiles rfl rfl fun f hf r' hr' => ?_
  rw [Option.mem_def, hqueue] at hr'
  rcases IndexQueue.row_of_completed hs.file hr' with ⟨-, hr⟩ | ⟨-, r, g, -, hg, rfl⟩
  · exact h.rows f hf r' hr
  · obtain ⟨hmem, hid⟩ := Files.getFile_eq_some_iff.mp hg
    obtain rfl : g = f := Files.eq_of_id hmem hf hid
    exact live_completedRow s.now g r

theorem Indexing.Live.failed {s : Indexing β R ρ ι} (h : s.Live cfg) {fileID : FileID}
    {exhausted : Bool} {nextAttempt : Time} {cause : Text}
    (hnext : nextAttempt ≤ s.now + cfg.backoffMax) :
    Live cfg { s with db := { s.db with
      queue := (s.db.queue.failIndexQueue s.now fileID exhausted nextAttempt cause) } } := by
  refine h.of_rows rfl rfl rfl fun f hf r' hr' => ?_
  rcases IndexQueue.row_of_failed hr' with ⟨-, hr⟩ | ⟨-, r, hr, rfl⟩
  · exact h.rows f hf r' hr
  · exact (h.rows f hf r hr).failedRow hnext

variable [DecidableEq ι]

theorem Indexing.live_preserved {s t : Indexing β R ρ ι} {a : PoolAction β R ι} (hs : s.Sound)
    (h : s.Live cfg) (ht : PoolStep T cfg s a t) : t.Live cfg := by
  have hresume {i : ι} {w : WorkerState R} (hw : (s.workers i).Resumes w) (n : Time)
      (hn : n ∈ w.nextAttempt) : n ≤ s.now + cfg.backoffMax := h.workers i n (hw.nextAttempt hn)
  cases ht with
  | seeded => exact h.seeded
  | requeued => exact h.requeued
  | @claimed i ids => exact (h.claimed ids).setWorker i nofun
  | processed => exact h.setWorker _ nofun
  | @errored i cause job rest hw =>
    refine h.setWorker i fun n hn => ?_
    obtain rfl := Option.some.inj hn
    have hle : backoff cfg job.attempts ≤ cfg.backoffMax := backoff_le cfg job.attempts
    gcongr
  | unwritten _ _ hw => exact h.setWorker _ (hresume hw)
  | completed _ _ hdb hw => exact (h.completed hs hdb).setWorker _ (hresume hw)
  | @failed i _ _ _ nextAttempt _ _ _ hw _ hres =>
    have hnext : nextAttempt ≤ s.now + cfg.backoffMax := h.workers i nextAttempt (by rw [hw]; rfl)
    exact (h.failed hnext).setWorker _ (hresume hres)
  | stopped => exact h.setWorker _ nofun
  | upserted => exact h.refiled hs (Files.follows_upsertFiles ..) fun id r hr => hr
  | replaced => exact ⟨h.rows, h.workers⟩
  | @ticked d =>
    have hnow : s.now ≤ s.now + (d : Int) := le_add_of_nonneg_right (Int.natCast_nonneg d)
    refine ⟨fun f hf r hr => (h.rows f hf r hr).mono hnow (le_refl _), fun i n hn => ?_⟩
    exact (h.workers i n hn).trans (add_le_add_left hnow cfg.backoffMax)
  | stored hfiles => exact h.refiled hs hfiles fun id r hr => (IndexDb.cascade_queue.mp hr).1
  | rebucketed => exact ⟨h.rows, h.workers⟩

omit [DecidableEq ι] in
theorem covered_after_seed (s : Indexing β R ρ ι) {f : File} (hf : f ∈ s.db.files.rows) :
    Indexing.Covered f.id { s with db := { s.db with
      queue := s.db.queue.seedIndexQueue s.now s.db.files } } := by
  refine Or.inl fun hnone => ?_
  simp only [IndexQueue.seedIndexQueue, Files.getFile_eq_some_iff.mpr ⟨hf, rfl⟩] at hnone
  split at hnone
  · cases hnone
  · cases hnone

def QueueRow.Settled (cfg : IndexerConfig) (now : Time) (f : File) (r : QueueRow) : Prop :=
  r.status = .error ∨ (r.status = .done ∧ r.mark = some f.markedAt) ∨
    ∀ t, now ≤ t → now + max cfg.claimTTL cfg.backoffMax ≤ t →
      IndexQueue.claimable t cfg.claimTTL r = true

theorem settled_of_live {now : Time} {f : File} {r : QueueRow} (h : r.Live cfg now f)
    (hfresh : IndexQueue.isStale r f = false) : r.Settled cfg now f := by
  cases hstatus : r.status with
  | error => exact Or.inl hstatus
  | done =>
    obtain ⟨m, hm⟩ := Option.ne_none_iff_exists'.mp (h.done hstatus)
    have hge : f.markedAt ≤ m := by simpa [IndexQueue.isStale, hstatus, hm] using hfresh
    exact Or.inr (Or.inl ⟨hstatus, hm.trans (congrArg some (le_antisymm (h.mark m hm) hge))⟩)
  | pending =>
    refine Or.inr (Or.inr fun t hnow ht => ?_)
    have hback : now + cfg.backoffMax ≤ t :=
      (add_le_add_right (le_max_right cfg.claimTTL cfg.backoffMax) now).trans ht
    have hnext : r.nextAttemptAt ≤ t := (h.pending hstatus).trans (max_le hnow hback)
    simp [IndexQueue.claimable, hstatus, hnext]
  | claimed =>
    refine Or.inr (Or.inr fun t _ ht => ?_)
    obtain ⟨c, hc, hle⟩ := (Option.any_eq_true _ _).mp (h.claimed hstatus)
    have hexpired : cfg.claimTTL ≤ t - c := by
      have httl : now + cfg.claimTTL ≤ t :=
        (add_le_add_right (le_max_left cfg.claimTTL cfg.backoffMax) now).trans ht
      have hstart : c ≤ now := of_decide_eq_true hle
      linarith
    simp [IndexQueue.claimable, hstatus, hc, hexpired]

omit [DecidableEq ι] in
theorem initial_live {s : Indexing β R ρ ι} (hs : s.Initial) : s.Sound ∧ s.Live cfg := by
  refine ⟨hs.sound, ⟨fun f _ r hr => ?_, fun i n hn => ?_⟩⟩
  · rw [hs.queue f.id] at hr
    cases hr
  · rw [hs.workers i] at hn
    cases hn

theorem no_lost_work (s : Pool β R ρ ι) (hs : s.indexing.Initial)
    (before between : List (PoolAction β R ι)) (u t : Pool β R ρ ι)
    (hu : Transition.exec (Pool.step T cfg) s before = some u)
    (ht : Transition.exec (Pool.step T cfg) u
      (.indexing .seedIndexQueue :: between ++ [.indexing .requeueStaleIndexQueue]) = some t) :
    ∀ f ∈ t.indexing.db.files.rows,
      (between = [] ∨ ∃ g ∈ u.indexing.db.files.rows, g.id = f.id) →
        ∃ r, t.indexing.db.queue f.id = some r ∧ r.Settled cfg t.indexing.now f := by
  have hlive : Transition.Preserves (Pool.step T cfg) (fun _ _ => True)
      fun s : Pool β R ρ ι => s.indexing.Sound ∧ s.indexing.Live cfg :=
    Pool.sound_preserved.and fun _ _ _ hs h _ ht => Indexing.live_preserved hs h (poolStep_of_step ht)
  have hcovered (id : FileID) : Transition.Preserves (Pool.step T cfg) (fun _ _ => True)
      fun s : Pool β R ρ ι => s.indexing.Sound ∧ s.indexing.Covered id :=
    Pool.sound_preserved.and fun _ _ _ hs h _ ht =>
      Indexing.covered_preserved hs h (poolStep_of_step ht)
  rw [Transition.exec_append] at ht
  obtain ⟨w, hseed, ht⟩ := Option.bind_eq_some_iff.mp ht
  obtain ⟨hsound, hu⟩ := hlive.exec (initial_live hs) hu
  obtain ⟨hwsound, hw⟩ := hlive.exec ⟨hsound, hu⟩ hseed
  obtain ⟨v, hv, hw'⟩ := Option.bind_eq_some_iff.mp hseed
  obtain rfl := Option.some.inj hv
  have ht : { w with indexing := { w.indexing with db := { w.indexing.db with
      queue := w.indexing.db.queue.requeueStaleIndexQueue w.indexing.now w.indexing.db.files } } } = t :=
    Option.some.inj ((Option.bind_some _ _).symm.trans ht)
  subst ht
  intro f hf hseen
  obtain ⟨g, hg, hid⟩ : ∃ g ∈ u.indexing.db.files.rows, g.id = f.id := by
    refine hseen.elim (fun hnil => ?_) fun h => h
    subst hnil
    obtain rfl := Option.some.inj hw'
    exact ⟨f, hf, rfl⟩
  have hcover : w.indexing.Covered f.id := by
    have hseeded : PoolStep T cfg u.indexing (.indexing .seedIndexQueue) _ := .seeded
    have hcover := hid ▸ covered_after_seed u.indexing hg
    exact ((hcovered f.id).exec ⟨Indexing.sound_preserved hsound hseeded, hcover⟩ hw').2
  have hrow : w.indexing.db.queue f.id ≠ none := hcover.resolve_right fun h => h.1 f hf rfl
  obtain ⟨r, hr⟩ := Option.ne_none_iff_exists'.mp hrow
  have hget := Files.getFile_eq_some_iff.mpr ⟨hf, rfl⟩
  have hlive := hw.rows f hf r hr
  refine ⟨_, congrArg (Option.map _) hr, ?_⟩
  cases hstale : IndexQueue.isStale r f with
  | true =>
    simp only [hget, Option.any_some, hstale, if_true]
    exact settled_of_live (live_requeued w.indexing.now f r)
      (by simp [IndexQueue.isStale, IndexQueue.requeued])
  | false =>
    simp only [hget, Option.any_some, hstale]
    exact settled_of_live hlive hstale

end Invariant

section Runs

theorem no_lost_work_after_failure : ∃ t r,
    Transition.exec (Pool.step statIndex statConfig) twoWorkers
      [.indexing .seedIndexQueue, .indexing (.claim true [1]),
        .indexing (.process true (.error (ascii "timeout"))), .indexing (.fail true .after),
        .indexing .seedIndexQueue, .store ⟨.upsertFiles 1 [(ascii "new", 1)], true⟩,
        .indexing .requeueStaleIndexQueue] = some t ∧
      t.indexing.db.queue 1 = some r ∧
      r.Settled statConfig t.indexing.now ⟨1, ascii "note", 1, 1, 1⟩ := by
  obtain ⟨r, hr, hsettled⟩ := @no_lost_work _ _ _ _ statIndex statConfig _ twoWorkers
    ⟨fun _ => rfl, fun _ => rfl⟩
    [.indexing .seedIndexQueue, .indexing (.claim true [1]),
      .indexing (.process true (.error (ascii "timeout"))), .indexing (.fail true .after)]
    [.store ⟨.upsertFiles 1 [(ascii "new", 1)], true⟩] _ _ rfl rfl ⟨1, ascii "note", 1, 1, 1⟩
    (by decide) (Or.inr ⟨⟨1, ascii "note", 1, 1, 1⟩, by decide, rfl⟩)
  exact ⟨_, r, rfl, hr, hsettled⟩

end Runs

end FileIndexer
