import FileIndexer.Service.Indexer.Pool

namespace FileIndexer

section Property

variable {β R ρ ι : Type} [DecidableEq ι] (T : IndexType R ρ) (cfg : IndexerConfig)

structure Claim (ι : Type) where
  worker : ι
  claimedAt : Time
  outcomes : List Time

def Claim.live (now : Time) (c : Claim ι) : Bool :=
  c.outcomes.isEmpty && now < c.claimedAt + cfg.claimTTL

def answer (i : ι) (now : Time) : List (Claim ι) → List (Claim ι)
  | [] => []
  | c :: cs =>
    if c.worker = i then { c with outcomes := now :: c.outcomes } :: cs else c :: answer i now cs

-- the claims made on each file, newest first; a worker answers its newest one
abbrev Claims (ι : Type) := FileID → List (Claim ι)

def Claims.record (s : Pool β R ρ ι) (a : PoolAction β R ι) (g : Claims ι) : Claims ι :=
  match a with
  | .indexing (.claim i ids) =>
    fun id => if id ∈ ids then ⟨i, s.indexing.now, []⟩ :: g id else g id
  | .indexing a =>
    match s.indexing.statusWrite T cfg a with
    | some w => Function.update g w.job.fileID (answer w.worker s.indexing.now (g w.job.fileID))
    | none => g
  | _ => g

def OnTime (s : Pool β R ρ ι × Claims ι) : PoolAction β R ι → Prop
  | .indexing a => ∀ w ∈ s.1.indexing.statusWrite T cfg a,
      ∀ c ∈ (s.2 w.job.fileID).find? fun c => c.worker = w.worker,
        s.1.indexing.now < c.claimedAt + cfg.claimTTL
  | _ => True

def WrittenOnce (s : Pool β R ρ ι × Claims ι) : PoolAction β R ι → Prop
  | .indexing a => s.1.indexing.Unrepeated T cfg a
  | _ => True

def Exclusive (s : Pool β R ρ ι × Claims ι) : Prop :=
  ∀ id, ((s.2 id).filter (Claim.live cfg s.1.indexing.now)).length ≤ 1 ∧
    ∀ c ∈ s.2 id, c.outcomes.length ≤ 1

def ReclaimsAnswered (s : Pool β R ρ ι × Claims ι) : PoolAction β R ι → Prop
  | .indexing (.claim _ ids) => ∀ id ∈ ids, ∀ c ∈ s.2 id,
      s.1.indexing.now < c.claimedAt + cfg.claimTTL → c.outcomes ≠ []
  | _ => True

end Property

section Invariant

variable {β R ρ ι : Type} [DecidableEq ι] {T : IndexType R ρ} {cfg : IndexerConfig}

def Claim.Closed (cfg : IndexerConfig) (now : Time) (c : Claim ι) : Prop :=
  c.outcomes ≠ [] ∨ c.claimedAt + cfg.claimTTL ≤ now

structure ClaimsTracked (cfg : IndexerConfig) (s : Indexing β R ρ ι) (g : Claims ι) : Prop where
  awaited : ∀ i, ∀ job ∈ (s.workers i).jobs,
    ∃ c, (g job.fileID).find? (fun c => c.worker = i) = some c ∧ c.outcomes = []
  once : ∀ id, ∀ c ∈ g id, c.outcomes.length ≤ 1
  covered : ∀ id, g id ≠ [] → s.Covered id
  older : ∀ id, ∀ c ∈ (g id).tail, c.Closed cfg s.now
  newest : ∀ id, ∀ c ∈ (g id).head?, c.Closed cfg s.now ∨ s.db.queue id = none ∨
    ∃ r, s.db.queue id = some r ∧ r.status = .claimed ∧ r.claimedAt = some c.claimedAt

theorem ClaimsTracked.of_rows {s t : Indexing β R ρ ι} {g : Claims ι} (h : ClaimsTracked cfg s g)
    (hcovered : ∀ id, s.Covered id → t.Covered id) (hnow : s.now ≤ t.now)
    (hjobs : ∀ i, (t.workers i).jobs ⊆ (s.workers i).jobs)
    (hrows : ∀ id, g id ≠ [] → t.db.queue id = none ∨ ∃ r, s.db.queue id = some r ∧
      (r.status = .claimed → ∃ r', t.db.queue id = some r' ∧ r'.status = .claimed ∧
        r'.claimedAt = r.claimedAt)) : ClaimsTracked cfg t g := by
  have hclosed {c : Claim ι} (hc : c.Closed cfg s.now) : c.Closed cfg t.now :=
    hc.imp_right fun hexpired => hexpired.trans hnow
  refine ⟨fun i job hjob => h.awaited i job (hjobs i hjob), h.once,
    fun id hid => hcovered id (h.covered id hid), fun id c hc => hclosed (h.older id c hc),
    fun id c hc => ?_⟩
  have hne : g id ≠ [] := by
    rintro hnil
    simp [hnil] at hc
  rcases h.newest id c hc with hdone | hnone | ⟨r, hr, hclaimed, hat⟩
  · exact Or.inl (hclosed hdone)
  · rcases hrows id hne with hgone | ⟨r, hr, -⟩
    · exact Or.inr (Or.inl hgone)
    · cases hnone.symm.trans hr
  · rcases hrows id hne with hgone | ⟨r', hr', hkeep⟩
    · exact Or.inr (Or.inl hgone)
    · obtain rfl : r = r' := Option.some.inj (hr.symm.trans hr')
      obtain ⟨r'', hr'', hs, hc'⟩ := hkeep hclaimed
      exact Or.inr (Or.inr ⟨r'', hr'', hs, hc'.trans hat⟩)

theorem ClaimsTracked.of_queue {s t : Indexing β R ρ ι} {g : Claims ι} (h : ClaimsTracked cfg s g)
    (hcovered : ∀ id, s.Covered id → t.Covered id) (hnow : s.now ≤ t.now)
    (hjobs : ∀ i, (t.workers i).jobs ⊆ (s.workers i).jobs)
    (hqueue : ∀ id, t.db.queue id = none ∨ t.db.queue id = s.db.queue id) : ClaimsTracked cfg t g := by
  refine h.of_rows hcovered hnow hjobs fun id _ => ?_
  rcases hqueue id with hnone | hsame
  · exact Or.inl hnone
  · cases hr : s.db.queue id with
    | none => exact Or.inl (hsame.trans hr)
    | some r => exact Or.inr ⟨r, rfl, fun hs => ⟨r, hsame.trans hr, hs, rfl⟩⟩

theorem ClaimsTracked.closed_of_claimable {s : Indexing β R ρ ι} {g : Claims ι}
    (h : ClaimsTracked cfg s g)
    {id : FileID} {r : QueueRow} (hr : s.db.queue id = some r)
    (hc : IndexQueue.claimable s.now cfg.claimTTL r = true) {c : Claim ι} (hmem : c ∈ g id) :
    c.Closed cfg s.now := by
  cases hg : g id with
  | nil =>
    rw [hg] at hmem
    cases hmem
  | cons d cs =>
    rw [hg] at hmem
    rcases List.mem_cons.mp hmem with rfl | htail
    · rcases h.newest id c (by simp [hg]) with hclosed | hnone | ⟨r', hr', hclaimed, hat⟩
      · exact hclosed
      · cases hnone.symm.trans hr
      · obtain rfl : r' = r := Option.some.inj (hr'.symm.trans hr)
        have hexpired : cfg.claimTTL ≤ s.now - c.claimedAt := by
          simpa [IndexQueue.claimable, hclaimed, hat] using hc
        exact Or.inr (by linarith)
    · exact h.older id c (by simpa [hg] using htail)

theorem ClaimsTracked.claimed {s t : Indexing β R ρ ι} {g : Claims ι} (h : ClaimsTracked cfg s g)
    (hcovered : ∀ id, s.Covered id → t.Covered id) {i : ι} {ids : List FileID}
    (hids : ∀ id ∈ ids, (s.db.queue id).any (IndexQueue.claimable s.now cfg.claimTTL) = true)
    (hnow : t.now = s.now) (hqueue : t.db.queue = s.db.queue.claimIndexQueue s.now ids)
    (hworkers : t.workers = Function.update s.workers i (.batch (claimedJobs s.db ids))) :
    ClaimsTracked cfg t fun id => if id ∈ ids then ⟨i, s.now, []⟩ :: g id else g id := by
  have hrow {id : FileID} (hid : id ∈ ids) :
      ∃ r, s.db.queue id = some r ∧ IndexQueue.claimable s.now cfg.claimTTL r = true :=
    (Option.any_eq_true _ _).mp (hids id hid)
  refine ⟨fun j job hjob => ?_, fun id c hc => ?_, fun id hg => ?_, fun id c hc => ?_,
    fun id c hc => ?_⟩
  · rw [hworkers, Function.update_apply] at hjob
    split at hjob
    · rename_i hij
      obtain ⟨hid, -⟩ := row_of_claimedJobs hjob
      exact ⟨⟨i, s.now, []⟩, by simp [hid, hij], rfl⟩
    · rename_i hij
      obtain ⟨c, hc, hnil⟩ := h.awaited j job hjob
      refine ⟨c, ?_, hnil⟩
      split
      · rw [List.find?_cons_of_neg (by simpa using Ne.symm hij)]
        exact hc
      · exact hc
  · split at hc
    · rcases List.mem_cons.mp hc with rfl | hc
      · exact Nat.zero_le 1
      · exact h.once id c hc
    · exact h.once id c hc
  · split at hg
    · rename_i hid
      obtain ⟨r, hr, -⟩ := hrow hid
      exact hcovered id (Or.inl (by simp [hr]))
    · exact hcovered id (h.covered id hg)
  · rw [hnow]
    split at hc
    · rename_i hid
      obtain ⟨r, hr, hclaimable⟩ := hrow hid
      exact h.closed_of_claimable hr hclaimable hc
    · exact h.older id c hc
  · rw [hnow, hqueue]
    split at hc
    · rename_i hid
      obtain ⟨r, hr, -⟩ := hrow hid
      obtain rfl : _ = c := Option.some.inj hc
      rw [IndexQueue.claimIndexQueue_of_mem hid, hr]
      exact Or.inr (Or.inr ⟨_, rfl, rfl, rfl⟩)
    · rename_i hid
      rw [IndexQueue.claimIndexQueue_of_not_mem hid]
      exact h.newest id c hc

theorem ClaimsTracked.newest_of_awaited {s : Indexing β R ρ ι} {g : Claims ι}
    (h : ClaimsTracked cfg s g)
    {i : ι} {job : Job} (hjob : job ∈ (s.workers i).jobs)
    (honTime : ∀ c ∈ (g job.fileID).find? fun c => c.worker = i, s.now < c.claimedAt + cfg.claimTTL) :
    ∃ c cs, g job.fileID = c :: cs ∧ c.worker = i ∧ c.outcomes = [] := by
  obtain ⟨c, hfind, hnil⟩ := h.awaited i job hjob
  have hworker : c.worker = i := by simpa using List.find?_some hfind
  have hopen : ¬c.Closed cfg s.now := by
    rintro (hanswered | hexpired)
    · exact hanswered hnil
    · exact absurd (honTime c hfind) (not_lt.mpr hexpired)
  cases hg : g job.fileID with
  | nil =>
    rw [hg] at hfind
    cases hfind
  | cons d cs =>
    rcases List.mem_cons.mp (hg ▸ List.mem_of_find?_eq_some hfind) with rfl | htail
    · exact ⟨c, cs, rfl, hworker, hnil⟩
    · exact absurd (h.older job.fileID c (by simpa [hg] using htail)) hopen

theorem ClaimsTracked.answered {s t : Indexing β R ρ ι} {g : Claims ι} {i : ι} {job : Job}
    {rest : List Job} (h : ClaimsTracked cfg s g) (hs : s.Sound)
    (hcovered : ∀ id, s.Covered id → t.Covered id)
    (hjobs : (s.workers i).jobs = job :: rest)
    (honTime : ∀ c ∈ (g job.fileID).find? fun c => c.worker = i, s.now < c.claimedAt + cfg.claimTTL)
    (hnow : t.now = s.now) (hworkers : t.workers = Function.update s.workers i (.batch rest))
    (hqueue : ∀ id, id ≠ job.fileID → t.db.queue id = s.db.queue id) :
    ClaimsTracked cfg t
      (Function.update g job.fileID (answer i s.now (g job.fileID))) := by
  obtain ⟨c, cs, hg, hworker, hnil⟩ := h.newest_of_awaited (hjobs ▸ List.mem_cons_self) honTime
  have hanswer : answer i s.now (g job.fileID) = { c with outcomes := [s.now] } :: cs := by
    rw [hg, answer, if_pos hworker, hnil]
  have hnodup : (job.fileID :: rest.map Job.fileID).Nodup := by simpa [hjobs] using hs.nodup i
  rw [hanswer]
  refine ⟨fun j b hb => ?_, fun id d hd => ?_, fun id hne => hcovered id ?_, fun id d hd => ?_,
    fun id d hd => ?_⟩
  · rw [hworkers, Function.update_apply] at hb
    split at hb
    · have hid : b.fileID ≠ job.fileID := fun hid =>
        (List.nodup_cons.mp hnodup).1 (List.mem_map.mpr ⟨b, hb, hid⟩)
      rw [Function.update_of_ne hid]
      rename_i hij
      subst hij
      exact h.awaited j b (hjobs ▸ List.mem_cons_of_mem job hb)
    · rename_i hij
      obtain ⟨d, hd, hdnil⟩ := h.awaited j b hb
      refine ⟨d, ?_, hdnil⟩
      rcases eq_or_ne b.fileID job.fileID with hid | hid
      · have hne : ¬c.worker = j := fun hc => hij (hc.symm.trans hworker)
        rw [hid, hg, List.find?_cons_of_neg (by simpa using hne)] at hd
        rw [hid, Function.update_self, List.find?_cons_of_neg (by simpa using hne)]
        exact hd
      · rw [Function.update_of_ne hid]
        exact hd
  · rcases eq_or_ne id job.fileID with rfl | hid
    · rw [Function.update_self] at hd
      rcases List.mem_cons.mp hd with rfl | htail
      · exact le_refl _
      · exact h.once job.fileID d (hg ▸ List.mem_cons_of_mem c htail)
    · rw [Function.update_of_ne hid] at hd
      exact h.once id d hd
  · rcases eq_or_ne id job.fileID with rfl | hid
    · exact h.covered job.fileID (by simp [hg])
    · rw [Function.update_of_ne hid] at hne
      exact h.covered id hne
  · rw [hnow]
    rcases eq_or_ne id job.fileID with rfl | hid
    · rw [Function.update_self] at hd
      exact h.older job.fileID d (by simpa [hg] using hd)
    · rw [Function.update_of_ne hid] at hd
      exact h.older id d hd
  · rw [hnow]
    rcases eq_or_ne id job.fileID with rfl | hid
    · rw [Function.update_self] at hd
      obtain rfl : _ = d := Option.some.inj hd
      exact Or.inl (Or.inl (List.cons_ne_nil _ _))
    · rw [Function.update_of_ne hid] at hd
      rw [hqueue id hid]
      exact h.newest id d hd

theorem jobs_of_resumes {s : Indexing β R ρ ι} {i : ι} {w : WorkerState R}
    (hw : (s.workers i).Resumes w) (j : ι) :
    (Function.update s.workers i w j).jobs ⊆ (s.workers j).jobs := by
  rw [Function.update_apply]
  split
  · rename_i hij
    exact hij ▸ hw.sublist.subset
  · exact List.Subset.refl _

theorem Claims.record_of_unwritten {s : Pool β R ρ ι} {a : IndexingAction β R ι} {g : Claims ι}
    (hfault : a.fault.isSome = true) (h : s.indexing.statusWrite T cfg a = none) :
    g.record T cfg s (.indexing a) = g := by
  cases a with
  | complete i fault => simp only [Claims.record, h]
  | fail i fault => simp only [Claims.record, h]
  | _ => cases hfault

theorem ClaimsTracked.completed {s : Indexing β R ρ ι} {ds : Directories} {g : Claims ι}
    (h : ClaimsTracked cfg s g) (hs : s.Sound) {i : ι} {fault : Fault} {job : Job} {result : R}
    {readAt : Time} {tries : Nat} {rest : List Job} {db : IndexDb ρ} {prov : FileID → Option Time}
    {w : WorkerState R} (hontime : OnTime T cfg (⟨s, ds⟩, g) (.indexing (.complete i fault)))
    (hok : s.Unrepeated T cfg (.complete i fault))
    (hcovered : ∀ id, s.Covered id → ({ s with db, provenance := prov }.setWorker i w).Covered id)
    (hw : s.workers i = .completing job result readAt tries rest) (hfault : fault ≠ .before)
    (hdb : T.complete s.db s.now job.fileID result = .ok db) (hres : (s.workers i).Resumes w)
    (hnext : (fault = .after ∧ tries + 1 < statusWriteTries) ∨ w = .batch rest) :
    ClaimsTracked cfg ({ s with db, provenance := prov }.setWorker i w)
      (g.record T cfg ⟨s, ds⟩ (.indexing (.complete i fault))) := by
  have hqueue : db.queue = s.db.queue.completeIndexQueue s.now s.db.files job.fileID :=
    (IndexType.complete_ok hdb).2.1
  have hother (id : FileID) (hid : id ≠ job.fileID) : db.queue id = s.db.queue id :=
    (congrFun hqueue id).trans (IndexQueue.completeIndexQueue_of_ne hid)
  cases hr : s.db.queue job.fileID with
  | none =>
    have hwrite : s.statusWrite T cfg (.complete i fault) = none := by
      simp [Indexing.statusWrite, hw, hr]
    simp only [Claims.record, hwrite]
    refine h.of_queue hcovered (le_refl _) (fun j => jobs_of_resumes hres j) fun id => ?_
    rcases eq_or_ne id job.fileID with rfl | hid
    · exact Or.inl ((congrFun hqueue job.fileID).trans (by simp [IndexQueue.completeIndexQueue, hr]))
    · exact Or.inr (hother id hid)
  | some r =>
    have hwrite : s.statusWrite T cfg (.complete i fault) = some ⟨i, job, .done⟩ :=
      statusWrite_complete hw hfault hdb hr
    obtain rfl := batch_of_unrepeated hok hwrite rfl (by rw [hw]; rfl) hnext
    simp only [Claims.record, hwrite]
    exact h.answered hs hcovered (by rw [hw]; rfl) (hontime _ hwrite) rfl rfl hother

theorem ClaimsTracked.failed {s : Indexing β R ρ ι} {ds : Directories} {g : Claims ι}
    (h : ClaimsTracked cfg s g) (hs : s.Sound) {i : ι} {fault : Fault} {job : Job} {cause : Text}
    {nextAttempt : Time} {tries : Nat} {rest : List Job} {w : WorkerState R} {queue : IndexQueue}
    (hontime : OnTime T cfg (⟨s, ds⟩, g) (.indexing (.fail i fault)))
    (hok : s.Unrepeated T cfg (.fail i fault))
    (hcovered : ∀ id, s.Covered id →
      ({ s with db := { s.db with queue } }.setWorker i w).Covered id)
    (hw : s.workers i = .failing job cause nextAttempt tries rest) (hfault : fault ≠ .before)
    (hqueue : queue = s.db.queue.failIndexQueue s.now job.fileID (cfg.maxAttempts ≤ job.attempts)
      nextAttempt cause) (hres : (s.workers i).Resumes w)
    (hnext : (fault = .after ∧ tries + 1 < statusWriteTries) ∨ w = .batch rest) :
    ClaimsTracked cfg ({ s with db := { s.db with queue } }.setWorker i w)
      (g.record T cfg ⟨s, ds⟩ (.indexing (.fail i fault))) := by
  have hother (id : FileID) (hid : id ≠ job.fileID) : queue id = s.db.queue id :=
    (congrFun hqueue id).trans (IndexQueue.failIndexQueue_of_ne hid)
  cases hr : s.db.queue job.fileID with
  | none =>
    have hwrite : s.statusWrite T cfg (.fail i fault) = none := by
      simp [Indexing.statusWrite, hw, hr]
    simp only [Claims.record, hwrite]
    refine h.of_queue hcovered (le_refl _) (fun j => jobs_of_resumes hres j) fun id => ?_
    rcases eq_or_ne id job.fileID with rfl | hid
    · exact Or.inl ((congrFun hqueue job.fileID).trans (by simp [IndexQueue.failIndexQueue, hr]))
    · exact Or.inr (hother id hid)
  | some r =>
    have hwrite : s.statusWrite T cfg (.fail i fault) =
        some ⟨i, job, if cfg.maxAttempts ≤ job.attempts then .error else .pending⟩ :=
      statusWrite_fail hw hfault hr
    obtain rfl := batch_of_unrepeated hok hwrite rfl (by rw [hw]; rfl) hnext
    simp only [Claims.record, hwrite]
    exact h.answered hs hcovered (by rw [hw]; rfl) (hontime _ hwrite) rfl rfl hother

theorem claimsTracked_preserved {s t : Pool β R ρ ι} {g : Claims ι} {a : PoolAction β R ι}
    (hs : s.indexing.Sound) (h : ClaimsTracked cfg s.indexing g) (hontime : OnTime T cfg (s, g) a)
    (hok : WrittenOnce T cfg (s, g) a) (ht : PoolStep T cfg s.indexing a t.indexing) :
    ClaimsTracked cfg t.indexing (g.record T cfg s a) := by
  obtain ⟨s, ds⟩ := s
  obtain ⟨t, dt⟩ := t
  simp only at hs h ht ⊢
  have hcovered (id : FileID) (hid : s.Covered id) : t.Covered id :=
    Indexing.covered_preserved hs hid ht
  have hstep := ht
  cases ht with
  | seeded =>
    refine h.of_rows hcovered (le_refl _) (hstep.jobs_subset rfl) fun id hid => ?_
    cases hr : s.db.queue id with
    | some r => exact Or.inr ⟨r, rfl, fun hs => ⟨r, by simp [IndexQueue.seedIndexQueue, hr], hs, rfl⟩⟩
    | none =>
      have hgone := ((h.covered id hid).resolve_left fun hrow => hrow hr).1
      refine Or.inl ?_
      simp [IndexQueue.seedIndexQueue, hr, Files.getFile_eq_none_iff.mpr hgone]
  | requeued =>
    refine h.of_rows hcovered (le_refl _) (hstep.jobs_subset rfl) fun id hid => ?_
    cases hr : s.db.queue id with
    | none => exact Or.inl (by simp [IndexQueue.requeueStaleIndexQueue, hr])
    | some r =>
      refine Or.inr ⟨r, rfl, fun hclaimed => ⟨r, ?_, hclaimed, rfl⟩⟩
      have hfresh : (s.db.files.getFile id).any (IndexQueue.isStale r) = false := by
        cases s.db.files.getFile id <;> simp [IndexQueue.isStale, hclaimed]
      simp [IndexQueue.requeueStaleIndexQueue, hr, hfresh]
  | claimed _ _ hids => exact h.claimed hcovered hids rfl rfl rfl
  | processed => exact h.of_queue hcovered (le_refl _) (hstep.jobs_subset rfl) fun _ => Or.inr rfl
  | errored => exact h.of_queue hcovered (le_refl _) (hstep.jobs_subset rfl) fun _ => Or.inr rfl
  | unwritten hfault hwrite hw =>
    rw [Claims.record_of_unwritten hfault hwrite]
    exact h.of_queue hcovered (le_refl _) (hstep.jobs_subset (claimedIds_of_fault hfault))
      fun _ => Or.inr rfl
  | completed hw hfault hdb hres hnext =>
    exact h.completed hs hontime hok hcovered hw hfault hdb hres hnext
  | failed hw hfault hres hnext => exact h.failed hs hontime hok hcovered hw hfault rfl hres hnext
  | stopped => exact h.of_queue hcovered (le_refl _) (hstep.jobs_subset rfl) fun _ => Or.inr rfl
  | upserted => exact h.of_queue hcovered (le_refl _) (hstep.jobs_subset rfl) fun _ => Or.inr rfl
  | replaced => exact h.of_queue hcovered (le_refl _) (hstep.jobs_subset rfl) fun _ => Or.inr rfl
  | @ticked d =>
    have hnow : s.now ≤ s.now + (d : Int) := le_add_of_nonneg_right (Int.natCast_nonneg d)
    exact h.of_queue hcovered hnow (hstep.jobs_subset rfl) fun _ => Or.inr rfl
  | @stored tx files =>
    refine h.of_queue hcovered (le_refl _) (hstep.jobs_subset rfl) fun id => ?_
    cases hf : files.getFile id with
    | none => exact Or.inl (by simp [IndexDb.cascade, hf])
    | some f => exact Or.inr (by simp [IndexDb.cascade, hf])
  | rebucketed => exact h.of_queue hcovered (le_refl _) (hstep.jobs_subset rfl) fun _ => Or.inr rfl

theorem exclusive_of_tracked {s : Pool β R ρ ι} {g : Claims ι}
    (h : ClaimsTracked cfg s.indexing g) : Exclusive cfg (s, g) := by
  refine fun id => ⟨?_, h.once id⟩
  show ((g id).filter (Claim.live cfg s.indexing.now)).length ≤ 1
  cases hg : g id with
  | nil => exact Nat.zero_le 1
  | cons c cs =>
    have hdead : cs.filter (Claim.live cfg s.indexing.now) = [] := by
      refine List.filter_eq_nil_iff.mpr fun d hd => ?_
      rcases h.older id d (by simpa [hg] using hd) with hanswered | hexpired
      · simp [Claim.live, hanswered]
      · simp [Claim.live, hexpired]
    rw [List.filter_cons, hdead]
    split <;> simp

theorem reclaims_answered {s t : Indexing β R ρ ι} {ds : Directories} {g : Claims ι}
    {a : PoolAction β R ι} (h : ClaimsTracked cfg s g) (ht : PoolStep T cfg s a t) :
    ReclaimsAnswered cfg (⟨s, ds⟩, g) a := by
  cases ht with
  | claimed _ _ hids =>
    intro id hid c hc hlt
    obtain ⟨r, hr, hclaimable⟩ := (Option.any_eq_true _ _).mp (hids id hid)
    exact (h.closed_of_claimable hr hclaimable hc).resolve_right (not_le.mpr hlt)
  | @unwritten a i w hfault =>
    cases a with
    | complete => trivial
    | fail => trivial
    | _ => cases hfault
  | _ => trivial

theorem exclusive_claims (s : Pool β R ρ ι) (hs : s.indexing.Initial)
    (as : List (PoolAction β R ι))
    (hontime : Transition.EveryStep (Transition.recorded (Pool.step T cfg) (Claims.record T cfg))
      (OnTime T cfg) (s, fun _ => []) as)
    (hok : Transition.EveryStep (Transition.recorded (Pool.step T cfg) (Claims.record T cfg))
      (WrittenOnce T cfg) (s, fun _ => []) as) :
    Transition.EveryState (Transition.recorded (Pool.step T cfg) (Claims.record T cfg))
        (Exclusive cfg) (s, fun _ => []) as ∧
      Transition.EveryStep (Transition.recorded (Pool.step T cfg) (Claims.record T cfg))
        (ReclaimsAnswered cfg) (s, fun _ => []) as := by
  have hpres : Transition.Preserves (Transition.recorded (Pool.step T cfg) (Claims.record T cfg))
      (fun p a => OnTime T cfg p a ∧ WrittenOnce T cfg p a)
      fun p : Pool β R ρ ι × Claims ι => p.1.indexing.Sound ∧ ClaimsTracked cfg p.1.indexing p.2 := by
    refine Pool.sound_preserved.recorded.and fun p a q hsound h hok ht => ?_
    obtain ⟨ht, hg⟩ := Transition.recorded_eq_some_iff.mp ht
    exact hg ▸ claimsTracked_preserved hsound h hok.1 hok.2 (poolStep_of_step ht)
  have hinit : ClaimsTracked cfg s.indexing fun _ => [] := by
    refine ⟨fun i job hjob => ?_, by simp, fun id hne => absurd rfl hne, by simp, by simp⟩
    rw [hs.workers i] at hjob
    cases hjob
  have hokay := hontime.and hok
  constructor
  · refine (Transition.everyState_of_preserves hpres as ⟨hs.sound, hinit⟩ hokay).mono ?_
    exact fun p hp => exclusive_of_tracked hp.2
  · refine Transition.everyStep_of_preserves hpres (fun p a q hp _ ht => ?_) as ⟨hs.sound, hinit⟩
      hokay
    exact reclaims_answered hp.2 (poolStep_of_step (Transition.recorded_eq_some_iff.mp ht).1)

end Invariant

section Runs

instance onTimeDecidable (p : StatPool × Claims Bool) :
    (a : PoolAction String StatResult Bool) → Decidable (OnTime statIndex statConfig p a)
  | .indexing a => inferInstanceAs (Decidable (∀ w ∈ p.1.indexing.statusWrite statIndex statConfig a,
      ∀ c ∈ (p.2 w.job.fileID).find? fun c => c.worker = w.worker,
        p.1.indexing.now < c.claimedAt + statConfig.claimTTL))
  | .store _ | .replaceBucket _ => isTrue trivial

instance writtenOnceDecidable (p : StatPool × Claims Bool) :
    (a : PoolAction String StatResult Bool) → Decidable (WrittenOnce statIndex statConfig p a)
  | .indexing a => inferInstanceAs (Decidable (∀ w ∈ p.1.indexing.statusWrite statIndex statConfig a,
      a.fault = some .after → statusWriteTries ≤ (p.1.indexing.workers w.worker).tries + 1))
  | .store _ | .replaceBucket _ => isTrue trivial

def retriedFailure : List (PoolAction String StatResult Bool) :=
  [.indexing .seedIndexQueue, .indexing (.claim true [1]),
    .indexing (.process true (.error (ascii "timeout"))), .indexing (.fail true .after),
    .indexing (.tick 5), .indexing (.claim false [1]), .indexing (.fail true .none),
    .indexing (.claim true [1])]

theorem retried_failure_frees_live_claim :
    Transition.EveryStep (Transition.recorded (Pool.step statIndex statConfig)
      (Claims.record statIndex statConfig)) (OnTime statIndex statConfig)
      (twoWorkers, fun _ => []) retriedFailure ∧
    ¬Transition.EveryState (Transition.recorded (Pool.step statIndex statConfig)
      (Claims.record statIndex statConfig)) (Exclusive statConfig)
      (twoWorkers, fun _ => []) retriedFailure := by
  refine ⟨by decide, fun h => ?_⟩
  have hlast := (h.last rfl 1).1
  exact absurd hlast (by decide)

theorem exclusive_claims_takeover :
    Transition.EveryState (Transition.recorded (Pool.step statIndex statConfig)
        (Claims.record statIndex statConfig)) (Exclusive statConfig) (twoWorkers, fun _ => [])
        [.indexing .seedIndexQueue, .indexing (.claim true [1]), .indexing (.stop true),
          .indexing (.tick 60), .indexing (.claim false [1]),
          .indexing (.process false (.ok draftStat)), .indexing (.complete false .before),
          .indexing (.complete false .none)] ∧
      Transition.EveryStep (Transition.recorded (Pool.step statIndex statConfig)
        (Claims.record statIndex statConfig)) (ReclaimsAnswered statConfig) (twoWorkers, fun _ => [])
        [.indexing .seedIndexQueue, .indexing (.claim true [1]), .indexing (.stop true),
          .indexing (.tick 60), .indexing (.claim false [1]),
          .indexing (.process false (.ok draftStat)), .indexing (.complete false .before),
          .indexing (.complete false .none)] :=
  exclusive_claims twoWorkers ⟨fun _ => rfl, fun _ => rfl⟩ _ (by decide) (by decide)

end Runs

end FileIndexer
