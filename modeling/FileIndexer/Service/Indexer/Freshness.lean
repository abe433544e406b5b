import FileIndexer.Service.Indexer.Runner

namespace FileIndexer

section Property

variable {β R ρ ι : Type} (T : IndexType R ρ)

structure Indexing.Initial (s : Indexing β R ρ ι) : Prop where
  queue : ∀ id, s.db.queue id = none
  workers : ∀ i, s.workers i = .idle

def Fresh (s : Indexing β R ρ ι) : Prop :=
  ∀ f ∈ s.db.files.rows, ∀ r ∈ s.db.queue f.id, r.status = .done → r.mark = some f.markedAt →
    (s.provenance f.id).any (f.markedAt ≤ ·) = true

def CompletesCurrent (s : Indexing β R ρ ι) : IndexingAction β R ι → Prop
  | .complete i fault =>
    match s.workers i with
    | .completing job result readAt _ _ =>
      fault ≠ .before → (T.row s.now result).all T.check = true → s.db.queue job.fileID ≠ none →
        ∀ f ∈ s.db.files.rows, f.id = job.fileID →
          (T.provenanceAfter s job.fileID result readAt).any (f.markedAt ≤ ·) = true
    | _ => True
  | _ => True

end Property

section Invariant

variable {β R ρ ι : Type} {T : IndexType R ρ} {cfg : IndexerConfig}

structure Indexing.Inv (s : Indexing β R ρ ι) : Prop where
  fresh : Fresh s
  bounded : ∀ f ∈ s.db.files.rows, ∀ r ∈ s.db.queue f.id, ∀ m ∈ r.mark, m ≤ f.markedAt
  known : ∀ id, s.db.queue id ≠ none → ∃ f ∈ s.db.files.rows, f.id = id

theorem Indexing.Inv.of_queue {s t : Indexing β R ρ ι} (h : s.Inv)
    (hfiles : t.db.files = s.db.files) (hprov : t.provenance = s.provenance)
    (hmark : ∀ id, ∀ r' ∈ t.db.queue id, r'.mark = none ∨
      ∃ r ∈ s.db.queue id, r'.mark = r.mark ∧ (r'.status = .done → r.status = .done))
    (hknown : ∀ id, t.db.queue id ≠ none → s.db.queue id ≠ none ∨
      ∃ f ∈ s.db.files.rows, f.id = id) : t.Inv := by
  refine ⟨?_, ?_, ?_⟩
  · intro f hf r' hr' hdone hm
    rw [hfiles] at hf
    rw [hprov]
    rcases hmark _ r' hr' with hnone | ⟨r, hr, he, hs⟩
    · exact absurd (hnone.symm.trans hm) (by simp)
    · exact h.fresh f hf r hr (hs hdone) (he ▸ hm)
  · intro f hf r' hr' m hm
    rw [hfiles] at hf
    rcases hmark _ r' hr' with hnone | ⟨r, hr, he, -⟩
    · rw [hnone] at hm
      cases hm
    · exact h.bounded f hf r hr m (he ▸ hm)
  · intro id hid
    rw [hfiles]
    exact (hknown id hid).elim (h.known id) fun h => h

theorem Indexing.Inv.of_marks {s t : Indexing β R ρ ι} (h : s.Inv)
    (hfiles : t.db.files = s.db.files) (hprov : t.provenance = s.provenance)
    (hmark : ∀ id, ∀ r' ∈ t.db.queue id, ∃ r, s.db.queue id = some r ∧ r'.mark = r.mark ∧
      (r'.status = .done → r.status = .done)) : t.Inv := by
  refine h.of_queue hfiles hprov (fun id r' hr' => Or.inr (hmark id r' hr')) fun i hid => Or.inl ?_
  obtain ⟨r', hr'⟩ := Option.ne_none_iff_exists'.mp hid
  obtain ⟨r, hr, -⟩ := hmark i r' hr'
  simp [hr]

theorem Indexing.Inv.of_same {s t : Indexing β R ρ ι} (h : s.Inv)
    (hfiles : t.db.files = s.db.files) (hprov : t.provenance = s.provenance)
    (hqueue : t.db.queue = s.db.queue) : t.Inv :=
  h.of_marks hfiles hprov fun id r' hr' => ⟨r', congrFun hqueue id ▸ hr', rfl, fun h => h⟩

theorem Indexing.Inv.upsert {s : Indexing β R ρ ι} (h : s.Inv) (arg : UpsertFilesParams) :
    { s with db := { s.db with files := (s.db.files.upsertFiles s.now arg).2 } }.Inv := by
  have horigin (g : File) (hg : g ∈ (s.db.files.upsertFiles s.now arg).2.rows) (r : QueueRow)
      (hr : r ∈ s.db.queue g.id) : ∃ f ∈ s.db.files.rows, f.id = g.id ∧ f.markedAt ≤ g.markedAt := by
    refine (Files.origin_upsertFiles hg).resolve_right fun hnext => ?_
    obtain ⟨f, hf, hid⟩ := h.known g.id (by simp [Option.mem_def.mp hr])
    exact absurd (s.db.files.serial f hf) (not_lt.mpr (hid ▸ hnext))
  refine ⟨?_, ?_, ?_⟩
  · intro g hg r hr hdone hm
    obtain ⟨f, hf, hid, hle⟩ := horigin g hg r hr
    have hge : g.markedAt ≤ f.markedAt := h.bounded f hf r (hid ▸ hr) g.markedAt hm
    have heq : f.markedAt = g.markedAt := le_antisymm hle hge
    have hfresh := h.fresh f hf r (hid ▸ hr) hdone (heq ▸ hm)
    rwa [hid, heq] at hfresh
  · intro g hg r hr m hm
    obtain ⟨f, hf, hid, hle⟩ := horigin g hg r hr
    exact (h.bounded f hf r (hid ▸ hr) m hm).trans hle
  · intro id hid
    obtain ⟨f, hf, rfl⟩ := h.known id hid
    exact Files.kept_upsertFiles hf

theorem Indexing.Inv.completed {s t : Indexing β R ρ ι} (h : s.Inv) {fileID : FileID}
    {prov : Option Time} (hfiles : t.db.files = s.db.files)
    (hqueue : t.db.queue = s.db.queue.completeIndexQueue s.now s.db.files fileID)
    (hprov : t.provenance = Function.update s.provenance fileID prov)
    (hcur : s.db.queue fileID ≠ none → ∀ f ∈ s.db.files.rows, f.id = fileID →
      prov.any (f.markedAt ≤ ·) = true) : t.Inv := by
  have hself (f : File) (hf : f ∈ s.db.files.rows) (hid : f.id = fileID) (r' : QueueRow)
      (hr' : r' ∈ t.db.queue f.id) : s.db.queue fileID ≠ none ∧ r'.mark = some f.markedAt := by
    rw [hqueue, hid] at hr'
    cases hr : s.db.queue fileID with
    | none => simp [IndexQueue.completeIndexQueue, hr] at hr'
    | some r =>
      rw [IndexQueue.completeIndexQueue_self _ hr (Files.getFile_eq_some_iff.mpr ⟨hf, hid⟩)] at hr'
      obtain rfl := Option.some.inj hr'
      exact ⟨by simp, rfl⟩
  have hother (id : FileID) (hid : id ≠ fileID) : t.db.queue id = s.db.queue id := by
    rw [hqueue, IndexQueue.completeIndexQueue_of_ne hid]
  refine ⟨?_, ?_, ?_⟩
  · intro f hf r' hr' hdone hm
    rw [hfiles] at hf
    rw [hprov]
    by_cases hid : f.id = fileID
    · rw [hid, Function.update_self]
      exact hcur (hself f hf hid r' hr').1 f hf hid
    · rw [Function.update_of_ne hid]
      rw [hother _ hid] at hr'
      exact h.fresh f hf r' hr' hdone hm
  · intro f hf r' hr' m hm
    rw [hfiles] at hf
    by_cases hid : f.id = fileID
    · rw [(hself f hf hid r' hr').2] at hm
      exact le_of_eq (Option.some.inj hm).symm
    · rw [hother _ hid] at hr'
      exact h.bounded f hf r' hr' m hm
  · intro id hid
    rw [hfiles]
    refine h.known id fun hnone => hid ?_
    rw [hqueue]
    unfold IndexQueue.completeIndexQueue
    split
    · rename_i he
      simp [hnone]
    · exact hnone

theorem IndexType.complete_checked {db db' : IndexDb ρ} {now : Time} {fileID : FileID} {result : R}
    (h : T.complete db now fileID result = .ok db') : (T.row now result).all T.check = true := by
  unfold IndexType.complete IndexType.store at h
  cases hrow : T.row now result with
  | none => rfl
  | some row =>
    simp only [hrow, bind, Except.bind] at h
    split at h
    · cases h
    · rename_i results hres
      split at hres
      · rename_i hc
        simp only [Bool.and_eq_true] at hc
        exact hc.2
      · cases hres

section Step

variable [DecidableEq ι]

theorem Indexing.inv_preserved : Transition.Preserves (Indexing.step T cfg)
    (CompletesCurrent T) (Indexing.Inv (β := β) (R := R) (ρ := ρ) (ι := ι)) := by
  intro s a t hs hok ht
  cases a with
  | seedIndexQueue =>
    obtain rfl := Option.some.inj ht
    refine hs.of_queue rfl rfl (fun id r' hr' => ?_) fun id hid => ?_
    · exact (IndexQueue.mark_of_seeded hr').elim (fun h => Or.inr ⟨r', h, rfl, fun h => h⟩)
        fun h => Or.inl h.1
    · obtain ⟨r', hr'⟩ := Option.ne_none_iff_exists'.mp hid
      refine (IndexQueue.mark_of_seeded hr').imp (fun h => by simp [h]) ?_
      rintro ⟨-, f, hf⟩
      obtain ⟨hmem, rfl⟩ := Files.getFile_eq_some_iff.mp hf
      exact ⟨f, hmem, rfl⟩
  | requeueStaleIndexQueue =>
    obtain rfl := Option.some.inj ht
    refine hs.of_queue rfl rfl (fun id r' hr' => ?_) fun id hid => Or.inl ?_
    · obtain ⟨r, hr, rfl | ⟨-, hm⟩⟩ := IndexQueue.mark_of_requeued hr'
      · exact Or.inr ⟨r', hr, rfl, fun h => h⟩
      · exact Or.inl hm
    · obtain ⟨r', hr'⟩ := Option.ne_none_iff_exists'.mp hid
      obtain ⟨r, hr, -⟩ := IndexQueue.mark_of_requeued hr'
      simp [hr]
  | claim i ids =>
    simp only [Indexing.step] at ht
    split at ht
    · split at ht
      · obtain rfl := Option.some.inj ht
        exact hs.of_marks rfl rfl fun id r' hr' => IndexQueue.mark_of_claimed hr'
      · cases ht
    · split at ht
      · obtain rfl := Option.some.inj ht
        exact hs.of_marks rfl rfl fun id r' hr' => IndexQueue.mark_of_claimed hr'
      · cases ht
    · cases ht
  | process i outcome =>
    simp only [Indexing.step] at ht
    split at ht
    · split at ht
      · obtain rfl := Option.some.inj ht
        exact hs.of_same rfl rfl rfl
      · obtain rfl := Option.some.inj ht
        exact hs.of_same rfl rfl rfl
      · cases ht
    · cases ht
  | complete i fault =>
    simp only [Indexing.step] at ht
    split at ht
    · rename_i job result readAt tries rest hw
      split at ht
      · obtain rfl := Option.some.inj ht
        exact hs.of_same rfl rfl rfl
      · rename_i hfault
        split at ht
        · obtain rfl := Option.some.inj ht
          exact hs.of_same rfl rfl rfl
        · rename_i db hdb
          obtain rfl := Option.some.inj ht
          obtain ⟨hfiles, hqueue, -⟩ := IndexType.complete_ok hdb
          simp only [CompletesCurrent, hw] at hok
          exact hs.completed hfiles hqueue rfl (hok hfault (IndexType.complete_checked hdb))
    · cases ht
  | fail i fault =>
    simp only [Indexing.step] at ht
    split at ht
    · split at ht
      · obtain rfl := Option.some.inj ht
        exact hs.of_same rfl rfl rfl
      · obtain rfl := Option.some.inj ht
        exact hs.of_marks rfl rfl fun id r' hr' => IndexQueue.mark_of_failed hr'
    · cases ht
  | stop i =>
    obtain rfl := Option.some.inj ht
    exact hs.of_same rfl rfl rfl
  | upsertFiles arg =>
    simp only [Indexing.step] at ht
    split at ht
    · obtain rfl := Option.some.inj ht
      exact hs.upsert arg
    · cases ht
  | replaceObject key bytes =>
    simp only [Indexing.step] at ht
    split at ht
    · obtain rfl := Option.some.inj ht
      exact hs.of_same rfl rfl rfl
    · cases ht
  | tick d =>
    obtain rfl := Option.some.inj ht
    exact hs.of_same rfl rfl rfl

theorem IndexType.complete_of_checked {db : IndexDb ρ} {now : Time} {result : R} {f : File}
    (hf : f ∈ db.files.rows) (h : (T.row now result).all T.check = true) :
    ∃ db', T.complete db now f.id result = .ok db' := by
  unfold IndexType.complete IndexType.store
  cases hrow : T.row now result with
  | none => exact ⟨_, rfl⟩
  | some row =>
    have hc : T.check row = true := by simpa [hrow] using h
    rw [Files.getFile_eq_some_iff.mpr ⟨hf, rfl⟩]
    simp [hc, bind, Except.bind, pure, Except.pure]

theorem current_of_fresh {s t : Indexing β R ρ ι} {a : IndexingAction β R ι} (hfresh : Fresh t)
    (ht : s.step T cfg a = some t) : CompletesCurrent T s a := by
  cases a with
  | complete i fault =>
    simp only [CompletesCurrent]
    split
    · rename_i job result readAt tries rest hw
      intro hfault hcheck hqueue f hf hid
      obtain ⟨db, hdb⟩ := IndexType.complete_of_checked hf hcheck
      obtain ⟨r, hr⟩ := Option.ne_none_iff_exists'.mp hqueue
      obtain ⟨hfiles, hq, -⟩ := IndexType.complete_ok hdb
      have hself := IndexQueue.completeIndexQueue_self s.now hr
        (Files.getFile_eq_some_iff.mpr ⟨hf, hid⟩)
      simp only [Indexing.step, hw, if_neg hfault, ← hid, hdb] at ht
      obtain rfl := Option.some.inj ht
      have hdone := hfresh f (by simpa [Indexing.setWorker, hfiles] using hf) _
        (by simpa [Indexing.setWorker, hq, hid] using hself) rfl rfl
      simpa [Indexing.setWorker, hid] using hdone
    · trivial
  | _ => trivial

theorem fresh_iff_completions_current (s : Indexing β R ρ ι) (hs : s.Initial)
    (as : List (IndexingAction β R ι)) :
    Transition.EveryState (Indexing.step T cfg) Fresh s as ↔
      Transition.EveryStep (Indexing.step T cfg) (CompletesCurrent T) s as := by
  refine Transition.everyState_iff_everyStep Indexing.inv_preserved (fun _ h => h.fresh)
    (fun _ _ _ _ => current_of_fresh) as ⟨?_, ?_, ?_⟩
  · intro f _ r hr
    rw [hs.queue] at hr
    cases hr
  · intro f _ r hr
    rw [hs.queue] at hr
    cases hr
  · intro id hid
    exact absurd (hs.queue id) hid

end Step

end Invariant

section Runs

abbrev StatIndexing := Indexing String StatResult StatRow Unit

instance freshDecidable (s : StatIndexing) : Decidable (Fresh s) :=
  inferInstanceAs (Decidable (∀ f ∈ s.db.files.rows, ∀ r ∈ s.db.queue f.id,
    r.status = .done → r.mark = some f.markedAt → _ = true))

instance completesCurrentDecidable (s : StatIndexing) : (a : IndexingAction String StatResult Unit) →
    Decidable (CompletesCurrent statIndex s a)
  | .complete i fault =>
    match h : s.workers i with
    | .completing job result readAt _ _ => decidable_of_iff
        (fault ≠ .before → (statIndex.row s.now result).all statIndex.check = true →
          s.db.queue job.fileID ≠ none → ∀ f ∈ s.db.files.rows, f.id = job.fileID →
            (statIndex.provenanceAfter s job.fileID result readAt).any (f.markedAt ≤ ·) = true)
        (by simp [CompletesCurrent, h])
    | .idle | .batch _ | .failing _ _ _ _ _ => isTrue (by simp [CompletesCurrent, h])
  | .seedIndexQueue | .requeueStaleIndexQueue | .claim _ _ | .process _ _ | .fail _ _ | .stop _
  | .upsertFiles _ | .replaceObject _ _ | .tick _ => isTrue trivial

def statConfig : IndexerConfig := ⟨10, 3, 60, 5, 300⟩

def oneNote : StatIndexing where
  db := ⟨⟨[⟨1, ascii "note", 1, 1, 1⟩], 2, by decide, by decide, by decide⟩, fun _ => none, ∅⟩
  bucket := (∅ : Bucket String).put 1 (ascii "note") "draft"
  workers _ := .idle
  now := 1
  provenance _ := none

def draftStat : StatResult := ⟨ascii "text/plain", 5, 1⟩

theorem edit_during_run_never_reindexed : oneNote.Initial ∧
    ¬Transition.EveryState (Indexing.step statIndex statConfig) Fresh oneNote
      [.seedIndexQueue, .claim () [1], .process () (.ok draftStat), .tick 4,
        .replaceObject (ascii "note") "final", .upsertFiles [(ascii "note", 5)],
        .complete () .none] :=
  ⟨⟨fun _ => rfl, fun _ => rfl⟩, by decide⟩

theorem fresh_iff_completions_current_edit_after :
    Transition.EveryState (Indexing.step statIndex statConfig) Fresh oneNote
      [.seedIndexQueue, .claim () [1], .process () (.ok draftStat), .complete () .after, .tick 4,
        .replaceObject (ascii "note") "final", .complete () .none, .upsertFiles [(ascii "note", 5)],
        .requeueStaleIndexQueue] :=
  (fresh_iff_completions_current _ ⟨fun _ => rfl, fun _ => rfl⟩ _).mpr (by decide)

end Runs

end FileIndexer
