import FileIndexer.Service.Indexer.Pool

namespace FileIndexer

section Property

variable {β R ρ ι : Type} [DecidableEq ι] (T : IndexType R ρ) (cfg : IndexerConfig)

def Indexing.queueStatus (s : Indexing β R ρ ι) (id : FileID) : Option QueueStatus :=
  (s.db.queue id).map QueueRow.status

inductive Moves (cfg : IndexerConfig) (s : Indexing β R ρ ι) (id : FileID) :
    PoolAction β R ι → Option QueueStatus → Prop
  | keep {a} : id ∉ a.claimedIds → Moves cfg s id a (s.queueStatus id)
  | seed : s.queueStatus id = none → Moves cfg s id (.indexing .seedIndexQueue) (some .pending)
  | claim {i ids} : s.queueStatus id = some .pending →
      Moves cfg s id (.indexing (.claim i ids)) (some .claimed)
  | reclaim {i ids r} : s.db.queue id = some r → r.status = .claimed →
      (r.claimedAt.any fun c => cfg.claimTTL ≤ s.now - c) = true →
      Moves cfg s id (.indexing (.claim i ids)) (some .claimed)
  | complete {i fault} : s.queueStatus id = some .claimed →
      Moves cfg s id (.indexing (.complete i fault)) (some .done)
  | fail {i fault status} : s.queueStatus id = some .claimed → status = .pending ∨ status = .error →
      Moves cfg s id (.indexing (.fail i fault)) (some status)
  | requeue : s.queueStatus id = some .done →
      Moves cfg s id (.indexing .requeueStaleIndexQueue) (some .pending)
  | cascade {tx} : Moves cfg s id (.store tx) none

def FollowsLifecycle (s : Pool β R ρ ι) (a : PoolAction β R ι) : Prop :=
  ∀ t, s.step T cfg a = some t → ∀ id, Moves cfg s.indexing id a (t.indexing.queueStatus id)

def AnswersClaim (s : Pool β R ρ ι) : PoolAction β R ι → Prop
  | .indexing a => ∀ w ∈ s.indexing.statusWrite T cfg a, ∀ r ∈ s.indexing.db.queue w.job.fileID,
      r.status = .claimed ∨ r.status = w.status
  | _ => True

end Property

section Edges

variable {β R ρ ι : Type} {T : IndexType R ρ} {cfg : IndexerConfig}

theorem Moves.of_status {s : Indexing β R ρ ι} {a : PoolAction β R ι} {id : FileID}
    {status : Option QueueStatus} (ha : id ∉ a.claimedIds) (h : s.queueStatus id = status) :
    Moves cfg s id a status := by
  subst h
  exact .keep ha

theorem Moves.of_same {s t : Indexing β R ρ ι} {a : PoolAction β R ι} {id : FileID}
    (ha : id ∉ a.claimedIds) (h : t.db.queue id = s.db.queue id) :
    Moves cfg s id a (t.queueStatus id) :=
  .of_status ha (congrArg (Option.map QueueRow.status) h.symm)

theorem queueStatus_of_row {s : Indexing β R ρ ι} {id : FileID} {r : QueueRow} {status : QueueStatus}
    (h : s.db.queue id = some r) (hstatus : r.status = status) : s.queueStatus id = some status := by
  simp [Indexing.queueStatus, h, hstatus]

theorem moves_seeded (s : Indexing β R ρ ι) (id : FileID) :
    Moves cfg s id (.indexing .seedIndexQueue)
      ((s.db.queue.seedIndexQueue s.now s.db.files id).map QueueRow.status) := by
  cases hr : s.db.queue id with
  | some r =>
    refine .of_status List.not_mem_nil ?_
    simp [Indexing.queueStatus, IndexQueue.seedIndexQueue, hr]
  | none =>
    cases hf : s.db.files.getFile id with
    | none =>
      refine .of_status List.not_mem_nil ?_
      simp [Indexing.queueStatus, IndexQueue.seedIndexQueue, hr, hf]
    | some f =>
      simp only [IndexQueue.seedIndexQueue, hr, hf, Option.map_some]
      exact .seed (by simp [Indexing.queueStatus, hr])

theorem moves_requeued (s : Indexing β R ρ ι) (id : FileID) :
    Moves cfg s id (.indexing .requeueStaleIndexQueue)
      ((s.db.queue.requeueStaleIndexQueue s.now s.db.files id).map QueueRow.status) := by
  cases hr' : s.db.queue.requeueStaleIndexQueue s.now s.db.files id with
  | none =>
    refine .of_status List.not_mem_nil ?_
    simpa [IndexQueue.requeueStaleIndexQueue, Indexing.queueStatus] using hr'
  | some r' =>
    obtain ⟨r, hr, ⟨hstale, rfl⟩ | ⟨-, rfl⟩⟩ := IndexQueue.row_of_requeued hr'
    · obtain ⟨f, -, hs⟩ := (Option.any_eq_true _ _).mp hstale
      simp only [IndexQueue.isStale, Bool.and_eq_true, Bool.or_eq_true, decide_eq_true_eq] at hs
      rcases hs.1 with hdone | hpending
      · exact .requeue (queueStatus_of_row hr hdone)
      · exact .of_status List.not_mem_nil (queueStatus_of_row hr hpending)
    · exact .of_status List.not_mem_nil (queueStatus_of_row hr rfl)

theorem moves_claimed {s : Indexing β R ρ ι} {i : ι} {ids : List FileID}
    (hids : ∀ id ∈ ids, (s.db.queue id).any (IndexQueue.claimable s.now cfg.claimTTL) = true)
    (id : FileID) : Moves cfg s id (.indexing (.claim i ids))
      ((s.db.queue.claimIndexQueue s.now ids id).map QueueRow.status) := by
  rcases Classical.em (id ∈ ids) with hid | hid
  · obtain ⟨r, hr, hc⟩ := (Option.any_eq_true _ _).mp (hids id hid)
    rw [IndexQueue.claimIndexQueue_of_mem hid, hr]
    simp only [IndexQueue.claimable, Bool.or_eq_true, Bool.and_eq_true, decide_eq_true_eq] at hc
    rcases hc with ⟨hpending, -⟩ | ⟨hclaimed, hexpired⟩
    · exact .claim (queueStatus_of_row hr hpending)
    · exact .reclaim hr hclaimed hexpired
  · rw [IndexQueue.claimIndexQueue_of_not_mem hid]
    exact .keep hid

theorem moves_completed {s : Indexing β R ρ ι} (hs : s.Sound) {i : ι} {fault : Fault} {job : Job}
    {result : R} {readAt : Time} {tries : Nat} {rest : List Job} {db : IndexDb ρ}
    (hw : s.workers i = .completing job result readAt tries rest) (hfault : fault ≠ .before)
    (hdb : T.complete s.db s.now job.fileID result = .ok db)
    (hok : ∀ w ∈ s.statusWrite T cfg (.complete i fault), ∀ r ∈ s.db.queue w.job.fileID,
      r.status = .claimed ∨ r.status = w.status) (id : FileID) :
    Moves cfg s id (.indexing (.complete i fault)) ((db.queue id).map QueueRow.status) := by
  rw [(IndexType.complete_ok hdb).2.1]
  rcases eq_or_ne id job.fileID with rfl | hid
  · cases hr : s.db.queue job.fileID with
    | none =>
      exact .of_status List.not_mem_nil
        (by simp [Indexing.queueStatus, IndexQueue.completeIndexQueue, hr])
    | some r =>
      obtain ⟨f, hf⟩ := hs.file (by simp [hr] : s.db.queue job.fileID ≠ none)
      have hwrite : s.statusWrite T cfg (.complete i fault) = some ⟨i, job, .done⟩ :=
        statusWrite_complete hw hfault hdb hr
      rw [IndexQueue.completeIndexQueue_self s.now hr hf]
      rcases hok _ hwrite r hr with hclaimed | hdone
      · exact .complete (queueStatus_of_row hr hclaimed)
      · exact .of_status List.not_mem_nil (queueStatus_of_row hr hdone)
  · rw [IndexQueue.completeIndexQueue_of_ne hid]
    exact .of_status List.not_mem_nil rfl

theorem moves_failed {s : Indexing β R ρ ι} {i : ι} {fault : Fault} {job : Job} {cause : Text}
    {nextAttempt : Time} {tries : Nat} {rest : List Job}
    (hw : s.workers i = .failing job cause nextAttempt tries rest) (hfault : fault ≠ .before)
    (hok : ∀ w ∈ s.statusWrite T cfg (.fail i fault), ∀ r ∈ s.db.queue w.job.fileID,
      r.status = .claimed ∨ r.status = w.status) (id : FileID) :
    Moves cfg s id (.indexing (.fail i fault))
      ((s.db.queue.failIndexQueue s.now job.fileID (cfg.maxAttempts ≤ job.attempts) nextAttempt cause
        id).map QueueRow.status) := by
  rcases eq_or_ne id job.fileID with rfl | hid
  · rw [IndexQueue.failIndexQueue_self]
    cases hr : s.db.queue job.fileID with
    | none => exact .of_status List.not_mem_nil (by simp [Indexing.queueStatus, hr])
    | some r =>
      have hwrite : s.statusWrite T cfg (.fail i fault) =
          some ⟨i, job, if cfg.maxAttempts ≤ job.attempts then .error else .pending⟩ :=
        statusWrite_fail hw hfault hr
      simp only [Option.map_some, IndexQueue.failedRow, decide_eq_true_eq]
      rcases hok _ hwrite r hr with hclaimed | hsame
      · refine .fail (queueStatus_of_row hr hclaimed) ?_
        split
        · exact Or.inr rfl
        · exact Or.inl rfl
      · exact .of_status List.not_mem_nil (queueStatus_of_row hr hsame)
  · rw [IndexQueue.failIndexQueue_of_ne hid]
    exact .of_status List.not_mem_nil rfl

theorem moves_of_poolStep [DecidableEq ι] {s t : Indexing β R ρ ι} {a : PoolAction β R ι}
    (hs : s.Sound) (h : PoolStep T cfg s a t)
    (hok : ∀ b, a = .indexing b → ∀ w ∈ s.statusWrite T cfg b, ∀ r ∈ s.db.queue w.job.fileID,
      r.status = .claimed ∨ r.status = w.status) (id : FileID) :
    Moves cfg s id a (t.queueStatus id) := by
  cases h with
  | seeded => exact moves_seeded s id
  | requeued => exact moves_requeued s id
  | claimed _ _ hids => exact moves_claimed hids id
  | processed => exact .of_same List.not_mem_nil rfl
  | errored => exact .of_same List.not_mem_nil rfl
  | unwritten hfault => exact .of_same (by simp [claimedIds_of_fault hfault]) rfl
  | completed hw hfault hdb => exact moves_completed hs hw hfault hdb (hok _ rfl) id
  | failed hw hfault => exact moves_failed hw hfault (hok _ rfl) id
  | stopped => exact .of_same List.not_mem_nil rfl
  | upserted => exact .of_same List.not_mem_nil rfl
  | replaced => exact .of_same List.not_mem_nil rfl
  | ticked => exact .of_same List.not_mem_nil rfl
  | @stored tx files =>
    cases hf : files.getFile id with
    | some f => exact .of_same List.not_mem_nil (by simp [IndexDb.cascade, hf])
    | none =>
      have hnone : Indexing.queueStatus { s with db := s.db.cascade files } id = none := by
        simp [Indexing.queueStatus, IndexDb.cascade, hf]
      exact hnone ▸ .cascade
  | rebucketed => exact .of_same List.not_mem_nil rfl

theorem Moves.of_write {s : Indexing β R ρ ι} {a : IndexingAction β R ι} {id : FileID}
    {after : Option QueueStatus} (ha : a.fault.isSome = true)
    (h : Moves cfg s id (.indexing a) after) :
    s.queueStatus id = some .claimed ∨ s.queueStatus id = after := by
  cases h with
  | keep => exact Or.inr rfl
  | complete hclaimed => exact Or.inl hclaimed
  | fail hclaimed => exact Or.inl hclaimed
  | _ => cases ha

theorem answers_of_moves [DecidableEq ι] {s t : Indexing β R ρ ι} {a : IndexingAction β R ι}
    (hs : s.Sound) (h : PoolStep T cfg s (.indexing a) t)
    (hm : ∀ id, Moves cfg s id (.indexing a) (t.queueStatus id)) {w : StatusWrite ι}
    (hw : s.statusWrite T cfg a = some w) {r : QueueRow} (hr : s.db.queue w.job.fileID = some r) :
    r.status = .claimed ∨ r.status = w.status := by
  have hwritten (ha : a.fault.isSome = true) (hafter : t.queueStatus w.job.fileID = some w.status) :
      r.status = .claimed ∨ r.status = w.status := by
    have hmove := (hm w.job.fileID).of_write ha
    rw [hafter, queueStatus_of_row hr rfl] at hmove
    exact hmove.imp Option.some.inj Option.some.inj
  cases h with
  | unwritten _ hnone => cases hnone.symm.trans hw
  | @completed i fault job result readAt tries rest db prov w' hworker hfault hdb =>
    simp only [Indexing.statusWrite, hworker, Option.ite_none_right_eq_some, Option.some.injEq] at hw
    obtain ⟨-, rfl⟩ := hw
    obtain ⟨f, hf⟩ := hs.file (by simp [hr] : s.db.queue job.fileID ≠ none)
    refine hwritten rfl (queueStatus_of_row (r := IndexQueue.completedRow s.now f.markedAt r) ?_ rfl)
    rw [Indexing.setWorker_db, (IndexType.complete_ok hdb).2.1]
    exact IndexQueue.completeIndexQueue_self s.now hr hf
  | @failed i fault job cause nextAttempt tries rest w' hworker hfault =>
    simp only [Indexing.statusWrite, hworker, Option.ite_none_right_eq_some, Option.some.injEq] at hw
    obtain ⟨-, rfl⟩ := hw
    refine hwritten rfl ?_
    simp [Indexing.queueStatus, IndexQueue.failIndexQueue_self, hr, IndexQueue.failedRow]
  | _ => cases hw

theorem follows_iff_answers [DecidableEq ι] {s t : Pool β R ρ ι} {a : PoolAction β R ι}
    (hs : s.indexing.Sound) (ht : s.step T cfg a = some t) :
    FollowsLifecycle T cfg s a ↔ AnswersClaim T cfg s a := by
  constructor
  · intro h
    cases a with
    | indexing a =>
      intro w hw r hr
      exact answers_of_moves hs (poolStep_of_step ht) (h t ht) hw hr
    | _ => trivial
  · intro h u hu id
    refine moves_of_poolStep hs (poolStep_of_step hu) ?_ id
    rintro b rfl w hw r hr
    exact h w hw r hr

theorem lifecycle_iff_claims_answered [DecidableEq ι] (s : Pool β R ρ ι)
    (hs : ∀ id, s.indexing.db.queue id ≠ none → ∃ f ∈ s.indexing.db.files.rows, f.id = id)
    (hidle : ∀ i, s.indexing.workers i = .idle) (as : List (PoolAction β R ι)) :
    Transition.EveryStep (Pool.step T cfg) (FollowsLifecycle T cfg) s as ↔
      Transition.EveryStep (Pool.step T cfg) (AnswersClaim T cfg) s as := by
  exact Transition.everyStep_iff Pool.sound_preserved (fun _ _ _ => follows_iff_answers) as
    (Indexing.sound_of_idle hs hidle)

end Edges

section Runs

instance answersClaimDecidable (s : StatPool) :
    (a : PoolAction String StatResult Bool) → Decidable (AnswersClaim statIndex statConfig s a)
  | .indexing a =>
    inferInstanceAs (Decidable (∀ w ∈ s.indexing.statusWrite statIndex statConfig a,
      ∀ r ∈ s.indexing.db.queue w.job.fileID, r.status = .claimed ∨ r.status = w.status))
  | .store _ | .replaceBucket _ => isTrue trivial

def takenOver : List (PoolAction String StatResult Bool) :=
  [.indexing .seedIndexQueue, .indexing (.claim false [1]),
    .indexing (.process false (.error (ascii "timeout"))), .indexing (.tick 60),
    .indexing (.claim true [1]), .indexing (.process true (.ok draftStat)),
    .indexing (.complete true .none)]

theorem late_failure_reopens_done_row :
    ¬Transition.EveryStep (Pool.step statIndex statConfig) (FollowsLifecycle statIndex statConfig)
      twoWorkers (takenOver ++ [.indexing (.fail false .none)]) := by
  intro h
  have hexec := @Transition.EveryStep.exec _ _ _ _ _ _ takenOver _ h rfl
  obtain ⟨hlate, -⟩ := hexec _ rfl
  have hmove := (hlate _ rfl 1).of_write rfl
  exact absurd hmove (by decide)

theorem lifecycle_of_completed_takeover :
    Transition.EveryStep (Pool.step statIndex statConfig) (FollowsLifecycle statIndex statConfig)
      twoWorkers takenOver :=
  (lifecycle_iff_claims_answered twoWorkers (fun _ h => absurd rfl h) (fun _ => rfl) _).mpr
    (by decide)

end Runs

end FileIndexer
