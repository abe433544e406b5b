import FileIndexer.Service.Indexer.Heartbeat

namespace FileIndexer

-- the variable as strconv.Atoi reads it; none where it is unset or malformed
def getEnvInt (v : Option Int) (default : Int) : Int := v.getD default

def loadBatchSize (v : Option Int) : Int := wrap 32 (getEnvInt v 32)

namespace Indexer

-- a negative batch size and 0 compare alike with the number of jobs claimed
def runConfig (pollInterval : Time) (v : Option Int) : RunConfig :=
  ⟨pollInterval, (loadBatchSize v).toNat⟩

theorem full_batch_iff (pollInterval : Time) (v : Option Int) (claimed : Nat) :
    (runConfig pollInterval v).batchSize ≤ claimed ↔ loadBatchSize v ≤ claimed :=
  Int.toNat_le

inductive LoopEvent where
  | claim (jobs : Nat)
  | seed
  | wait (slept : Time)
  deriving DecidableEq

def RunLoop.event (w : RunLoop) : RunAction → Option LoopEvent
  | .claimed n => some (.claim n)
  | .claimFailed => some (.claim 0)
  | .seeded => some .seed
  | .wake => if w.point = .sleep then some (.wait (w.now - w.since)) else none
  | _ => none

def RunLoop.events (cfg : RunConfig) : RunLoop → List RunAction → List LoopEvent
  | _, [] => []
  | w, a :: as =>
    match w.step cfg a with
    | none => []
    | some t => (w.event a).toList ++ RunLoop.events cfg t as

def WaitsFirst (pollInterval : Time) : List LoopEvent → Prop
  | [] => True
  | .wait slept :: _ => pollInterval ≤ slept
  | _ => False

def SeedsFirst (pollInterval : Time) : List LoopEvent → Prop
  | [] => True
  | .seed :: es => WaitsFirst pollInterval es
  | _ => False

def SeedsAndWaits (pollInterval : Time) : List LoopEvent → Prop
  | [] => True
  | e :: es => (e = .claim 0 → SeedsFirst pollInterval es) ∧ SeedsAndWaits pollInterval es

section Calm

variable {cfg : RunConfig}

structure Calm (pollInterval : Time) (point : RunPoint) (es : List LoopEvent) : Prop where
  all : SeedsAndWaits pollInterval es
  seed : point = .seed false → SeedsFirst pollInterval es
  sleep : point = .sleep → WaitsFirst pollInterval es
  stopped : point = .stopped → es = []

theorem RunLoop.events_cons {w t : RunLoop} {a : RunAction} (h : w.step cfg a = some t)
    (as : List RunAction) : w.events cfg (a :: as) = (w.event a).toList ++ t.events cfg as := by
  rw [RunLoop.events, h]

theorem Calm.of_silent {p : Time} {point point' : RunPoint} {es : List LoopEvent}
    (h : Calm p point' es) (hseed : point ≠ .seed false) (hsleep : point = .sleep → point' = .stopped)
    (hstopped : point ≠ .stopped) : Calm p point es where
  all := h.all
  seed hp := absurd hp hseed
  sleep hp := by
    rw [h.stopped (hsleep hp)]
    trivial
  stopped hp := absurd hp hstopped

theorem Calm.of_event {p : Time} {point point' : RunPoint} {es : List LoopEvent} {e : LoopEvent}
    (h : Calm p point' es) (he : e = .claim 0 → SeedsFirst p es)
    (hseed : point = .seed false → SeedsFirst p (e :: es))
    (hsleep : point = .sleep → WaitsFirst p (e :: es)) (hstopped : point ≠ .stopped) :
    Calm p point (e :: es) where
  all := ⟨he, h.all⟩
  seed := hseed
  sleep := hsleep
  stopped hp := absurd hp hstopped

theorem next_empty (hbatch : cfg.batchSize ≠ 0) (w : RunLoop) :
    (w.next cfg 0 0).point = .seed false := by
  rw [RunLoop.next, if_neg (Nat.lt_irrefl 0), if_neg (by omega)]
  rfl

theorem calm_events (hbatch : cfg.batchSize ≠ 0) (as : List RunAction) (w : RunLoop) :
    Calm cfg.pollInterval w.point (w.events cfg as) := by
  induction as generalizing w with
  | nil => exact ⟨trivial, fun _ => trivial, fun _ => trivial, fun _ => rfl⟩
  | cons a as ih =>
    cases ht : w.step cfg a with
    | none =>
      rw [RunLoop.events, ht]
      exact ⟨trivial, fun _ => trivial, fun _ => trivial, fun _ => rfl⟩
    | some t =>
      rw [RunLoop.events_cons ht]
      have hrest := ih t
      cases runStep_of_step ht with
      | ticked => exact hrest
      | cancelled => exact hrest
      | launched hpoint =>
        refine hrest.of_event (by simp) ?_ ?_ ?_ <;> simp [hpoint]
      | seeded hpoint =>
        refine hrest.of_event (by simp) (fun _ => hrest.sleep rfl) ?_ ?_ <;> simp [hpoint]
      | claimed hpoint hn =>
        refine hrest.of_event (fun he => ?_) ?_ ?_ ?_
        · obtain rfl := LoopEvent.claim.inj he
          exact hrest.seed (next_empty hbatch w)
        all_goals simp [hpoint]
      | interrupted hpoint =>
        refine hrest.of_event (fun _ => ?_) ?_ ?_ ?_
        · rw [hrest.stopped rfl]
          trivial
        all_goals simp [hpoint]
      | claimFailed hpoint =>
        refine hrest.of_event (fun _ => hrest.seed (next_empty hbatch w)) ?_ ?_ ?_ <;> simp [hpoint]
      | processed hpoint =>
        refine hrest.of_silent ?_ ?_ ?_ <;> simp [hpoint]
      | delayed hpoint =>
        refine hrest.of_silent ?_ ?_ ?_ <;> simp [hpoint]
      | written hpoint =>
        refine hrest.of_silent ?_ ?_ ?_ <;> simp [hpoint]
      | retried hpoint =>
        rw [RunLoop.event, if_neg (by simp [hpoint])]
        refine hrest.of_silent ?_ ?_ ?_ <;> simp [hpoint]
      | slept hpoint hslept =>
        rw [RunLoop.event, if_pos hpoint]
        refine hrest.of_event (by simp) ?_ (fun _ => ?_) ?_
        · simp [hpoint]
        · exact le_sub_left_of_add_le hslept
        · simp [hpoint]
      | stopped hpoint =>
        refine hrest.of_silent ?_ (fun _ => rfl) ?_ <;> simp [hpoint]

end Calm

def loopStart (cfg : RunConfig) : RunLoop := ⟨.seed true, 0, ⟨cfg.pollInterval, none⟩, 0, false⟩

theorem loopStart_initial (cfg : RunConfig) : (loopStart cfg).Initial cfg := ⟨rfl, rfl, rfl⟩

theorem events_spin {cfg : RunConfig} (hbatch : cfg.batchSize = 0) {a : RunAction}
    (ha : a = .claimed 0 ∨ a = .claimFailed) :
    (loopStart cfg).events cfg [.seeded, a, a] = [.seed, .claim 0, .claim 0] := by
  rcases ha with rfl | rfl <;>
    simp [RunLoop.events, RunLoop.step, loopStart, RunLoop.event, RunLoop.next, RunLoop.beat,
      RunLoop.goto, hbatch]

theorem empty_claims_wait_iff (pollInterval : Time) (v : Option Int) :
    (∀ w : RunLoop, w.Initial (runConfig pollInterval v) → ∀ as,
      SeedsAndWaits pollInterval (w.events (runConfig pollInterval v) as)) ↔
        0 < loadBatchSize v := by
  have hzero : (runConfig pollInterval v).batchSize = 0 ↔ loadBatchSize v ≤ 0 := Int.toNat_eq_zero
  constructor
  · intro h
    by_contra hle
    have hspin := h _ (loopStart_initial _) [.seeded, .claimFailed, .claimFailed]
    rw [events_spin (hzero.mpr (not_lt.mp hle)) (Or.inr rfl)] at hspin
    exact hspin.2.1 rfl
  · intro hpos w _ as
    exact (calm_events (fun h => absurd (hzero.mp h) (not_le.mpr hpos)) as w).all

theorem zero_batch_spins : ¬∀ as, SeedsAndWaits (5 * second)
    ((loopStart (runConfig (5 * second) (some 0))).events (runConfig (5 * second) (some 0)) as) := by
  intro h
  have hspin := h [.seeded, .claimed 0, .claimed 0]
  rw [events_spin (by decide) (Or.inl rfl)] at hspin
  exact hspin.2.1 rfl

end Indexer

end FileIndexer
