import FileIndexer.Foundation.Runs
import FileIndexer.Service.Indexer.Runner

namespace FileIndexer

namespace Indexer

def second : Time := 1000000000

def retryDelay : Time := second / 2

structure Status where
  pollInterval : Time
  lastBeat : Option Time

def Status.beat (s : Status) (now : Time) : Status := { s with lastBeat := some now }

def staleAfter (pollInterval : Time) : Time := wrap 64 (2 * pollInterval + 10 * second)

def Status.fresh (s : Status) (now : Time) : Bool :=
  match s.lastBeat with
  | none => false
  | some last => now - last ≤ staleAfter s.pollInterval

structure RunConfig where
  pollInterval : Time
  batchSize : Nat

inductive RunPoint where
  | seed (initial : Bool)
  | claim
  | process (claimed finished : Nat)
  | statusWrite (claimed finished tries : Nat)
  | retryDelay (claimed finished tries : Nat) (since : Time)
  | sleep
  | stopped
  deriving DecidableEq

-- since is when the call, the status write with its retries or the sleep in progress began
structure RunLoop where
  point : RunPoint
  since : Time
  status : Status
  now : Time
  cancelled : Bool

inductive RunAction where
  | tick (d : Nat)
  | seeded
  | claimed (n : Nat)
  | claimFailed
  | processed
  | written (failed : Bool)
  | wake
  | cancel
  | stop

section Step

variable (cfg : RunConfig)

def RunLoop.goto (w : RunLoop) (point : RunPoint) : RunLoop := { w with point, since := w.now }

def RunLoop.beat (w : RunLoop) : RunLoop := { w with status := w.status.beat w.now }.goto .claim

def RunLoop.next (w : RunLoop) (claimed finished : Nat) : RunLoop :=
  if finished < claimed then
    if w.cancelled then w.goto .stopped else w.goto (.process claimed finished)
  else if cfg.batchSize ≤ claimed then w.beat
  else w.goto (.seed false)

-- a failed process call and a finished one both end in a status write
def RunLoop.step (w : RunLoop) : RunAction → Option RunLoop
  | .tick d =>
    match w.point with
    | .stopped => none
    | _ => some { w with now := w.now + d }
  | .seeded =>
    match w.point with
    | .seed true => some w.beat
    | .seed false => some (w.goto .sleep)
    | _ => none
  | .claimed n =>
    match w.point with
    | .claim => if n ≤ cfg.batchSize then some (w.next cfg n 0) else none
    | _ => none
  | .claimFailed =>
    match w.point with
    | .claim => some (if w.cancelled then w.goto .stopped else w.next cfg 0 0)
    | _ => none
  | .processed =>
    match w.point with
    | .process claimed finished => some (w.goto (.statusWrite claimed finished 1))
    | _ => none
  | .written failed =>
    match w.point with
    | .statusWrite claimed finished tries =>
      if failed = true ∧ tries < statusWriteTries then
        some { w with point := .retryDelay claimed finished tries w.now }
      else some (w.next cfg claimed (finished + 1))
    | _ => none
  | .wake =>
    match w.point with
    | .retryDelay claimed finished tries since =>
      if since + Indexer.retryDelay ≤ w.now then
        some { w with point := .statusWrite claimed finished (tries + 1) }
      else none
    | .sleep => if w.since + cfg.pollInterval ≤ w.now then some w.beat else none
    | _ => none
  | .cancel => some { w with cancelled := true }
  | .stop =>
    match w.point with
    | .sleep => if w.cancelled then some (w.goto .stopped) else none
    | _ => none

end Step

section Inversion

variable {cfg : RunConfig}

inductive RunStep (cfg : RunConfig) (w : RunLoop) : RunAction → RunLoop → Prop
  | ticked {d} : w.point ≠ .stopped → RunStep cfg w (.tick d) { w with now := w.now + d }
  | launched : w.point = .seed true → RunStep cfg w .seeded w.beat
  | seeded : w.point = .seed false → RunStep cfg w .seeded (w.goto .sleep)
  | claimed {n} : w.point = .claim → n ≤ cfg.batchSize → RunStep cfg w (.claimed n) (w.next cfg n 0)
  | interrupted : w.point = .claim → w.cancelled = true →
      RunStep cfg w .claimFailed (w.goto .stopped)
  | claimFailed : w.point = .claim → w.cancelled = false →
      RunStep cfg w .claimFailed (w.next cfg 0 0)
  | processed {claimed finished} : w.point = .process claimed finished →
      RunStep cfg w .processed (w.goto (.statusWrite claimed finished 1))
  | delayed {claimed finished tries} : w.point = .statusWrite claimed finished tries →
      tries < statusWriteTries →
      RunStep cfg w (.written true) { w with point := .retryDelay claimed finished tries w.now }
  | written {failed claimed finished tries} : w.point = .statusWrite claimed finished tries →
      (failed = true → statusWriteTries ≤ tries) →
      RunStep cfg w (.written failed) (w.next cfg claimed (finished + 1))
  | retried {claimed finished tries since} : w.point = .retryDelay claimed finished tries since →
      since + Indexer.retryDelay ≤ w.now →
      RunStep cfg w .wake { w with point := .statusWrite claimed finished (tries + 1) }
  | slept : w.point = .sleep → w.since + cfg.pollInterval ≤ w.now → RunStep cfg w .wake w.beat
  | cancelled : RunStep cfg w .cancel { w with cancelled := true }
  | stopped : w.point = .sleep → w.cancelled = true → RunStep cfg w .stop (w.goto .stopped)

theorem runStep_of_step {w v : RunLoop} {a : RunAction} (h : w.step cfg a = some v) :
    RunStep cfg w a v := by
  cases a with
  | tick d =>
    simp only [RunLoop.step] at h
    split at h
    · cases h
    · rename_i hpoint
      cases h
      exact .ticked hpoint
  | seeded =>
    simp only [RunLoop.step] at h
    split at h
    · rename_i hpoint
      cases h
      exact .launched hpoint
    · rename_i hpoint
      cases h
      exact .seeded hpoint
    · cases h
  | claimed n =>
    simp only [RunLoop.step] at h
    split at h
    · rename_i hpoint
      split at h
      · rename_i hn
        cases h
        exact .claimed hpoint hn
      · cases h
    · cases h
  | claimFailed =>
    simp only [RunLoop.step] at h
    split at h
    · rename_i hpoint
      obtain rfl := Option.some.inj h
      split
      · rename_i hcancelled
        exact .interrupted hpoint hcancelled
      · rename_i hcancelled
        exact .claimFailed hpoint (Bool.eq_false_of_not_eq_true hcancelled)
    · cases h
  | processed =>
    simp only [RunLoop.step] at h
    split at h
    · rename_i hpoint
      cases h
      exact .processed hpoint
    · cases h
  | written failed =>
    simp only [RunLoop.step] at h
    split at h
    · rename_i hpoint
      split at h
      · rename_i hretry
        obtain ⟨rfl, htries⟩ := hretry
        cases h
        exact .delayed hpoint htries
      · rename_i hretry
        cases h
        exact .written hpoint fun hfailed => not_lt.mp fun htries => hretry ⟨hfailed, htries⟩
    · cases h
  | wake =>
    simp only [RunLoop.step] at h
    split at h
    · rename_i hpoint
      split at h
      · rename_i hwaited
        cases h
        exact .retried hpoint hwaited
      · cases h
    · rename_i hpoint
      split at h
      · rename_i hslept
        cases h
        exact .slept hpoint hslept
      · cases h
    · cases h
  | cancel => cases h; exact .cancelled
  | stop =>
    simp only [RunLoop.step] at h
    split at h
    · rename_i hpoint
      split at h
      · rename_i hcancelled
        cases h
        exact .stopped hpoint hcancelled
      · cases h
    · cases h

end Inversion

section Property

variable (cfg : RunConfig) (call write : Nat)

structure RunLoop.Initial (w : RunLoop) : Prop where
  point : w.point = .seed true
  since : w.since = w.now
  status : w.status = ⟨cfg.pollInterval, none⟩

def RunPoint.lasts : RunPoint → Time
  | .seed _ | .claim | .process _ _ => call
  | .statusWrite _ _ _ | .retryDelay _ _ _ _ => write
  | .sleep => max 0 cfg.pollInterval
  | .stopped => 0

def InTime (w : RunLoop) : RunAction → Prop
  | .tick d => w.now + d ≤ w.since + w.point.lasts cfg call write
  | _ => True

def RunLoop.ReportedFresh (w : RunLoop) : Prop :=
  w.status.lastBeat ≠ none → w.status.fresh w.now = true

def AlwaysFresh : Prop :=
  ∀ w : RunLoop, w.Initial cfg → ∀ as,
    Transition.EveryStep (RunLoop.step cfg) (InTime cfg call write) w as →
      Transition.EveryState (RunLoop.step cfg) RunLoop.ReportedFresh w as

def jobsTime (n : Nat) : Nat := n * (call + write)

structure TurnFits : Prop where
  full : (call : Time) + jobsTime call write cfg.batchSize ≤ staleAfter cfg.pollInterval
  drained : cfg.batchSize ≠ 0 → (call : Time) + jobsTime call write (cfg.batchSize - 1) + call +
    max 0 cfg.pollInterval ≤ staleAfter cfg.pollInterval

end Property

section Invariant

variable {cfg : RunConfig} {call write : Nat}

theorem jobsTime_succ (n : Nat) :
    jobsTime call write (n + 1) = jobsTime call write n + (call + write) :=
  Nat.succ_mul n (call + write)

theorem jobsTime_mono {m n : Nat} (h : m ≤ n) : jobsTime call write m ≤ jobsTime call write n :=
  Nat.mul_le_mul_right _ h

def RunPoint.begins (cfg : RunConfig) (call write : Nat) : RunPoint → Time
  | .claim => 0
  | .process _ finished => call + jobsTime call write finished
  | .statusWrite _ finished _ | .retryDelay _ finished _ _ => call + jobsTime call write finished + call
  | .seed _ => call + jobsTime call write (cfg.batchSize - 1)
  | .sleep => call + jobsTime call write (cfg.batchSize - 1) + call
  | .stopped => staleAfter cfg.pollInterval

def RunPoint.InBatch (cfg : RunConfig) : RunPoint → Prop
  | .process claimed finished | .statusWrite claimed finished _ | .retryDelay claimed finished _ _ =>
    finished < claimed ∧ claimed ≤ cfg.batchSize
  | .seed false | .sleep => cfg.batchSize ≠ 0
  | _ => True

structure RunLoop.Inv (cfg : RunConfig) (call write : Nat) (w : RunLoop) : Prop where
  pollInterval : w.status.pollInterval = cfg.pollInterval
  unbeaten : w.point = .seed true → w.status.lastBeat = none
  batch : w.point.InBatch cfg
  running : w.now ≤ w.since + w.point.lasts cfg call write
  began : ∀ last, w.status.lastBeat = some last →
    w.since - last ≤ w.point.begins cfg call write

theorem turn_le (hfits : TurnFits cfg call write) {p : RunPoint} (hbatch : p.InBatch cfg)
    (hp : p ≠ .seed true) :
    p.begins cfg call write + p.lasts cfg call write ≤ staleAfter cfg.pollInterval := by
  have hfull := hfits.full
  have hjob {claimed finished : Nat} (h : finished < claimed ∧ claimed ≤ cfg.batchSize) :
      (jobsTime call write finished : Time) + (call + write) ≤ jobsTime call write cfg.batchSize := by
    have hmono : jobsTime call write (finished + 1) ≤ jobsTime call write cfg.batchSize :=
      jobsTime_mono (by omega)
    rw [jobsTime_succ] at hmono
    exact_mod_cast hmono
  cases p with
  | seed initial =>
    cases initial with
    | true => exact absurd rfl hp
    | false =>
      have hdrained := hfits.drained hbatch
      have hsleep : 0 ≤ max 0 cfg.pollInterval := le_max_left _ _
      simp only [RunPoint.begins, RunPoint.lasts]
      linarith
  | claim =>
    have hnonneg : (0 : Time) ≤ jobsTime call write cfg.batchSize := Int.natCast_nonneg _
    simp only [RunPoint.begins, RunPoint.lasts]
    linarith
  | process claimed finished =>
    have hdone := hjob hbatch
    have hwrite : (0 : Time) ≤ write := Int.natCast_nonneg _
    simp only [RunPoint.begins, RunPoint.lasts]
    linarith
  | statusWrite claimed finished tries =>
    have hdone := hjob hbatch
    simp only [RunPoint.begins, RunPoint.lasts]
    linarith
  | retryDelay claimed finished tries since =>
    have hdone := hjob hbatch
    simp only [RunPoint.begins, RunPoint.lasts]
    linarith
  | sleep =>
    have hdrained := hfits.drained hbatch
    simp only [RunPoint.begins, RunPoint.lasts]
    linarith
  | stopped => simp [RunPoint.begins, RunPoint.lasts]

theorem lasts_nonneg (p : RunPoint) : 0 ≤ p.lasts cfg call write := by
  cases p with
  | seed _ | claim | process _ _ => exact Int.natCast_nonneg call
  | statusWrite _ _ _ | retryDelay _ _ _ _ => exact Int.natCast_nonneg write
  | sleep => exact le_max_left _ _
  | stopped => exact le_refl _

theorem RunLoop.Inv.elapsed {w : RunLoop} (hw : w.Inv cfg call write) {last : Time}
    (hlast : w.status.lastBeat = some last) :
    w.now - last ≤ w.point.begins cfg call write + w.point.lasts cfg call write := by
  have hrunning := hw.running
  have hbegan := hw.began last hlast
  linarith

theorem RunLoop.Inv.inBatch {w : RunLoop} (hw : w.Inv cfg call write) {p : RunPoint}
    (hpoint : w.point = p) : p.InBatch cfg := hpoint ▸ hw.batch

theorem RunLoop.Inv.goto {w : RunLoop} (hw : w.Inv cfg call write) {p : RunPoint}
    (hseed : p ≠ .seed true) (hbatch : p.InBatch cfg)
    (hbegins : w.point.begins cfg call write + w.point.lasts cfg call write ≤
      p.begins cfg call write) : (w.goto p).Inv cfg call write where
  pollInterval := hw.pollInterval
  unbeaten hp := absurd hp hseed
  batch := hbatch
  running := le_add_of_nonneg_right (lasts_nonneg p)
  began _ hlast := (hw.elapsed hlast).trans hbegins

theorem RunLoop.Inv.beat {w : RunLoop} (hw : w.Inv cfg call write) :
    w.beat.Inv cfg call write where
  pollInterval := hw.pollInterval
  unbeaten hp := by cases hp
  batch := trivial
  running := le_add_of_nonneg_right (lasts_nonneg .claim)
  began last hlast := by
    obtain rfl := Option.some.inj hlast
    exact le_of_eq (sub_self w.now)

theorem RunLoop.Inv.next {w : RunLoop} (hw : w.Inv cfg call write) (hfits : TurnFits cfg call write)
    (hseed : w.point ≠ .seed true) {claimed finished : Nat} (hfinished : finished ≤ claimed)
    (hclaimed : claimed ≤ cfg.batchSize)
    (hbegins : w.point.begins cfg call write + w.point.lasts cfg call write ≤
      call + jobsTime call write finished) :
    (w.next cfg claimed finished).Inv cfg call write := by
  unfold RunLoop.next
  split
  · rename_i hmore
    split
    · exact hw.goto nofun trivial (turn_le hfits hw.batch hseed)
    · exact hw.goto nofun ⟨hmore, hclaimed⟩ hbegins
  · rename_i hlast
    split
    · exact hw.beat
    · rename_i hfull
      have hmono : (jobsTime call write finished : Time) ≤
          jobsTime call write (cfg.batchSize - 1) :=
        Int.ofNat_le.mpr (jobsTime_mono (by omega))
      have hbatch : cfg.batchSize ≠ 0 := by omega
      refine hw.goto nofun hbatch (hbegins.trans ?_)
      exact add_le_add_right hmono call

theorem RunLoop.Inv.repoint {w : RunLoop} (hw : w.Inv cfg call write) {p p' : RunPoint}
    (hpoint : w.point = p) (hseed : p' ≠ .seed true) (hbatch : p.InBatch cfg → p'.InBatch cfg)
    (hlasts : p'.lasts cfg call write = p.lasts cfg call write)
    (hbegins : p'.begins cfg call write = p.begins cfg call write) :
    { w with point := p' }.Inv cfg call write where
  pollInterval := hw.pollInterval
  unbeaten hp := absurd hp hseed
  batch := hbatch (hw.inBatch hpoint)
  running := by
    have hrunning := hw.running
    rwa [hpoint, ← hlasts] at hrunning
  began last hlast := by
    have hbegan := hw.began last hlast
    rwa [hpoint, ← hbegins] at hbegan

theorem inv_preserved (hfits : TurnFits cfg call write) :
    Transition.Preserves (RunLoop.step cfg) (InTime cfg call write) (RunLoop.Inv cfg call write) := by
  intro w a v hw hok hv
  cases runStep_of_step hv with
  | ticked => exact ⟨hw.pollInterval, hw.unbeaten, hw.batch, hok, hw.began⟩
  | launched => exact hw.beat
  | seeded hpoint =>
    have hbatch : cfg.batchSize ≠ 0 := hw.inBatch hpoint
    refine hw.goto (by simp) hbatch ?_
    rw [hpoint]
    exact le_refl _
  | claimed hpoint hn =>
    apply hw.next hfits (by simp [hpoint]) (Nat.zero_le _) hn
    simp [hpoint, RunPoint.begins, RunPoint.lasts, jobsTime]
  | interrupted hpoint =>
    exact hw.goto (by simp) trivial (turn_le hfits hw.batch (by simp [hpoint]))
  | claimFailed hpoint =>
    apply hw.next hfits (by simp [hpoint]) (le_refl 0) (Nat.zero_le _)
    simp [hpoint, RunPoint.begins, RunPoint.lasts, jobsTime]
  | @processed claimed finished hpoint =>
    have hbatch : finished < claimed ∧ claimed ≤ cfg.batchSize := hw.inBatch hpoint
    refine hw.goto (by simp) hbatch ?_
    rw [hpoint]
    exact le_refl _
  | delayed hpoint => exact hw.repoint hpoint (by simp) (fun h => h) rfl rfl
  | @written failed claimed finished tries hpoint =>
    have hbatch : finished < claimed ∧ claimed ≤ cfg.batchSize := hw.inBatch hpoint
    apply hw.next hfits (by simp [hpoint]) hbatch.1 hbatch.2
    rw [hpoint, jobsTime_succ]
    simp only [RunPoint.begins, RunPoint.lasts, Nat.cast_add]
    linarith
  | retried hpoint => exact hw.repoint hpoint (by simp) (fun h => h) rfl rfl
  | slept => exact hw.beat
  | cancelled => exact ⟨hw.pollInterval, hw.unbeaten, hw.batch, hw.running, hw.began⟩
  | stopped hpoint =>
    exact hw.goto (by simp) trivial (turn_le hfits hw.batch (by simp [hpoint]))

theorem RunLoop.Inv.fresh {w : RunLoop} (hw : w.Inv cfg call write) (hfits : TurnFits cfg call write) :
    w.ReportedFresh := by
  intro hbeaten
  obtain ⟨last, hlast⟩ := Option.ne_none_iff_exists'.mp hbeaten
  have hseed : w.point ≠ .seed true := fun hp => hbeaten (hw.unbeaten hp)
  have hle : w.now - last ≤ staleAfter w.status.pollInterval := by
    rw [hw.pollInterval]
    exact (hw.elapsed hlast).trans (turn_le hfits hw.batch hseed)
  simpa [Status.fresh, hlast] using hle

end Invariant

section SlowTurn

variable {cfg : RunConfig} {call write : Nat}

def launched (cfg : RunConfig) : RunLoop where
  point := .seed true
  since := 0
  status := ⟨cfg.pollInterval, none⟩
  now := 0
  cancelled := false

structure Slow (cfg : RunConfig) (call write : Nat) (elapsed : Time) (w : RunLoop) : Prop where
  reaches : Transition.Reaches (RunLoop.step cfg) (InTime cfg call write) (launched cfg) w
  now : w.now = elapsed
  status : w.status = ⟨cfg.pollInterval, some 0⟩
  running : w.cancelled = false

theorem Slow.tick {elapsed : Time} {w : RunLoop} (h : Slow cfg call write elapsed w)
    (hsince : w.since = w.now) (hpoint : w.point ≠ .stopped) {d : Nat}
    (hd : (d : Time) ≤ w.point.lasts cfg call write) :
    Slow cfg call write (elapsed + d) { w with now := w.now + d } := by
  refine ⟨h.reaches.tail (a := .tick d) ?_ ?_, congrArg (· + (d : Time)) h.now, h.status, h.running⟩
  · show w.now + d ≤ w.since + w.point.lasts cfg call write
    rw [hsince]
    exact add_le_add_right hd w.now
  · simp only [RunLoop.step]

theorem Slow.goto {elapsed : Time} {w : RunLoop} (h : Slow cfg call write elapsed w) {a : RunAction}
    {p : RunPoint} (hstep : w.step cfg a = some (w.goto p))
    (hok : InTime cfg call write w a) : Slow cfg call write elapsed (w.goto p) :=
  ⟨h.reaches.tail hok hstep, h.now, h.status, h.running⟩

theorem RunLoop.next_of_lt {w : RunLoop} {claimed finished : Nat} (h : finished < claimed)
    (hw : w.cancelled = false) : w.next cfg claimed finished = w.goto (.process claimed finished) := by
  simp [RunLoop.next, h, hw]

theorem RunLoop.next_self {w : RunLoop} {claimed : Nat} (h : claimed < cfg.batchSize) :
    w.next cfg claimed claimed = w.goto (.seed false) := by
  simp [RunLoop.next, h]

theorem slow_claim (cfg : RunConfig) (call write : Nat) : Slow cfg call write 0 (launched cfg).beat :=
  ⟨.tail .refl (a := .seeded) trivial rfl, rfl, rfl, rfl⟩

theorem slow_jobs (call write : Nat) {claimed : Nat} (hclaimed : claimed ≤ cfg.batchSize)
    {finished : Nat}
    (hfinished : finished ≤ claimed) :
    ∃ w a, Slow cfg call write (call + jobsTime call write finished) w ∧
      InTime cfg call write w a ∧ w.step cfg a = some (w.next cfg claimed finished) := by
  induction finished with
  | zero =>
    have hcalled := (slow_claim cfg call write).tick rfl nofun
      (d := call) (le_refl _)
    have htime : (0 : Time) + call = call + jobsTime call write 0 := by simp [jobsTime]
    rw [htime] at hcalled
    exact ⟨_, .claimed claimed, hcalled, trivial, if_pos hclaimed⟩
  | succ finished ih =>
    obtain ⟨w, a, hw, hok, hstep⟩ := ih (by omega)
    rw [RunLoop.next_of_lt hfinished hw.running] at hstep
    have hprocessed := (hw.goto hstep hok).tick rfl nofun (d := call) (le_refl _)
    have hwriting := hprocessed.goto (a := .processed) rfl trivial
    have hwritten := hwriting.tick rfl nofun (d := write) (le_refl _)
    have htime : (call : Time) + jobsTime call write finished + call + write =
        call + jobsTime call write (finished + 1) := by
      rw [jobsTime_succ]
      push_cast
      ring
    rw [htime] at hwritten
    exact ⟨_, .written false, hwritten, trivial, rfl⟩

theorem slow_drained (call write : Nat) (h : cfg.batchSize ≠ 0) :
    ∃ w, Slow cfg call write (call + jobsTime call write (cfg.batchSize - 1) + call +
      max 0 cfg.pollInterval) w := by
  have hlt : cfg.batchSize - 1 < cfg.batchSize := by omega
  obtain ⟨w, a, hw, hok, hstep⟩ := slow_jobs call write hlt.le (le_refl _)
  rw [RunLoop.next_self hlt] at hstep
  have hseeded := (hw.goto hstep hok).tick rfl nofun (d := call) (le_refl _)
  have hsleep := hseeded.goto (a := .seeded) rfl trivial
  have hnonneg : 0 ≤ max 0 cfg.pollInterval := le_max_left _ _
  have hwoken := hsleep.tick rfl nofun (d := (max 0 cfg.pollInterval).toNat)
    (le_of_eq (Int.toNat_of_nonneg hnonneg))
  rw [Int.toNat_of_nonneg hnonneg] at hwoken
  exact ⟨_, hwoken⟩

theorem Slow.le_of_fresh (hfresh : AlwaysFresh cfg call write) {elapsed : Time} {w : RunLoop}
    (h : Slow cfg call write elapsed w) : elapsed ≤ staleAfter cfg.pollInterval := by
  obtain ⟨as, hexec, hsteps⟩ := h.reaches.exists_run
  have hreported := (hfresh (launched cfg) ⟨rfl, rfl, rfl⟩ as hsteps).last hexec
  have hle := hreported (by rw [h.status]; nofun)
  simpa [Status.fresh, h.status, h.now] using hle

theorem AlwaysFresh.turnFits (hfresh : AlwaysFresh cfg call write) : TurnFits cfg call write := by
  refine ⟨?_, fun hbatch => ?_⟩
  · obtain ⟨w, -, hw, -, -⟩ := slow_jobs call write (le_refl cfg.batchSize) (le_refl _)
    exact hw.le_of_fresh hfresh
  · obtain ⟨w, hw⟩ := slow_drained call write hbatch
    exact hw.le_of_fresh hfresh

theorem TurnFits.alwaysFresh (hfits : TurnFits cfg call write) : AlwaysFresh cfg call write := by
  intro w hw as hok
  have hstart : w.Inv cfg call write := by
    refine ⟨by rw [hw.status], fun _ => by rw [hw.status], ?_, ?_, fun last hlast => ?_⟩
    · rw [hw.point]
      trivial
    · rw [hw.since]
      exact le_add_of_nonneg_right (lasts_nonneg w.point)
    · rw [hw.status] at hlast
      cases hlast
  exact (Transition.everyState_of_preserves (inv_preserved hfits) as hstart hok).mono
    fun v hv => hv.fresh hfits

theorem always_fresh_iff (cfg : RunConfig) (call write : Nat) :
    AlwaysFresh cfg call write ↔ TurnFits cfg call write :=
  ⟨AlwaysFresh.turnFits, TurnFits.alwaysFresh⟩

theorem staleAfter_eq {pollInterval : Time} (hpoll : 0 ≤ pollInterval)
    (hmax : 2 * pollInterval + 10 * second < 2 ^ 63) :
    staleAfter pollInterval = 2 * pollInterval + 10 * second := by
  have hsecond : second = 1000000000 := rfl
  rw [hsecond] at hmax
  unfold staleAfter wrap
  rw [hsecond]
  exact Int.bmod_eq_of_le (by norm_num; linarith) (by norm_num; linarith)

theorem fresh_below_stale_iff {cfg : RunConfig} (hpoll : 0 ≤ cfg.pollInterval)
    (hmax : 2 * cfg.pollInterval + 10 * second < 2 ^ 63)
    (hcall : (call : Time) + 1 = staleAfter cfg.pollInterval) :
    AlwaysFresh cfg call call ↔ cfg.batchSize = 0 := by
  have hsecond : second = 1000000000 := rfl
  constructor
  · intro hfresh
    by_contra hbatch
    have hdrained := hfresh.turnFits.drained hbatch
    have hjobs : (0 : Time) ≤ jobsTime call call (cfg.batchSize - 1) := Int.natCast_nonneg _
    have hsleep : 0 ≤ max 0 cfg.pollInterval := le_max_left _ _
    have hstale := staleAfter_eq hpoll hmax
    rw [hsecond] at hstale
    linarith
  · intro hbatch
    refine TurnFits.alwaysFresh ⟨?_, fun h => absurd hbatch h⟩
    rw [← hcall]
    simp [hbatch, jobsTime]

end SlowTurn

section Batch

instance InTime.decidable (cfg : RunConfig) (call write : Nat) (w : RunLoop) :
    (a : RunAction) → Decidable (InTime cfg call write w a)
  | .tick d => inferInstanceAs (Decidable (w.now + d ≤ w.since + w.point.lasts cfg call write))
  | .seeded | .claimed _ | .claimFailed | .processed | .written _ | .wake | .cancel | .stop =>
    isTrue trivial

instance RunLoop.decidableReportedFresh (w : RunLoop) : Decidable w.ReportedFresh :=
  inferInstanceAs (Decidable (w.status.lastBeat ≠ none → w.status.fresh w.now = true))

def defaultConfig : RunConfig := ⟨5 * second, 32⟩

def threeSecondJob : List RunAction := [.tick 3000000000, .processed, .written false]

theorem working_loop_reported_stale : ¬AlwaysFresh defaultConfig 19999999999 19999999999 := by
  intro h
  have hfresh := h (launched defaultConfig) ⟨rfl, rfl, rfl⟩
    ([.seeded, .claimed 7] ++ (List.replicate 7 threeSecondJob).flatten) (by decide)
  exact absurd hfresh (by decide)

end Batch

end Indexer

end FileIndexer
