import Metaheuristics.Proofs.Annealing.Course
import Metaheuristics.Proofs.Outcomes.BestOfRun
import Metaheuristics.Proofs.Search.Truncation
import Metaheuristics.Proofs.Swarm.Course

/-!
# The iteration limit cuts a run short

Nothing in a swarm or in annealing depends on the iteration limit but the point at which a run
stops.  So a run with a smaller limit is the beginning of the run with a larger one: where that one
has an outcome, this one has one too, with the first iterations and the first entries of the
history, and the solutions of the longer run are no worse (`iteration_limit_truncates`).
-/

namespace Metaheuristics

variable {γ σ V : Type} {m : Model γ σ V} {host : Host σ} {w w' : World γ σ}
  {rounds n n' : Nat} {clock : σ → Duration}

/-- **An outcome that is another one cut short** by a limit of `n` iterations. -/
structure Outcome.Truncates (m : Model γ σ V) (n : Nat) (short long : Outcome V) : Prop where
  iterations : short.iterations = min (n + 1) long.iterations
  history : short.history = long.history.take (n + 1)
  /-- A run that ends before the limit is passed is not cut. -/
  same : long.iterations ≤ n → short = long
  /-- The longer run finds nothing worse. -/
  first : ∀ P, m.Ordered P → ∃ first first', short.solutions.head? = some first ∧
    long.solutions.head? = some first' ∧ m.compareCandidates first' first ≠ .gt

/-- **Where a search cut short ends**, its outcome is read off as the other one cut short. -/
theorem Search.Truncated.outcome {S B : Type} {criteria : StopCriteria} {e : Engine γ σ V S B}
    {s : S} {reason reason' : StopReason} {q p : Progress V S} {u v w' : World γ σ} {stop : Bool}
    {criteria' : StopCriteria} {host' : Host σ} {elite : S → List (Candidate V)}
    (h : Search.Truncated host m criteria e n reason q v reason' p w')
    (hq : Search.Reaches host' m criteria' e (Search.begin s) u stop q v)
    (hfirst : ∀ P, m.Ordered P → ∃ first first', (elite q.engine).head? = some first ∧
      (elite p.engine).head? = some first' ∧ m.compareCandidates first' first ≠ .gt) :
    Outcome.Truncates m n ⟨elite q.engine, q.tracker.iteration, reason, q.history.toList⟩
      ⟨elite p.engine, p.tracker.iteration, reason', p.history.toList⟩ := by
  have hiteration := h.iteration
  refine ⟨hiteration, h.history ?_, fun hle => ?_, hfirst⟩
  · obtain ⟨legs, hlegs⟩ := hq.course
    have hcount := hlegs.iteration
    have hsize := hlegs.history
    have hzero : (Search.begin s : Progress V S).tracker.iteration = 0 := rfl
    have hempty : (Search.begin s : Progress V S).history.size = 0 := rfl
    omega
  · have hle' : p.tracker.iteration ≤ n := hle
    rcases h.same with hlimit | ⟨rfl, rfl⟩
    · omega
    · rfl

variable [Random.Source γ]

namespace Swarm

/-- The settings with an iteration limit. -/
def Settings.withIterationLimit (settings : Settings) (n : Nat) : Settings :=
  { settings with criteria := settings.criteria.withIterationLimit n }

variable {settings : Settings}

theorem truncates_of_run {o' : Outcome V} (hle : n ≤ n')
    (htime : settings.criteria.timeLimit = none)
    (h : (run m (settings.withIterationLimit n') host rounds).exec w = (.ok (some o'), w')) :
    ∃ o v, (run m (settings.withIterationLimit n) (host.withClock clock) rounds).exec w
      = (.ok (some o), v) ∧ o.Truncates m n o' := by
  obtain ⟨_, _, hrequire, h⟩ := Run.bind_eq_ok.mp h
  obtain ⟨hcheck, rfl⟩ := Run.require_eq_ok.mp hrequire
  obtain ⟨s, u, hs, h⟩ := Run.bind_eq_ok.mp h
  obtain ⟨reason, q, v, reason', p, stop, stop', hrun, rfl, hq, hp, htruncated⟩ :=
    Search.result_withIterationLimit clock hle htime h
  refine ⟨outcome reason q, v, ?_, htruncated.outcome hq fun P hm => ?_⟩
  · refine Run.bind_eq_ok.mpr ⟨(), _, Run.require_eq_ok.mpr ⟨hcheck, rfl⟩, ?_⟩
    exact Run.bind_eq_ok.mpr ⟨s, u, hs, hrun⟩
  · have hvisits : Visits m (settings.withIterationLimit n) (host.withClock clock) _ stop q v :=
      ⟨hcheck, s, u, hs, hq⟩
    have hvisits' : Visits m (settings.withIterationLimit n') host _ stop' p w' :=
      ⟨hcheck, s, u, hs, hp⟩
    obtain ⟨legs, stop'', hcourse⟩ := htruncated.goes_on
    exact ⟨_, _, (leading hm _ _ _).head hvisits, (leading hm _ _ _).head hvisits',
      (hcourse.record_le hm (challenged_of_course hcourse) (ordered_of_course hm hcourse)
        ((leading hm _ _ _).ordered hvisits)).2⟩

end Swarm

namespace Annealing

/-- The settings with an iteration limit. -/
def Settings.withIterationLimit (settings : Settings) (n : Nat) : Settings :=
  { settings with criteria := settings.criteria.withIterationLimit n }

variable {settings : Settings}

theorem trials_withIterationLimit (n : Nat) (math : Elementary) (temperature : Float) (amount : Nat)
    (b : Batch V) : trials m (settings.withIterationLimit n) math temperature amount b
      = trials m settings math temperature amount b := by
  induction amount generalizing b with
  | zero => rfl
  | succ amount ih =>
    have htrial : trial m (settings.withIterationLimit n) math temperature b
      = trial m settings math temperature b := rfl
    rw [trials, trials, htrial]
    exact bind_congr ih

theorem engine_withIterationLimit (n : Nat) (host : Host σ) :
    engine m (settings.withIterationLimit n) host = engine m settings host := by
  have hexplore : explore m (settings.withIterationLimit n) host.math
      = explore m settings host.math :=
    funext fun s => trials_withIterationLimit n host.math s.temperature settings.markovLength _
  unfold engine
  rw [hexplore]
  rfl

theorem truncates_of_run {o' : Outcome V} (hle : n ≤ n')
    (htime : settings.criteria.timeLimit = none)
    (h : (run m (settings.withIterationLimit n') host rounds).exec w = (.ok (some o'), w')) :
    ∃ o v, (run m (settings.withIterationLimit n) (host.withClock clock) rounds).exec w
      = (.ok (some o), v) ∧ o.toOutcome.Truncates m n o'.toOutcome := by
  obtain ⟨_, _, hrequire, h⟩ := Run.bind_eq_ok.mp h
  obtain ⟨hcheck, rfl⟩ := Run.require_eq_ok.mp hrequire
  obtain ⟨_, _, hrequire', h⟩ := Run.bind_eq_ok.mp h
  obtain ⟨hdimension, rfl⟩ := Run.require_eq_ok.mp hrequire'
  obtain ⟨s, u, hs, h⟩ := Run.bind_eq_ok.mp h
  rw [engine_withIterationLimit] at h
  obtain ⟨reason, q, v, reason', p, stop, stop', hrun, rfl, hq, hp, htruncated⟩ :=
    Search.result_withIterationLimit clock hle htime h
  refine ⟨outcome reason q, v, ?_, htruncated.outcome hq fun P hm => ?_⟩
  · refine Run.bind_eq_ok.mpr ⟨(), _, Run.require_eq_ok.mpr ⟨hcheck, rfl⟩, ?_⟩
    refine Run.bind_eq_ok.mpr ⟨(), _, Run.require_eq_ok.mpr ⟨hdimension, rfl⟩, ?_⟩
    refine Run.bind_eq_ok.mpr ⟨s, u, hs, ?_⟩
    rw [engine_withIterationLimit]
    exact hrun
  · have hvisits : Visits m (settings.withIterationLimit n) (host.withClock clock) _ stop q v :=
      ⟨hcheck, hdimension, s, u, hs, by rw [engine_withIterationLimit]; exact hq⟩
    have hvisits' : Visits m (settings.withIterationLimit n') host _ stop' p w' :=
      ⟨hcheck, hdimension, s, u, hs, by rw [engine_withIterationLimit]; exact hp⟩
    obtain ⟨legs, stop'', hcourse⟩ := htruncated.goes_on
    exact ⟨_, _, (leading hm _ _ _).head hvisits, (leading hm _ _ _).head hvisits',
      (hcourse.record_le hm (challenged_of_course hcourse) (ordered_of_course hm hcourse)
        ((leading hm _ _ _).ordered hvisits)).2⟩

end Annealing

/-- **The iteration limit cuts a run short** and does nothing else, whatever clocks the two runs
see: without a time limit no clock is looked at. -/
theorem iteration_limit_truncates (m : Model γ σ V) (host : Host σ) (clock : σ → Duration)
    (rounds : Nat) (w w' : World γ σ) {n n' : Nat} (hle : n ≤ n') :
    (∀ (settings : Swarm.Settings) (o' : Outcome V), settings.criteria.timeLimit = none →
      (Swarm.run m (settings.withIterationLimit n') host rounds).exec w = (.ok (some o'), w') →
      ∃ o v, (Swarm.run m (settings.withIterationLimit n) (host.withClock clock) rounds).exec w
        = (.ok (some o), v) ∧ o.Truncates m n o') ∧
    ∀ (settings : Annealing.Settings) (o' : Annealing.Outcome V),
      settings.criteria.timeLimit = none →
      (Annealing.run m (settings.withIterationLimit n') host rounds).exec w
        = (.ok (some o'), w') →
      ∃ o v, (Annealing.run m (settings.withIterationLimit n) (host.withClock clock) rounds).exec w
        = (.ok (some o), v) ∧ o.toOutcome.Truncates m n o'.toOutcome :=
  ⟨fun _ _ htime h => Swarm.truncates_of_run hle htime h,
    fun _ _ htime h => Annealing.truncates_of_run hle htime h⟩

/-- Two runs on the unit interval that end after one iteration, and their two iterations. -/
theorem iteration_limit_truncates_interval :
    (∃ o' w' o v, (Swarm.run Interval.model (Interval.swarm.withIterationLimit 1) Interval.host
        3).exec Interval.world = (.ok (some o'), w') ∧
      (Swarm.run Interval.model (Interval.swarm.withIterationLimit 0)
        (Interval.host.withClock fun _ => ⟨5⟩) 3).exec Interval.world = (.ok (some o), v) ∧
      o.Truncates Interval.model 0 o') ∧
    ∃ o' w' o v, (Annealing.run Interval.model (Interval.annealing.withIterationLimit 1)
        Interval.host 3).exec Interval.world = (.ok (some o'), w') ∧
      (Annealing.run Interval.model (Interval.annealing.withIterationLimit 0)
        (Interval.host.withClock fun _ => ⟨5⟩) 3).exec Interval.world = (.ok (some o), v) ∧
      o.toOutcome.Truncates Interval.model 0 o'.toOutcome := by
  obtain ⟨o₁, w₁, h₁, -⟩ := Interval.swarm_outcome
  obtain ⟨o₂, w₂, h₂, -⟩ := Interval.annealing_outcome
  obtain ⟨o₁', v₁, hv₁, ht₁⟩ := (iteration_limit_truncates Interval.model Interval.host
    (fun _ => ⟨5⟩) 3 Interval.world w₁ (Nat.zero_le 1)).1 Interval.swarm o₁ rfl h₁
  obtain ⟨o₂', v₂, hv₂, ht₂⟩ := (iteration_limit_truncates Interval.model Interval.host
    (fun _ => ⟨5⟩) 3 Interval.world w₂ (Nat.zero_le 1)).2 Interval.annealing o₂ rfl h₂
  exact ⟨⟨o₁, w₁, o₁', v₁, h₁, hv₁, ht₁⟩, ⟨o₂, w₂, o₂', v₂, h₂, hv₂, ht₂⟩⟩

end Metaheuristics
