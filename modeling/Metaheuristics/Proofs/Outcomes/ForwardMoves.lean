import Metaheuristics.Proofs.Annealing.Climbing
import Metaheuristics.Proofs.Outcomes.InsideBox

/-!
# Forward disturbances only move up

A run of annealing with forward disturbances that starts in the box tries no position that is below
its current point in any coordinate, leaves the box or differs from the point in more coordinates
than are to be disturbed.  So no coordinate of the current point ever falls, whichever trials are
accepted (`forward_moves_up`).
-/

namespace Metaheuristics

variable {γ σ V : Type}

/-- **Forward disturbances only move up.**  Every trial climbs from its current point, and at every
moment of a run the current points so far are in ascending order, coordinate by coordinate.  Every
position of the loop and every trial leads to a moment. -/
theorem forward_moves_up [Random.Source γ] (m : Model γ σ V) (settings : Annealing.Settings)
    (hforward : settings.disturbance = .forward) (host : Host σ) (w : World γ σ)
    (hinside : ∀ x ∈ (m.initial settings.initialAmount w).1, InBox m.bounds x) :
    (∀ temperature b u x u', Annealing.Poised m settings host w temperature b u →
      (Annealing.perturb settings m.bounds b.chain.step b.chain.current.position).exec u
        = (.ok x, u') →
      Annealing.ClimbsBy m.bounds settings.disturbanceAmount b.chain.current.position x) ∧
    (∀ log iterations trials chain v,
      Annealing.Moment m settings host w log iterations trials chain v →
      Annealing.Ascends m settings log chain) ∧
    (∀ stop p v, Annealing.Visits m settings host w stop p v →
      ∃ log, Annealing.Moment m settings host w log p.tracker.iteration 0 p.engine.chain v) ∧
    ∀ p v s trials b u, Annealing.Visits m settings host w false p v →
      Search.verdict host settings.criteria (Annealing.engine m settings host) p v.state
        = .ok s → trials ≤ settings.markovLength →
      (Annealing.trials m settings host.math s.temperature trials ⟨s.chain, #[], false⟩).exec v
        = (.ok b, u) →
      ∃ log, Annealing.Moment m settings host w log p.tracker.iteration trials b.chain u := by
  refine ⟨fun temperature b u x u' h hperturb => ?_, fun log iterations trials chain v h => ?_,
    fun stop p v h => ?_, fun p v s trials b u h => h.moment⟩
  · exact Annealing.climbs_of_poised hforward hinside h hperturb
  · exact Annealing.ascends_of_moment hforward hinside h
  · obtain ⟨log, hlog⟩ := h.logged
    exact ⟨log, .position hlog⟩

namespace Interval

/-- The widest interval, whose width overflows. -/
def widest : Bound := ⟨-Arithmetic.largest, Arithmetic.largest, by decide, by decide, by decide⟩

/-- The first coordinate, in the widest strip above the unit interval. -/
def strip : Model Random.SplitMix Unit Float :=
  .ofObjective Direction.minimize.order [widest, bound] fun x => pure (.ok x.head?)

theorem strip_outcome :
    ∃ o w', (Annealing.run strip annealing host 3).exec world = (.ok (some o), w') ∧
      0 < o.acceptedMoves :=
  Run.exists_outcome (by decide +kernel)

/-- Whether the first trial can be made. -/
def disturbs (s : Annealing.State Float) (v : World Random.SplitMix Unit) : Bool :=
  match Search.verdict host annealing.criteria (Annealing.engine strip annealing host)
    (Search.begin s) v.state with
  | .error _ => false
  | .ok s => ((Annealing.perturb annealing strip.bounds s.chain.step
      s.chain.current.position).exec v).1.toOption.isSome

theorem strip_trial : ∃ temperature b u x u',
    Annealing.Poised strip annealing host world temperature b u ∧
    (Annealing.perturb annealing strip.bounds b.chain.step b.chain.current.position).exec u
      = (.ok x, u') := by
  obtain ⟨s, v, hs, hdisturbs⟩ := Run.exists_ok_world (w := world)
    (x := Annealing.start strip annealing host) (P := fun s v => disturbs s v = true)
    (by decide +kernel)
  unfold disturbs at hdisturbs
  split at hdisturbs
  · cases hdisturbs
  next s' henters =>
    rcases hx : (Annealing.perturb annealing strip.bounds s'.chain.step
      s'.chain.current.position).exec v with ⟨e | x, u'⟩ <;> rw [hx] at hdisturbs
    · cases hdisturbs
    · exact ⟨s'.temperature, ⟨s'.chain, #[], false⟩, v, x, u',
        ⟨Search.begin s, v, s', 0, ⟨by decide +kernel, by decide +kernel, s, v, hs, .start⟩,
          henters, rfl, by decide, rfl⟩, hx⟩

end Interval

/-- The first trial of a run on a strip, and its current points. -/
theorem forward_moves_up_strip :
    (∃ temperature b u x u', Annealing.Poised Interval.strip Interval.annealing Interval.host
        Interval.world temperature b u ∧
      (Annealing.perturb Interval.annealing Interval.strip.bounds b.chain.step
        b.chain.current.position).exec u = (.ok x, u') ∧
      Annealing.ClimbsBy Interval.strip.bounds 1 b.chain.current.position x) ∧
    ∃ o w' log chain, (Annealing.run Interval.strip Interval.annealing Interval.host 3).exec
        Interval.world = (.ok (some o), w') ∧ 0 < o.acceptedMoves ∧
      Annealing.Moment Interval.strip Interval.annealing Interval.host Interval.world log
        o.iterations 0 chain w' ∧
      Annealing.Ascends Interval.strip Interval.annealing log chain := by
  obtain ⟨htrials, hmoments, hpositions, -⟩ := forward_moves_up Interval.strip Interval.annealing rfl
    Interval.host Interval.world
    (Model.ofObjective_startsInside _ _ _ Interval.annealing.initialAmount Interval.world)
  obtain ⟨temperature, b, u, x, u', hpoised, hperturb⟩ := Interval.strip_trial
  obtain ⟨o, w', hrun, hmoves⟩ := Interval.strip_outcome
  obtain ⟨stop, reason, p, hvisits, rfl⟩ := Annealing.visits_of_run hrun
  obtain ⟨log, hlog⟩ := hpositions stop p w' hvisits
  exact ⟨⟨temperature, b, u, x, u', hpoised, hperturb, htrials _ _ _ _ _ hpoised hperturb⟩,
    _, w', log, p.engine.chain, hrun, hmoves, hlog, hmoments _ _ _ _ _ hlog⟩

end Metaheuristics
