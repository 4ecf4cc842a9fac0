import Metaheuristics.Proofs.Multiverse.Recombination
import Metaheuristics.Proofs.Outcomes.InsideBox

/-!
# A multiverse without wormholes only recombines

With no wormholes at the start and none at the end, every universe of a run has in each dimension a
value that one of the starting candidates has in it, in every generation, and so have the solutions:
no value is new, changed by clamping or moved to another dimension (`runs_recombine`).
-/

namespace Metaheuristics

variable {γ σ V : Type}

/-- **Without wormholes a multiverse only recombines its starting candidates**, whichever way white
holes are chosen and scores become rates. -/
theorem runs_recombine [Random.Source γ] (m : Model γ σ V) (settings : Multiverse.Settings)
    (hclosed : settings.NoWormholes) (host : Host σ) (w : World γ σ)
    (hinside : ∀ x ∈ (m.initial settings.universeAmount w).1, InBox m.bounds x) :
    (∀ stop p v, Multiverse.Visits m settings host w stop p v →
      AllRecombine m.bounds (m.initial settings.universeAmount w).1 p.engine.universes) ∧
    ∀ rounds o w', (Multiverse.run m settings host rounds).exec w = (.ok (some o), w') →
      AllRecombine m.bounds (m.initial settings.universeAmount w).1 o.solutions := by
  refine ⟨fun stop p v h => ?_, fun rounds o w' h => ?_⟩
  · exact (Multiverse.recombines_of_visits hclosed hinside h).universes
  · obtain ⟨stop, reason, p, hp, rfl⟩ := Multiverse.visits_of_run h
    exact (Multiverse.recombines_of_visits hclosed hinside hp).elite

namespace Interval

/-- A small multiverse without wormholes. -/
def closedMultiverse : Multiverse.Settings :=
  { multiverse with leastWormholes := 0.0, mostWormholes := -0.0, selection := .tournament 2 }

theorem closedMultiverse_outcome :
    ∃ o w', (Multiverse.run model closedMultiverse host 3).exec world = (.ok (some o), w') ∧
      0 < o.iterations :=
  Run.exists_outcome (by decide +kernel)

end Interval

/-- The universes and the solutions of a run on the unit interval. -/
theorem runs_recombine_interval :
    ∃ o w' stop p, (Multiverse.run Interval.model Interval.closedMultiverse Interval.host 3).exec
        Interval.world = (.ok (some o), w') ∧ 0 < o.iterations ∧
      AllRecombine [Interval.bound] (Interval.model.initial 3 Interval.world).1 o.solutions ∧
      Multiverse.Visits Interval.model Interval.closedMultiverse Interval.host Interval.world stop p
        w' ∧
      AllRecombine [Interval.bound] (Interval.model.initial 3 Interval.world).1
        p.engine.universes := by
  obtain ⟨o, w', h, hiterations⟩ := Interval.closedMultiverse_outcome
  obtain ⟨stop, reason, p, hp, rfl⟩ := Multiverse.visits_of_run h
  obtain ⟨huniverses, hsolutions⟩ := runs_recombine Interval.model Interval.closedMultiverse
    ⟨by decide, by decide⟩ Interval.host Interval.world
    (Interval.model_startsInside 3 Interval.world)
  exact ⟨_, w', stop, p, h, hiterations, hsolutions 3 _ w' h, hp, huniverses stop p w' hp⟩

end Metaheuristics
