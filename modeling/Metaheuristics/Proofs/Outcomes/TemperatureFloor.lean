import Metaheuristics.Proofs.Annealing.Floor
import Metaheuristics.Proofs.Outcomes.TopOfRun

/-!
# Runs that end at the temperature floor

Which settings of annealing let the temperature come down to its floor, and that a run without
limits ends there if they do, and never if they do not (`cooling_floor`).  A floor of zero is no
guarantee: at the lower end of the number range the multiplication by the gradient can round to the
same temperature again (`cooling_at_rest`).
-/

namespace Metaheuristics.Annealing

open Arithmetic

/-- **When a run without limits ends at its temperature floor.** -/
theorem cooling_floor (s : Settings) (hcheck : s.check = .ok ()) :
    ((∃ k, s.temperatureAt k ≤ s.finalTemperature) ↔ ∀ x, ¬ s.RestsAt x) ∧
    (leastNormal ≤ s.finalTemperature ∨ s.gradient ≤ 0.5 →
      ∃ k, s.temperatureAt k ≤ s.finalTemperature) ∧
    (s.finalTemperature ≤ 0.0 →
      ((∃ k, s.temperatureAt k ≤ s.finalTemperature) ↔ s.gradient ≤ 0.5)) ∧
    ∀ {γ σ V : Type} [Random.Source γ] (m : Model γ σ V) (host : Host σ) (w w' : World γ σ)
      (rounds : Nat), s.criteria = .unlimited → (∀ state, host.cancelled state = false) →
      (∀ t fitness state, (m.observe t fitness state).1 = false) →
      (∀ k, s.temperatureAt k ≤ s.finalTemperature → k < rounds →
        (run m s host rounds).exec w ≠ (.ok none, w')) ∧
      ∀ o, (run m s host rounds).exec w = (.ok (some o), w') →
        o.reason = .temperatureFloor ∧ s.temperatureAt o.iterations ≤ s.finalTemperature := by
  refine ⟨Settings.reaches_floor_iff hcheck, ?_, Settings.reaches_zero_iff hcheck, ?_⟩
  · exact fun h => (Settings.reaches_floor_iff hcheck).mpr (Settings.not_restsAt hcheck h)
  · intro γ σ V _ m host w w' rounds hcriteria hcancelled hobserve
    refine ⟨fun k hk hrounds => ends_of_floor hk hrounds, fun o h => ?_⟩
    exact outcome_of_floor hcriteria hcancelled hobserve h

end Metaheuristics.Annealing

namespace Metaheuristics

/-- An annealing without limits, which cools down to a floor of one in two steps. -/
def Interval.cooling : Annealing.Settings :=
  { Interval.annealing with gradient := 0.1, criteria := .unlimited }

theorem Interval.cooling_outcome :
    ∃ o w', (Annealing.run model cooling host 3).exec world = (.ok (some o), w') ∧
      0 < o.iterations :=
  Run.exists_outcome (by decide +kernel)

/-- A run without limits that ends at its floor. -/
theorem cooling_floor_interval :
    Interval.cooling.check = .ok () ∧
    (∃ k, Interval.cooling.temperatureAt k ≤ Interval.cooling.finalTemperature) ∧
    ∃ o w', (Annealing.run Interval.model Interval.cooling Interval.host 3).exec Interval.world
        = (.ok (some o), w') ∧
      o.reason = .temperatureFloor ∧
      Interval.cooling.temperatureAt o.iterations ≤ Interval.cooling.finalTemperature := by
  have hcheck : Interval.cooling.check = .ok () := by decide +kernel
  obtain ⟨-, hfloor, -, hruns⟩ := Annealing.cooling_floor Interval.cooling hcheck
  obtain ⟨o, w', h, -⟩ := Interval.cooling_outcome
  refine ⟨hcheck, hfloor (Or.inl (by decide +kernel)), o, w', h, ?_⟩
  exact (hruns Interval.model Interval.host Interval.world w' 3 rfl (fun _ => rfl)
    fun _ _ _ => rfl).2 o h

/-- An annealing that starts at the least positive temperature, above a floor of zero. -/
def Interval.resting : Annealing.Settings :=
  { Interval.annealing with
    initialTemperature := Arithmetic.leastPositive
    finalTemperature := 0.0
    criteria := .unlimited }

/-- **The temperature need not come down to its floor**: it may come to rest above. -/
theorem cooling_at_rest :
    Interval.resting.check = .ok () ∧
    (∀ k, Interval.resting.temperatureAt k = Arithmetic.leastPositive) ∧
    ¬ ∃ k, Interval.resting.temperatureAt k ≤ Interval.resting.finalTemperature := by
  have hrest : Arithmetic.leastPositive * 0.98 = Arithmetic.leastPositive := by decide +kernel
  have hconstant (k : Nat) : Interval.resting.temperatureAt k = Arithmetic.leastPositive := by
    induction k with
    | zero => rfl
    | succ k ih =>
      show Interval.resting.temperatureAt k * 0.98 = _
      rw [ih, hrest]
  refine ⟨by decide +kernel, hconstant, fun ⟨k, hk⟩ => ?_⟩
  rw [hconstant k] at hk
  exact absurd hk (by decide +kernel)

end Metaheuristics
