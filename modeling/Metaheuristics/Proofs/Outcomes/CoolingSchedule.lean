import Metaheuristics.Proofs.Outcomes.TemperatureFloor

/-!
# The cooling schedule drives the run

A schedule answers each look-up with the initial temperature, multiplied by the gradient as often as
the number of the look-up says, whatever has been looked up before.  So the iteration of annealing
with the number `k` makes all its trials at this temperature, the final temperature is that of the
last iteration and above the floor, and a run that ends at the floor has come to the first
temperature that is not (`cooling_schedule`).
-/

namespace Metaheuristics.Annealing

open Arithmetic

/-- **Cooling has no history**, and runs go by it exactly. -/
theorem cooling_schedule :
    (∀ initial gradient : Float, 0.0 < initial → initial.isFinite = true → 0.0 < gradient →
      gradient < 1.0 → ∀ ks : List Nat,
        (Cooling.start initial gradient).answers ks = ks.map (Cooling.geometric initial gradient) ∧
        ks.map (Cooling.geometric initial gradient)
          = ks.map fun k => ((Cooling.start initial gradient).temperature k).1) ∧
    ∀ {γ σ V : Type} [Random.Source γ] (m : Model γ σ V) (settings : Settings) (host : Host σ)
      (rounds : Nat) (w : World γ σ),
      (run m settings host rounds).exec w = (scheduledRun m settings host rounds).exec w ∧
      ∀ (o : Outcome V) (w' : World γ σ),
        (run m settings host rounds).exec w = (.ok (some o), w') →
        o.finalTemperature = settings.temperatureAt (o.iterations - 1) ∧
        settings.finalTemperature < o.finalTemperature ∧
        (o.reason = .temperatureFloor →
          IsLeast {k | settings.temperatureAt k ≤ settings.finalTemperature} o.iterations) := by
  refine ⟨fun initial gradient hpos hfinite hgradient hone ks => ?_, ?_⟩
  · obtain ⟨a, -, ha⟩ := exists_hasUnits hpos hfinite
    obtain ⟨b, -, hb⟩ := exists_hasUnits_of_le hgradient (le_of_lt hone) hasUnits_one
    have hlt : b < oneUnits := (hb.lt_iff hasUnits_one).mp hone
    have hfollows := Cooling.follows_start initial gradient
    refine ⟨hfollows.answers_eq ha hb hlt ks, List.map_congr_left fun k _ => ?_⟩
    exact (hfollows.temperature_eq ha hb hlt k).1.symm
  · intro γ σ V _ m settings host rounds w
    refine ⟨((translates_scheduledRun m settings host rounds).exec_eq w).symm, fun o w' h => ?_⟩
    obtain ⟨htemperature, habove⟩ := lt_finalTemperature_of_run h
    exact ⟨htemperature, habove, isLeast_of_run h⟩

end Metaheuristics.Annealing

namespace Metaheuristics

/-- Look-ups back and forth, and a run that comes down to its floor in two steps. -/
theorem cooling_schedule_interval :
    (Annealing.Cooling.start 100.0 0.1).answers [2, 0, 1, 2]
      = [100.0 * 0.1 * 0.1, 100.0, 100.0 * 0.1, 100.0 * 0.1 * 0.1] ∧
    ∃ o w', (Annealing.run Interval.model Interval.cooling Interval.host 3).exec Interval.world
        = (.ok (some o), w') ∧
      o.finalTemperature = Interval.cooling.temperatureAt (o.iterations - 1) ∧
      Interval.cooling.finalTemperature < o.finalTemperature ∧
      IsLeast {k | Interval.cooling.temperatureAt k ≤ Interval.cooling.finalTemperature}
        o.iterations := by
  obtain ⟨hanswers, hruns⟩ := Annealing.cooling_schedule
  have hlookups := (hanswers 100.0 0.1 (by decide +kernel) (by decide +kernel) (by decide +kernel)
    (by decide +kernel) [2, 0, 1, 2]).1
  obtain ⟨o, w', h, hreason⟩ : ∃ o w', (Annealing.run Interval.model Interval.cooling Interval.host
      3).exec Interval.world = (.ok (some o), w') ∧ o.reason = .temperatureFloor :=
    Run.exists_outcome (by decide +kernel)
  obtain ⟨htemperature, habove, hleast⟩ :=
    (hruns Interval.model Interval.cooling Interval.host 3 Interval.world).2 o w' h
  exact ⟨hlookups, o, w', h, htemperature, habove, hleast hreason⟩

end Metaheuristics
