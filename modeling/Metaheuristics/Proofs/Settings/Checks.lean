import Metaheuristics.Annealing.Settings
import Metaheuristics.Multiverse.Settings
import Metaheuristics.Swarm.Settings

/-!
# What valid settings say

A check is passed when all its parts are, so valid settings are those that meet a list of
conditions (`Swarm.Settings.check_eq_ok` and its like for the other engines).
-/

namespace Metaheuristics

theorem seq_eq_ok {ε : Type} {x y : Except ε Unit} :
    (do x; y) = .ok () ↔ x = .ok () ∧ y = .ok () := by
  obtain e | ⟨⟩ := x
  · exact ⟨fun h => (by cases h), fun h => (by cases h.1)⟩
  · exact ⟨fun h => ⟨rfl, h⟩, fun h => h.2⟩

/-- A condition that must not hold, before the other checks. -/
theorem unless_eq_ok {ε : Type} {p : Prop} [Decidable p] {e : ε} {y : Except ε Unit} :
    (if p then (do throw e; y) else y) = .ok () ↔ ¬ p ∧ y = .ok () := by
  by_cases h : p
  · rw [if_pos h]
    exact ⟨fun h' => (by cases h'), fun h' => absurd h h'.1⟩
  · rw [if_neg h]
    exact ⟨fun h' => ⟨h, h'⟩, fun h' => h'.2⟩

theorem Parameter.checkCount_eq_ok {parameter : Parameter} {count : Nat} :
    parameter.checkCount count = .ok () ↔ 0 < count := by
  unfold Parameter.checkCount
  rcases Nat.eq_zero_or_pos count with rfl | hpos
  · simp
  · simp [Nat.ne_of_gt hpos, hpos]

theorem Requirement.check_eq_ok {requirement : Requirement} {parameter : Parameter} {x : Float} :
    requirement.check parameter x = .ok () ↔ requirement.holds x = true := by
  unfold Requirement.check
  by_cases h : requirement.holds x = true <;> simp [h]

theorem Swarm.Settings.check_eq_ok {s : Swarm.Settings} : s.check = .ok () ↔
    0 < s.particleAmount ∧ 0 < s.solutionAmount ∧ Requirement.finite.holds s.inertia = true ∧
      Requirement.finiteNonNegative.holds s.cognitiveFactor = true ∧
      Requirement.finiteNonNegative.holds s.socialFactor = true ∧
      Requirement.positive.holds s.maxVelocity = true ∧
      Requirement.positiveFinite.holds s.initialVelocity = true := by
  simp only [Swarm.Settings.check, seq_eq_ok, Parameter.checkCount_eq_ok,
    Requirement.check_eq_ok]

theorem Multiverse.Settings.check_eq_ok {s : Multiverse.Settings} : s.check = .ok () ↔
    0 < s.universeAmount ∧ 0 < s.solutionAmount ∧ s.checkWormholes = .ok () ∧
      s.selection.check = .ok () := by
  simp only [Multiverse.Settings.check, seq_eq_ok, Parameter.checkCount_eq_ok]

theorem Annealing.Settings.check_eq_ok {s : Annealing.Settings} : s.check = .ok () ↔
    Requirement.positiveFinite.holds s.initialTemperature = true ∧
      Requirement.nonNegative.holds s.finalTemperature = true ∧
      ¬ s.initialTemperature ≤ s.finalTemperature ∧
      Requirement.openUnit.holds s.gradient = true ∧ 0 < s.markovLength ∧
      Requirement.positiveFinite.holds s.step = true ∧
      Requirement.halfOpenUnit.holds s.stepDecay = true ∧ 0 < s.disturbanceAmount ∧
      0 < s.initialAmount ∧ 0 < s.solutionAmount := by
  simp only [Annealing.Settings.check, seq_eq_ok, unless_eq_ok, Parameter.checkCount_eq_ok,
    Requirement.check_eq_ok]

/-- Annealing may disturb as many coordinates as there are. -/
theorem Annealing.Settings.checkDimension_eq_ok {s : Annealing.Settings} {dimension : Nat} :
    s.checkDimension dimension = .ok () ↔ s.disturbanceAmount ≤ dimension := by
  unfold Annealing.Settings.checkDimension
  by_cases h : dimension < s.disturbanceAmount
  · simp [h]
  · simp [h, Nat.le_of_not_lt h]

end Metaheuristics
