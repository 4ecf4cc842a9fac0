import Metaheuristics.Proofs.Arithmetic.Scaling
import Metaheuristics.Proofs.Random.Indices

/-!
# Fractions lie in the unit interval

A number drawn from the unit interval is a whole number of 53 bits divided by `2⁵³`, so it lies
between zero and one, whatever the words of the source are (`unit_mem`).
-/

namespace Metaheuristics.Random

open Metaheuristics.Arithmetic

theorem steps_divisor : steps 9007199254740992.0 = some ((2 ^ 53 * oneUnits : Nat) : Int) := by
  have h := (hasUnits_of_model (x := 9007199254740992.0) (m := 2 ^ 52) (e := 1) (by decide)
    ⟨by decide, by decide, by decide, Or.inr (le_refl _)⟩ (by decide) rfl).steps
  have hexponent : 52 + (1 + 1074 : Int).toNat = 53 + 1074 := by decide
  rwa [units_two_pow, hexponent, ← two_pow_mul_oneUnits] at h

variable {γ : Type} [Source γ]

/-- **A number drawn from the unit interval** lies between zero and one. -/
theorem unit_mem : Yields (γ := γ) unit fun r => 0.0 ≤ r ∧ r ≤ 1.0 := by
  intro g
  show 0.0 ≤ ((Source.word64 g).1 >>> 11).toFloat / 9007199254740992.0 ∧
    ((Source.word64 g).1 >>> 11).toFloat / 9007199254740992.0 ≤ 1.0
  have hword : ((Source.word64 g).1 >>> 11).toNat < 2 ^ 53 := by
    have hshift : ((Source.word64 g).1 >>> 11).toNat = (Source.word64 g).1.toNat / 2 ^ 11 := by
      rw [UInt64.toNat_shiftRight, Nat.shiftRight_eq_div_pow]
      rfl
    have hlt := (Source.word64 g).1.toNat_lt
    omega
  have hsteps := steps_toFloat hword
  have hpos : 0 < 2 ^ 53 * oneUnits := Nat.mul_pos (Nat.two_pow_pos 53) oneUnits_pos
  refine ⟨div_nonneg hsteps steps_divisor hpos, div_le_one hsteps steps_divisor hpos ?_⟩
  exact (le_iff_steps hsteps steps_divisor).mpr
    (Int.ofNat_le.mpr (Nat.mul_le_mul_right oneUnits hword.le))

theorem unit_steps (g : γ) : ∃ v : Nat, steps (unit g).1 = some (v : Int) := by
  obtain ⟨hlow, hhigh⟩ := unit_mem g
  exact exists_steps_of_nonneg hlow (isFinite_of_mem rfl rfl hlow hhigh)

end Metaheuristics.Random
