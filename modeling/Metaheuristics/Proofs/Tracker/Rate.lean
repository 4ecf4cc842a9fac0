import Metaheuristics.Proofs.Arithmetic.Signs
import Metaheuristics.Proofs.Tracker.Bounds

/-!
# The rate of a tracker

How close the incumbent is to the proven optimum is the larger of a root and, once there has been an
incumbent, of the part of the upper bound that has been gained, and at most one.  The rate is always
a number and never above one.  The root is never below zero, so the rate is not below zero either,
unless the root fails to be a number and the part that has been gained is below zero
(`optimalRate_nonneg_iff`); and that part is below zero only when the first incumbent is negative
(`negative_of_gain_lt_zero`).
-/

namespace Metaheuristics.Tracker

open Arithmetic

/-! ## The parts of the rate -/

/-- The root of the ratio of the bounds. -/
def root (t : Tracker) : Float := ((t.lowerBound + 1.0) / (t.best + 1.0)).sqrt

/-- The part of an upper bound that has been gained. -/
def gain (t : Tracker) (upper : Float) : Float := (upper - t.best) / upper

theorem minimum_one (x : Float) :
    (minimum x 1.0).isNaN = false ∧ minimum x 1.0 ≤ 1.0 ∧ (0.0 ≤ minimum x 1.0 ↔ ¬ x < 0.0) := by
  have hone : (1.0 : Float).isNaN = false := rfl
  have hzero : (0.0 : Float).isNaN = false := rfl
  have hle : (0.0 : Float) ≤ 1.0 := by decide
  have hself : (1.0 : Float) ≤ 1.0 := le_self hone
  unfold minimum
  rw [hone, if_neg Bool.false_ne_true]
  by_cases hx : x < 1.0
  · have hn : x.isNaN = false := (isNaN_of_le (le_of_lt hx)).1
    rw [if_pos hx]
    exact ⟨hn, le_of_lt hx, fun h => not_lt_of_le h, fun h => le_of_not_lt hn hzero h⟩
  · rw [if_neg hx]
    exact ⟨hone, hself, fun _ h => hx (lt_of_lt_of_le h hle), fun _ => hle⟩

theorem maximum_lt_zero {x y : Float} (hx : ¬ x < 0.0) :
    maximum x y < 0.0 ↔ x.isNaN = true ∧ y < 0.0 := by
  have hzero : (0.0 : Float).isNaN = false := rfl
  unfold maximum
  cases hn : y.isNaN
  · rw [if_neg Bool.false_ne_true]
    by_cases hyx : y < x
    · rw [if_pos hyx]
      have : x.isNaN = false := (isNaN_of_le (le_of_lt hyx)).2
      exact ⟨fun h => absurd h hx, fun h => by rw [h.1] at this; cases this⟩
    · rw [if_neg hyx]
      refine ⟨fun h => ⟨?_, h⟩, fun h => h.2⟩
      by_contra hnx
      rw [Bool.not_eq_true] at hnx
      exact hx (lt_of_le_of_lt (le_of_not_lt hn hnx hyx) h)
  · rw [if_pos rfl]
    refine ⟨fun h => absurd h hx, fun h => ?_⟩
    have := (isNaN_of_le (le_of_lt h.2)).1
    rw [hn] at this; cases this

/-! ## The rate -/

variable {t : Tracker} {ops : List Operation} {upper : Float}

theorem optimalRate_eq : t.optimalRate = minimum (match t.upperBound with
    | none => t.root
    | some upper => maximum t.root (t.gain upper)) 1.0 := rfl

theorem optimalRate_nonneg_iff : 0.0 ≤ t.optimalRate ↔
    ¬ (t.root.isNaN = true ∧ ∃ upper, t.upperBound = some upper ∧ t.gain upper < 0.0) := by
  have hroot : ¬ t.root < 0.0 := not_sqrt_lt_zero _
  rw [optimalRate_eq, (minimum_one _).2.2, not_iff_not]
  rcases hu : t.upperBound with _ | upper
  · exact ⟨fun h => absurd h hroot, fun ⟨_, _, h, _⟩ => nomatch h⟩
  · rw [maximum_lt_zero hroot]
    constructor
    · rintro ⟨hn, hgain⟩
      exact ⟨hn, upper, rfl, hgain⟩
    · rintro ⟨hn, _, heq, hgain⟩
      obtain rfl := Option.some.inj heq
      exact ⟨hn, hgain⟩

/-- **The part that has been gained is below zero** only where the first incumbent is negative,
since the best incumbent is never above it. -/
theorem negative_of_gain_lt_zero (h : Sandwich ops t) (hupper : t.upperBound = some upper)
    (hgain : t.gain upper < 0.0) : upper < 0.0 ∨ upper = -0.0 := by
  have hmem : upper ∈ incumbents ops := List.mem_of_mem_head? (h.upperBound ▸ hupper)
  have hbest : ¬ upper < t.best := by
    intro hlt
    have hn : upper.isNaN = false := (isNaN_of_le (le_of_lt hlt)).1
    exact not_lt_of_le (h.best.2 upper (mem_marks.mpr (Or.inr ⟨hmem, hn⟩))) hlt
  by_contra hsign
  exact not_div_lt_zero (not_sub_lt_zero hbest) (mt sign?_eq_negative_iff.mp hsign) hgain

/-- **The range of the rate** after any operations: it is a number and at most one, and it is not
below zero unless the root is no number and the part of the first incumbent that has been gained is
below zero, for which the first incumbent has to be negative. -/
theorem optimalRate_range (thresholds : Thresholds) (ops : List Operation) :
    let t := after thresholds ops
    t.optimalRate.isNaN = false ∧ t.optimalRate ≤ 1.0 ∧
    (0.0 ≤ t.optimalRate ↔
      ¬ (t.root.isNaN = true ∧ ∃ upper, t.upperBound = some upper ∧ t.gain upper < 0.0)) ∧
    ∀ upper, (incumbents ops).head? = some upper → t.gain upper < 0.0 →
      upper < 0.0 ∨ upper = -0.0 := by
  intro t
  have h : Sandwich ops t := sandwich_after thresholds ops
  obtain ⟨hn, hle, -⟩ := minimum_one (match t.upperBound with
    | none => t.root
    | some upper => maximum t.root (t.gain upper))
  exact ⟨hn, hle, optimalRate_nonneg_iff, fun upper hupper hgain =>
    negative_of_gain_lt_zero h (h.upperBound.trans hupper) hgain⟩

/-- Two negative incumbents, the second of which is `-1`, leave a rate of `-1`. -/
theorem optimalRate_lt_zero :
    (after .standard [.incumbent (-0.5), .incumbent (-1.0)]).optimalRate = -1.0 ∧
      (-1.0 : Float) < 0.0 := by
  decide +kernel

end Metaheuristics.Tracker
