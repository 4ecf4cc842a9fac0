import Metaheuristics.Proofs.Arithmetic.Infinity
import Metaheuristics.Proofs.Arithmetic.Neutral
import Metaheuristics.Proofs.Fitness.Duality

/-!
# The worst fitness and what is worse

The worst value of an order stands in for an absent fitness, and it is to be one that no value is
worse than.  It is so among numbers.  But a scalar that is not a number ranks after all numbers,
the infinite ones among them, so the worst scalar is better than it (`Direction.compare_worst`).  In
a lexicographic vector this shows where every component before is the worst one
(`Lexicographic.worst_lt_iff`), and in a weighted sum where no weight is zero
(`WeightedSum.worst_lt_iff`): a zero makes the sum of the worst value no number as well.
-/

namespace Metaheuristics

open Arithmetic

/-! ## Scalars -/

namespace Direction

/-- The sign of the worst scalar. -/
def worstSign : Direction → Float.Model.UnpackedFloat.Sign
  | minimize => .positive
  | maximize => .negative

theorem worst_eq (direction : Direction) : direction.worst = infinite direction.worstSign := by
  cases direction
  · exact infinity_eq
  · exact neg_infinity_eq

theorem isNaN_worst (direction : Direction) : direction.worst.isNaN = false := by
  cases direction <;> rfl

theorem minimize_compare_infinity (x : Float) :
    minimize.compare infinity x
      = if x.isNaN then .lt else if x = infinity then .eq else .gt := by
  have hworst : infinity.isNaN = false := isNaN_worst .minimize
  cases hx : x.isNaN
  · simp only [Direction.compare, hworst, hx, compareNumbers, if_neg (not_infinity_lt x),
      lt_infinity_iff]
    by_cases heq : x = infinity <;> simp [heq]
  · simp only [Direction.compare, hworst, hx, if_true]

/-- The worst scalar comes after all other numbers, and before what is not a number. -/
theorem compare_worst (direction : Direction) (x : Float) :
    direction.compare direction.worst x
      = if x.isNaN then .lt else if x = direction.worst then .eq else .gt := by
  cases direction
  · exact minimize_compare_infinity x
  · have hneg : -x = infinity ↔ x = -infinity :=
      ⟨fun h => by rw [← h, neg_neg_self], fun h => by rw [h, neg_neg_self]⟩
    have h := minimize_compare_infinity (-x)
    rw [← compare_neg, neg_neg_self, isNaN_neg] at h
    rw [show maximize.worst = -infinity from rfl, h, if_congr hneg rfl rfl]

theorem worst_lt_iff (direction : Direction) (x : Float) :
    direction.compare direction.worst x = .lt ↔ x.isNaN = true := by
  rw [compare_worst]
  split_ifs with hnan hworst
  · exact iff_of_true rfl hnan
  · exact iff_of_false (fun h => nomatch h) hnan
  · exact iff_of_false (fun h => nomatch h) hnan

end Direction

/-! ## Vectors -/

/-- What the worst vector is better than has a first component that differs from the worst
scalar, and this one is not a number. -/
theorem Lexicographic.worst_lt_iff {direction : Direction} {n : Nat} {value : List Float}
    (hvalue : value.length = n) :
    compare direction (List.replicate n direction.worst) value = .lt ↔
      ∃ k x rest, value = List.replicate k direction.worst ++ x :: rest ∧ x.isNaN = true := by
  subst hvalue
  induction value with
  | nil =>
    refine iff_of_false (fun h => by cases h) ?_
    rintro ⟨k, x, rest, hsplit, -⟩
    exact List.append_ne_nil_of_right_ne_nil _ (List.cons_ne_nil x rest) hsplit.symm
  | cons a value ih =>
    rw [List.length_cons, List.replicate_succ, compare, Direction.compare_worst]
    split_ifs with hnan hworst
    · exact iff_of_true rfl ⟨0, a, value, rfl, hnan⟩
    · rw [Ordering.then, ih]
      constructor
      · rintro ⟨k, x, rest, rfl, hx⟩
        exact ⟨k + 1, x, rest, by rw [List.replicate_succ, hworst]; rfl, hx⟩
      · rintro ⟨k, x, rest, hsplit, hx⟩
        cases k with
        | zero =>
          obtain ⟨rfl, -⟩ := List.cons.inj hsplit
          exact absurd hx hnan
        | succ k =>
          obtain ⟨-, rfl⟩ := List.cons.inj hsplit
          exact ⟨k, x, rest, rfl, hx⟩
    · refine iff_of_false (fun h => by cases h) ?_
      rintro ⟨k, x, rest, hsplit, hx⟩
      cases k with
      | zero =>
        obtain ⟨rfl, -⟩ := List.cons.inj hsplit
        exact hnan hx
      | succ k => exact hworst (List.cons.inj hsplit).1

/-! ## Weighted sums -/

namespace WeightedSum

theorem isNaN_foldl {total : Float} (h : total.isNaN = true) (values : List Float) :
    (values.foldl (· + ·) total).isNaN = true := by
  induction values generalizing total with
  | nil => exact h
  | cons v values ih => exact ih (isNaN_add_left h)

theorem isNaN_sum {values : List Float} {v : Float} (hv : v ∈ values) (h : v.isNaN = true) :
    (Arithmetic.sum values).isNaN = true := by
  unfold Arithmetic.sum
  generalize -0.0 = total
  induction values generalizing total with
  | nil => cases hv
  | cons a values ih =>
    rcases List.mem_cons.mp hv with rfl | hv
    · exact isNaN_foldl (isNaN_add_right h) values
    · exact ih hv (total + a)

theorem sum_replicate_infinite (s : Float.Model.UnpackedFloat.Sign) (n : Nat) :
    Arithmetic.sum (List.replicate (n + 1) (infinite s)) = infinite s := by
  have hfoldl : ∀ k, (List.replicate k (infinite s)).foldl (· + ·) (infinite s) = infinite s := by
    intro k
    induction k with
    | zero => rfl
    | succ k ih => rw [List.replicate_succ, List.foldl_cons, infinite_add_infinite, ih]
  rw [List.replicate_succ, Arithmetic.sum, List.foldl_cons, neg_zero_add_self, hfoldl]

variable (ranking : WeightedSum)

theorem zipWith_worst (weights : List Float) (x : Float) :
    List.zipWith (· * ·) weights (List.replicate weights.length x) = weights.map (· * x) := by
  induction weights with
  | nil => rfl
  | cons w weights ih =>
    rw [List.length_cons, List.replicate_succ, List.zipWith_cons_cons, ih, List.map_cons]

theorem scalarize_worst : ranking.scalarize ranking.order.worst
    = Arithmetic.sum (ranking.weights.map (· * infinite ranking.direction.worstSign)) := by
  show Arithmetic.sum (List.zipWith (· * ·) ranking.weights
    (List.replicate ranking.weights.length ranking.direction.worst)) = _
  rw [zipWith_worst, Direction.worst_eq]

theorem scalarize_worst_of_pos (hne : ranking.weights ≠ [])
    (hpos : ∀ w ∈ ranking.weights, 0.0 < w) :
    ranking.scalarize ranking.order.worst = ranking.direction.worst := by
  have hproducts : ranking.weights.map (· * infinite ranking.direction.worstSign)
      = List.replicate ranking.weights.length (infinite ranking.direction.worstSign) := by
    rw [List.eq_replicate_iff]
    refine ⟨List.length_map _, fun p hp => ?_⟩
    obtain ⟨w, hw, rfl⟩ := List.mem_map.mp hp
    have hadmissible := ranking.admissible w hw
    rw [isAdmissibleWeight, Bool.and_eq_true] at hadmissible
    exact mul_infinite (hpos w hw) hadmissible.1 _
  obtain ⟨n, hn⟩ : ∃ n, ranking.weights.length = n + 1 :=
    Nat.exists_eq_succ_of_ne_zero (mt List.length_eq_zero_iff.mp hne)
  rw [scalarize_worst, hproducts, hn, sum_replicate_infinite, Direction.worst_eq]

/-- A weight of zero makes the sum of the worst value no number. -/
theorem isNaN_scalarize_worst {w : Float} (hw : w ∈ ranking.weights) (hzero : ¬ 0.0 < w) :
    (ranking.scalarize ranking.order.worst).isNaN = true := by
  have hadmissible := ranking.admissible w hw
  rw [isAdmissibleWeight, Bool.and_eq_true] at hadmissible
  rw [scalarize_worst]
  exact isNaN_sum (List.mem_map_of_mem hw)
    (isNaN_mul_infinite (of_decide_eq_true hadmissible.2) hzero _)

theorem compare_ne_lt_of_isNaN {direction : Direction} {x : Float} (h : x.isNaN = true)
    (y : Float) : direction.compare x y ≠ .lt := by
  unfold Direction.compare
  rw [h]
  cases y.isNaN <;> exact fun hlt => nomatch hlt

/-- **What the worst value is better than** has a sum that is not a number, and this only where
there are weights and none of them is zero. -/
theorem worst_lt_iff (value : List Float) :
    ranking.order.compare ranking.order.worst value = .lt ↔
      ranking.weights ≠ [] ∧ (∀ w ∈ ranking.weights, 0.0 < w) ∧
        (ranking.scalarize value).isNaN = true := by
  show ranking.direction.compare (ranking.scalarize ranking.order.worst)
    (ranking.scalarize value) = .lt ↔ _
  by_cases hne : ranking.weights = []
  · have hsum (v : List Float) : ranking.scalarize v = -0.0 := by
      rw [scalarize, hne]
      rfl
    refine iff_of_false ?_ fun h => h.1 hne
    rw [hsum, hsum]
    cases ranking.direction <;> decide
  by_cases hpos : ∀ w ∈ ranking.weights, 0.0 < w
  · rw [scalarize_worst_of_pos ranking hne hpos, Direction.worst_lt_iff]
    exact ⟨fun h => ⟨hne, hpos, h⟩, fun h => h.2.2⟩
  · refine iff_of_false ?_ fun h => hpos h.2.1
    push Not at hpos
    obtain ⟨w, hw, hzero⟩ := hpos
    exact compare_ne_lt_of_isNaN (isNaN_scalarize_worst ranking hw hzero) _

end WeightedSum

end Metaheuristics
