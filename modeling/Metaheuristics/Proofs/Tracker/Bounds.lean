import Metaheuristics.Proofs.Tracker.Operations

/-!
# The bounds of a tracker

Whatever operations a tracker goes through, its bounds stay consistent with what has been handed in
(`Sandwich`): each best objective is the least of the numbers handed in for it, starting from the
largest one, the upper bound is the first incumbent, and the lower bound never passes the best
incumbent.  The lower bound moves both ways: a dual bound lifts it, and does so only below the best
incumbent, while a new best objective draws it down to itself.  Each operation keeps all of this at
once (`Sandwich.apply`), so it holds after every sequence of them (`sandwich_after`).

What is not a number fails every comparison.  It becomes no bound, except that it can be the first
incumbent, and a later number need not be below it to be the best.
-/

namespace Metaheuristics.Tracker

open Arithmetic

/-! ## The least of the numbers handed in -/

/-- The numbers that a new objective has to beat: the largest one, and the earlier objectives that
are numbers. -/
def marks (earlier : List Float) : List Float :=
  largest :: earlier.filter (!·.isNaN)

/-- **The least** of some numbers. -/
def IsLeast (x : Float) (xs : List Float) : Prop :=
  x ∈ xs ∧ ∀ y ∈ xs, x ≤ y

variable {x best : Float} {earlier : List Float}

theorem mem_marks {y : Float} :
    y ∈ marks earlier ↔ y = largest ∨ y ∈ earlier ∧ y.isNaN = false := by
  simp only [marks, List.mem_cons, List.mem_filter, Bool.not_eq_true']

theorem isNaN_largest : largest.isNaN = false := rfl

theorem isNaN_of_mem_marks {y : Float} (h : y ∈ marks earlier) : y.isNaN = false := by
  rcases mem_marks.mp h with rfl | ⟨-, h⟩
  · exact isNaN_largest
  · exact h

theorem IsLeast.isNaN (h : IsLeast best (marks earlier)) : best.isNaN = false :=
  isNaN_of_mem_marks h.1

theorem isLeast_start : IsLeast largest (marks []) := by
  refine ⟨List.mem_cons_self, fun y hy => ?_⟩
  rw [List.mem_singleton.mp hy]
  exact le_self isNaN_largest

theorem IsLeast.lt_iff (h : IsLeast best (marks earlier)) :
    x < best ↔ x < largest ∧ ∀ y ∈ earlier, y.isNaN = false → x < y := by
  constructor
  · intro hx
    refine ⟨lt_of_lt_of_le hx (h.2 _ (mem_marks.mpr (Or.inl rfl))), fun y hy hn => ?_⟩
    exact lt_of_lt_of_le hx (h.2 y (mem_marks.mpr (Or.inr ⟨hy, hn⟩)))
  · rintro ⟨hlargest, hearlier⟩
    rcases mem_marks.mp h.1 with heq | ⟨hmem, hn⟩
    · rw [heq]; exact hlargest
    · exact hearlier best hmem hn

theorem IsLeast.concat (h : IsLeast best (marks earlier)) :
    IsLeast (if x < best then x else best) (marks (earlier ++ [x])) := by
  have hmarks : ∀ y, y ∈ marks (earlier ++ [x]) ↔ y ∈ marks earlier ∨ y = x ∧ y.isNaN = false := by
    intro y
    simp only [mem_marks, List.mem_append, List.mem_singleton]
    tauto
  by_cases hx : x < best
  · have hn : x.isNaN = false := (isNaN_of_le (le_of_lt hx)).1
    rw [if_pos hx]
    refine ⟨(hmarks x).mpr (Or.inr ⟨rfl, hn⟩), fun y hy => ?_⟩
    rcases (hmarks y).mp hy with hy | ⟨rfl, -⟩
    · exact le_of_lt (lt_of_lt_of_le hx (h.2 y hy))
    · exact le_self hn
  · rw [if_neg hx]
    refine ⟨(hmarks best).mpr (Or.inl h.1), fun y hy => ?_⟩
    rcases (hmarks y).mp hy with hy | ⟨rfl, hn⟩
    · exact h.2 y hy
    · exact le_of_not_lt hn h.isNaN hx

/-! ## The invariant -/

/-- **The bounds of a tracker** are those of the operations it has gone through. -/
structure Sandwich (ops : List Operation) (t : Tracker) : Prop where
  /-- The best objective is the least incumbent. -/
  best : IsLeast t.best (marks (incumbents ops))
  bestRelaxation : IsLeast t.bestRelaxation (marks (relaxations ops))
  /-- The upper bound is the first incumbent. -/
  upperBound : t.upperBound = (incumbents ops).head?
  lower_le_best : t.lowerBound ≤ t.best
  bestDual : t.bestDual.isNaN = false

variable {t : Tracker} {ops : List Operation}

theorem Sandwich.start (thresholds : Thresholds) : Sandwich [] (start thresholds) where
  best := isLeast_start
  bestRelaxation := isLeast_start
  upperBound := rfl
  lower_le_best := by show (0.0 : Float) ≤ largest; decide
  bestDual := by show (-largest).isNaN = false; rfl

theorem Sandwich.of_eq {op : Operation} {t' : Tracker} (h : Sandwich ops t)
    (hincumbents : incumbents [op] = []) (hrelaxations : relaxations [op] = [])
    (hbest : t'.best = t.best) (hrelaxation : t'.bestRelaxation = t.bestRelaxation)
    (hdual : t'.bestDual = t.bestDual) (hlower : t'.lowerBound = t.lowerBound)
    (hupper : t'.upperBound = t.upperBound) : Sandwich (ops ++ [op]) t' where
  best := by rw [hbest, incumbents_append, hincumbents, List.append_nil]; exact h.best
  bestRelaxation := by
    rw [hrelaxation, relaxations_append, hrelaxations, List.append_nil]; exact h.bestRelaxation
  upperBound := by rw [hupper, incumbents_append, hincumbents, List.append_nil]; exact h.upperBound
  lower_le_best := by rw [hlower, hbest]; exact h.lower_le_best
  bestDual := by rw [hdual]; exact h.bestDual

theorem Sandwich.relaxation (h : Sandwich ops t) :
    Sandwich (ops ++ [.relaxation x]) (t.refreshRelaxation x).2 := by
  obtain ⟨-, hrelaxation, hlower, hbest, hdual, hupper⟩ := refreshRelaxation_eq (t := t) (x := x)
  refine ⟨?_, ?_, ?_, ?_, ?_⟩
  · rw [hbest, incumbents_append]; exact (List.append_nil _).symm ▸ h.best
  · rw [hrelaxation, relaxations_append]; exact h.bestRelaxation.concat
  · rw [hupper, incumbents_append]; exact (List.append_nil _).symm ▸ h.upperBound
  · rw [hlower, hbest]
    split_ifs with hx
    · exact le_of_lt (lt_of_lt_of_le hx.2 h.lower_le_best)
    · exact h.lower_le_best
  · rw [hdual]; exact h.bestDual

theorem Sandwich.incumbent (h : Sandwich ops t) :
    Sandwich (ops ++ [.incumbent x]) (t.refreshIncumbent x).2 := by
  obtain ⟨-, hbest, hlower, hupper, hrelaxation, hdual⟩ := refreshIncumbent_eq (t := t) (x := x)
  refine ⟨?_, ?_, ?_, ?_, ?_⟩
  · rw [hbest, incumbents_append]; exact h.best.concat
  · rw [hrelaxation, relaxations_append]; exact (List.append_nil _).symm ▸ h.bestRelaxation
  · rw [hupper, h.upperBound, incumbents_append, List.head?_append]; rfl
  · rw [hlower, hbest]
    by_cases hx : x < t.best
    · have hn := (isNaN_of_le h.lower_le_best).1
      rw [if_pos hx]
      split_ifs with hl
      · exact le_self (isNaN_of_le (le_of_lt hx)).1
      · exact le_of_not_lt (isNaN_of_le (le_of_lt hx)).1 hn fun hlt => hl ⟨hx, hlt⟩
    · rw [if_neg hx, if_neg fun hl => hx hl.1]
      exact h.lower_le_best
  · rw [hdual]; exact h.bestDual

theorem Sandwich.columns {κ : Type} [DecidableEq κ] (priced : List (Column κ))
    (h : Sandwich ops t) : Sandwich (ops ++ [.columns priced]) (t.refreshLowerBound priced) := by
  rcases refreshLowerBound_cases (t := t) priced with heq | ⟨dual, hlow, hhigh, heq⟩
  · rw [heq]; exact h.of_eq rfl rfl rfl rfl rfl rfl rfl
  · refine ⟨?_, ?_, ?_, ?_, ?_⟩
    · rw [heq, incumbents_append]; exact (List.append_nil _).symm ▸ h.best
    · rw [heq, relaxations_append]; exact (List.append_nil _).symm ▸ h.bestRelaxation
    · rw [heq, incumbents_append]; exact (List.append_nil _).symm ▸ h.upperBound
    · rw [heq]
      show (if t.lowerBound < dual then dual else t.lowerBound) ≤ t.best
      split_ifs
      · exact le_of_lt hhigh
      · exact h.lower_le_best
    · rw [heq]; exact (isNaN_of_le (le_of_lt hlow)).2

theorem Sandwich.apply (op : Operation) (h : Sandwich ops t) :
    Sandwich (ops ++ [op]) (t.apply op) := by
  cases op with
  | relaxation x => exact h.relaxation
  | incumbent x => exact h.incumbent
  | columns priced => exact h.columns priced
  | halve => exact h.of_eq rfl rfl rfl rfl rfl rfl rfl
  | next better => exact h.of_eq rfl rfl rfl rfl rfl rfl rfl
  | increment => exact h.of_eq rfl rfl rfl rfl rfl rfl rfl
  | decrement => exact h.of_eq rfl rfl rfl rfl rfl rfl rfl

/-- **The bounds are consistent after every sequence of operations.** -/
theorem sandwich_after (thresholds : Thresholds) (ops : List Operation) :
    Sandwich ops (after thresholds ops) := by
  induction ops using List.reverseRecOn with
  | nil => exact Sandwich.start thresholds
  | append_singleton ops op ih => rw [after_concat]; exact ih.apply op

/-! ## The dual bound -/

theorem bestDual_le_apply (op : Operation) (h : Sandwich ops t) :
    t.bestDual ≤ (t.apply op).bestDual := by
  have hself : t.bestDual ≤ t.bestDual := le_self h.bestDual
  cases op with
  | relaxation x =>
    obtain ⟨-, -, -, -, hdual, -⟩ := refreshRelaxation_eq (t := t) (x := x)
    show _ ≤ (t.refreshRelaxation x).2.bestDual
    rw [hdual]; exact hself
  | incumbent x =>
    obtain ⟨-, -, -, -, -, hdual⟩ := refreshIncumbent_eq (t := t) (x := x)
    show _ ≤ (t.refreshIncumbent x).2.bestDual
    rw [hdual]; exact hself
  | columns priced =>
    show _ ≤ (t.refreshLowerBound priced).bestDual
    rcases refreshLowerBound_cases (t := t) priced with heq | ⟨dual, hlow, -, heq⟩
    · rw [heq]; exact hself
    · rw [heq]; exact le_of_lt hlow
  | halve => exact hself
  | next better => exact hself
  | increment => exact hself
  | decrement => exact hself

theorem bestDual_le_after (thresholds : Thresholds) (ops later : List Operation) :
    (after thresholds ops).bestDual ≤ (after thresholds (ops ++ later)).bestDual := by
  induction later using List.reverseRecOn with
  | nil => rw [List.append_nil]; exact le_self (sandwich_after thresholds ops).bestDual
  | append_singleton later op ih =>
    rw [← List.append_assoc, after_concat]
    exact le_trans ih (bestDual_le_apply op (sandwich_after thresholds (ops ++ later)))

/-! ## What is said of a new objective -/

/-- A new incumbent is the best when it is below the largest number and every incumbent before
it that is a number. -/
theorem refreshIncumbent_best (h : Sandwich ops t) :
    (t.refreshIncumbent x).1 = true ↔
      x < largest ∧ ∀ y ∈ incumbents ops, y.isNaN = false → x < y := by
  rw [refreshIncumbent_eq.1, decide_eq_true_iff]
  exact h.best.lt_iff

theorem refreshRelaxation_best (h : Sandwich ops t) :
    (t.refreshRelaxation x).1 = true ↔
      x < largest ∧ ∀ y ∈ relaxations ops, y.isNaN = false → x < y := by
  rw [refreshRelaxation_eq.1, decide_eq_true_iff]
  exact h.bestRelaxation.lt_iff

/-- **The bounds of a tracker after any operations**: they are numbers and in order, each best
objective is the least one handed in, the upper bound is the first incumbent and not below the best
one, the dual bound never decreases, and an objective is said to be the best when it is below all
numbers handed in before it. -/
theorem bounds_after (thresholds : Thresholds) (ops : List Operation) :
    let t := after thresholds ops
    (t.lowerBound.isNaN = false ∧ t.best.isNaN = false ∧ t.bestRelaxation.isNaN = false ∧
      t.bestDual.isNaN = false) ∧
    t.lowerBound ≤ t.best ∧
    IsLeast t.best (marks (incumbents ops)) ∧
    IsLeast t.bestRelaxation (marks (relaxations ops)) ∧
    t.upperBound = (incumbents ops).head? ∧
    (∀ upper, t.upperBound = some upper → upper.isNaN = false → t.best ≤ upper) ∧
    (∀ later, t.bestDual ≤ (after thresholds (ops ++ later)).bestDual) ∧
    (∀ x, (t.refreshIncumbent x).1 = true ↔
      x < largest ∧ ∀ y ∈ incumbents ops, y.isNaN = false → x < y) ∧
    (∀ x, (t.refreshRelaxation x).1 = true ↔
      x < largest ∧ ∀ y ∈ relaxations ops, y.isNaN = false → x < y) := by
  intro t
  have h : Sandwich ops t := sandwich_after thresholds ops
  have hlower : t.lowerBound.isNaN = false := (isNaN_of_le h.lower_le_best).1
  refine ⟨⟨hlower, h.best.isNaN, h.bestRelaxation.isNaN, h.bestDual⟩, h.lower_le_best, h.best,
    h.bestRelaxation, h.upperBound, fun upper hupper hn => ?_, bestDual_le_after thresholds ops,
    fun x => refreshIncumbent_best h, fun x => refreshRelaxation_best h⟩
  have hmem : upper ∈ incumbents ops := List.mem_of_mem_head? (h.upperBound ▸ hupper)
  exact h.best.2 upper (mem_marks.mpr (Or.inr ⟨hmem, hn⟩))

/-- An incumbent can be the best without being below every incumbent before it: one of them was no
number. -/
theorem beats_all_but_not_a_number :
    ¬ ∀ (ops : List Operation) (x : Float),
      ((after .standard ops).refreshIncumbent x).1 = true ↔
        x < largest ∧ ∀ y ∈ incumbents ops, x < y := by
  intro h
  have hbest : ((after .standard [.incumbent notANumber]).refreshIncumbent 1.0).1 = true := by
    decide +kernel
  have hall := ((h [.incumbent notANumber] 1.0).mp hbest).2 notANumber List.mem_cons_self
  exact absurd hall (by decide +kernel)

end Metaheuristics.Tracker
