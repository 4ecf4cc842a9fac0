import Metaheuristics.Proofs.Arithmetic.Order
import Metaheuristics.Tracker

/-!
# Sequences of operations

A tracker is driven by operations in any order: objectives of the relaxation and of the incumbent,
priced columns, a halved step, and three ways to count (`Operation`).  `after` is the tracker they
lead to, and `incumbents` and `relaxations` are the objectives that have been handed in.

What each operation does to the bounds is said once, by small lemmas on the fields: the bookkeeping
of slow improvements touches none of them, a new objective replaces the best one when it is less and
draws the lower bound down to itself (`refreshIncumbent_eq`, `refreshRelaxation_eq`).
-/

namespace Metaheuristics.Tracker

/-- **An operation on a tracker.**  The executors of priced columns may be of another type each
time. -/
inductive Operation : Type 1 where
  | relaxation (objective : Float)
  | incumbent (objective : Float)
  | columns {κ : Type} [DecidableEq κ] (priced : List (Column κ))
  | halve
  | next (better : Bool)
  | increment
  | decrement

/-- The tracker after an operation. -/
def apply (t : Tracker) : Operation → Tracker
  | .relaxation objective => (t.refreshRelaxation objective).2
  | .incumbent objective => (t.refreshIncumbent objective).2
  | @Operation.columns _ _ priced => t.refreshLowerBound priced
  | .halve => t.halveStep
  | .next better => t.next better
  | .increment => t.increment
  | .decrement => t.decrement

/-- **The tracker after a sequence of operations.** -/
def after (thresholds : Thresholds) (ops : List Operation) : Tracker :=
  ops.foldl apply (start thresholds)

/-- The incumbents that have been handed in, in order. -/
def incumbents (ops : List Operation) : List Float :=
  ops.filterMap fun
    | .incumbent objective => some objective
    | _ => none

/-- The objectives of the relaxation that have been handed in, in order. -/
def relaxations (ops : List Operation) : List Float :=
  ops.filterMap fun
    | .relaxation objective => some objective
    | _ => none

variable {t : Tracker} {thresholds : Thresholds} {ops ops' : List Operation} {op : Operation}
  {x : Float}

theorem after_append :
    after thresholds (ops ++ ops') = ops'.foldl apply (after thresholds ops) :=
  List.foldl_append

theorem after_concat : after thresholds (ops ++ [op]) = (after thresholds ops).apply op :=
  after_append

theorem incumbents_append : incumbents (ops ++ ops') = incumbents ops ++ incumbents ops' :=
  List.filterMap_append

theorem relaxations_append : relaxations (ops ++ ops') = relaxations ops ++ relaxations ops' :=
  List.filterMap_append

/-! ## Drawing the lower bound down -/

@[simp] theorem lowerTo_best : (t.lowerTo x).best = t.best := by unfold lowerTo; split <;> rfl

@[simp] theorem lowerTo_bestRelaxation : (t.lowerTo x).bestRelaxation = t.bestRelaxation := by
  unfold lowerTo; split <;> rfl

@[simp] theorem lowerTo_bestDual : (t.lowerTo x).bestDual = t.bestDual := by
  unfold lowerTo; split <;> rfl

@[simp] theorem lowerTo_upperBound : (t.lowerTo x).upperBound = t.upperBound := by
  unfold lowerTo; split <;> rfl

theorem lowerTo_lowerBound :
    (t.lowerTo x).lowerBound = if x < t.lowerBound then x else t.lowerBound := by
  unfold lowerTo; split <;> rfl

/-! ## The bookkeeping of slow improvements -/

@[simp] theorem noteRelaxation_best : (t.noteRelaxation x).best = t.best := by
  unfold noteRelaxation; split_ifs <;> rfl

@[simp] theorem noteRelaxation_bestRelaxation :
    (t.noteRelaxation x).bestRelaxation = t.bestRelaxation := by
  unfold noteRelaxation; split_ifs <;> rfl

@[simp] theorem noteRelaxation_bestDual : (t.noteRelaxation x).bestDual = t.bestDual := by
  unfold noteRelaxation; split_ifs <;> rfl

@[simp] theorem noteRelaxation_lowerBound : (t.noteRelaxation x).lowerBound = t.lowerBound := by
  unfold noteRelaxation; split_ifs <;> rfl

@[simp] theorem noteRelaxation_upperBound : (t.noteRelaxation x).upperBound = t.upperBound := by
  unfold noteRelaxation; split_ifs <;> rfl

/-! ## Objectives -/

theorem refreshRelaxation_eq :
    (t.refreshRelaxation x).1 = decide (x < t.bestRelaxation) ∧
    (t.refreshRelaxation x).2.bestRelaxation =
      (if x < t.bestRelaxation then x else t.bestRelaxation) ∧
    (t.refreshRelaxation x).2.lowerBound =
      (if x < t.bestRelaxation ∧ x < t.lowerBound then x else t.lowerBound) ∧
    (t.refreshRelaxation x).2.best = t.best ∧
    (t.refreshRelaxation x).2.bestDual = t.bestDual ∧
    (t.refreshRelaxation x).2.upperBound = t.upperBound := by
  unfold refreshRelaxation
  by_cases h : x < t.bestRelaxation <;> simp [h, lowerTo_lowerBound]

theorem refreshIncumbent_eq :
    (t.refreshIncumbent x).1 = decide (x < t.best) ∧
    (t.refreshIncumbent x).2.best = (if x < t.best then x else t.best) ∧
    (t.refreshIncumbent x).2.lowerBound =
      (if x < t.best ∧ x < t.lowerBound then x else t.lowerBound) ∧
    (t.refreshIncumbent x).2.upperBound = t.upperBound.or (some x) ∧
    (t.refreshIncumbent x).2.bestRelaxation = t.bestRelaxation ∧
    (t.refreshIncumbent x).2.bestDual = t.bestDual := by
  unfold refreshIncumbent noteIncumbent
  by_cases h : x < t.best <;> simp [h, lowerTo_lowerBound]

/-! ## Priced columns -/

/-- **Freshly priced columns**: nothing happens, or a dual bound between the best one and the best
incumbent is kept. -/
theorem refreshLowerBound_cases {κ : Type} [DecidableEq κ] (priced : List (Column κ)) :
    t.refreshLowerBound priced = t ∨
      ∃ dual, t.bestDual < dual ∧ dual < t.best ∧ t.refreshLowerBound priced =
        { t with
          bestDual := dual
          lowerBound := if t.lowerBound < dual then dual else t.lowerBound } := by
  by_cases h : t.bestDual < t.dualBound priced ∧ t.dualBound priced < t.best
  · exact Or.inr ⟨_, h.1, h.2, if_pos h⟩
  · exact Or.inl (if_neg h)

end Metaheuristics.Tracker
