import Metaheuristics.Proofs.Fitness.Worst
import Metaheuristics.Proofs.Model.Calls

/-!
# The worst fitness is out of reach

The worst value of an order is isolated from the values with some property when it is better than
none of them, and its distance from each of them, itself included, lies beyond every number
(`FitnessOrder.Isolated`).  So it is among the scalars that are numbers (`Direction.isolated`) and
among the vectors of numbers with at least one component (`Lexicographic.isolated`).
-/

namespace Metaheuristics

open Arithmetic

variable {γ σ V : Type} {P : V → Prop} {order : FitnessOrder V}

/-- **The worst value of an order is isolated** from the values with the property `P`. -/
structure FitnessOrder.Isolated (order : FitnessOrder V) (P : V → Prop) : Prop where
  worst : P order.worst
  not_better : ∀ v, P v → order.compare order.worst v ≠ .lt
  /-- The distance to it is infinite or no number. -/
  far : ∀ v, P v → Beyond (order.distance v order.worst)

/-! ## Scalars and vectors -/

theorem Direction.isolated (direction : Direction) :
    direction.order.Isolated fun x => x.isNaN = false where
  worst := direction.isNaN_worst
  not_better x hx hlt := by
    rw [(direction.worst_lt_iff x).mp hlt] at hx
    cases hx
  far x _ := by
    show Beyond (x - direction.worst).abs
    rw [direction.worst_eq]
    exact beyond_abs_sub_infinite x _

theorem zipWith_replicate (f : Float → Float → Float) (value : List Float) (x : Float) :
    List.zipWith f value (List.replicate value.length x) = value.map (f · x) := by
  induction value with
  | nil => rfl
  | cons y value ih => rw [List.length_cons, List.replicate_succ, List.zipWith_cons_cons, ih]; rfl

/-- **Among vectors of numbers** the one with infinite components is isolated. -/
theorem Lexicographic.isolated (ranking : Lexicographic) (hpos : 1 ≤ ranking.objectives) :
    ranking.order.Isolated fun v => v.length = ranking.objectives ∧ ∀ x ∈ v, x.isNaN = false where
  worst := by
    refine ⟨List.length_replicate, fun x hx => ?_⟩
    rw [List.eq_of_mem_replicate hx]
    exact ranking.direction.isNaN_worst
  not_better v hv hlt := by
    obtain ⟨k, x, rest, rfl, hx⟩ := (worst_lt_iff hv.1).mp hlt
    rw [hv.2 x (List.mem_append_right _ List.mem_cons_self)] at hx
    cases hx
  far v hv := by
    show Beyond (sum (List.zipWith _ v (List.replicate ranking.objectives _)))
    rw [← hv.1, zipWith_replicate, ranking.direction.worst_eq]
    refine beyond_sum ?_ fun d hd => ?_
    · intro hnil
      rw [← hv.1, List.map_eq_nil_iff.mp hnil] at hpos
      cases hpos
    · obtain ⟨x, -, rfl⟩ := List.mem_map.mp hd
      exact beyond_abs_sub_infinite x _

/-! ## Models -/

/-- **The model does as an order says**: with its comparison, its worst value and its distance. -/
structure Model.Obeys (m : Model γ σ V) (order : FitnessOrder V) : Prop where
  compare : m.compare = compareOptional order.compare
  worst : m.worst = order.worst
  distance : m.distance = order.distance

namespace Model.Obeys

variable {m : Model γ σ V}

theorem watched (h : m.Obeys order) : m.watched.Obeys order := ⟨h.compare, h.worst, h.distance⟩

/-- The worst value that stands in for an absent fitness has the property too. -/
theorem present (h : m.Obeys order) (hisolated : order.Isolated P) {fitness : Option V}
    (hfitness : ∀ value ∈ fitness, P value) : P (m.present fitness) := by
  obtain _ | value := fitness
  · rw [show m.present none = m.worst from rfl, h.worst]
    exact hisolated.worst
  · exact hfitness value rfl

end Model.Obeys

end Metaheuristics
