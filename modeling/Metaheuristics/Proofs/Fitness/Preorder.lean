import Metaheuristics.Fitness.Order
import Metaheuristics.Proofs.Arithmetic.Order
import Metaheuristics.Proofs.Population.Preorder

/-!
# Scalar fitness is totally preordered

Scalars are compared by their places, those without a place last (`Direction.compare_eq`), and
absent fitness comes after all present one.  So both directions, also where fitness may be absent,
are total preorders of all values (`Direction.totalPreorder_optional`).
-/

namespace Metaheuristics

variable {α V : Type}

theorem TotalPreorderOn.of_transCmp (compare : α → α → Ordering) [Std.TransCmp compare]
    (P : α → Prop) : TotalPreorderOn compare P where
  swap x y _ _ := Std.OrientedCmp.eq_swap
  trans x y z _ _ _ hxy hyz := by
    rw [ne_eq, ← Ordering.isLE_iff_ne_gt] at hxy hyz ⊢
    exact Std.TransCmp.isLE_trans hxy hyz

theorem TotalPreorderOn.flip {compare : α → α → Ordering} {P : α → Prop}
    (h : TotalPreorderOn compare P) : TotalPreorderOn (fun x y => compare y x) P where
  swap x y hx hy := h.swap y x hy hx
  trans x y z hx hy hz hyx hzy := h.trans z y x hz hy hx hzy hyx

/-- Absent values, being last and equal, make a preorder of a preorder. -/
theorem TotalPreorderOn.optional {compare : V → V → Ordering} {P : V → Prop}
    (h : TotalPreorderOn compare P) :
    TotalPreorderOn (compareOptional compare) fun x => ∀ v ∈ x, P v where
  swap x y hx hy := by
    obtain _ | x := x <;> obtain _ | y := y <;> try rfl
    exact h.swap x y (hx x rfl) (hy y rfl)
  trans x y z hx hy hz hxy hyz := by
    obtain _ | x := x <;> obtain _ | y := y <;> obtain _ | z := z <;>
      simp only [compareOptional, ne_eq, reduceCtorEq, not_false_eq_true, not_true_eq_false]
        at hxy hyz ⊢
    exact h.trans x y z (hx x rfl) (hy y rfl) (hz z rfl) hxy hyz

namespace Direction

open Arithmetic

theorem compareNumbers_eq {x y : Float} {p q : Place} (hp : place x = some p)
    (hq : place y = some q) : compareNumbers x y = comparePlaces p q := by
  have hlt {a b : Float} {r s : Place} (hr : place a = some r) (hs : place b = some s) :
      a < b ↔ comparePlaces r s = .lt := by
    rw [lt_iff]
    simp [hr, hs]
  unfold compareNumbers
  rw [if_congr (hlt hp hq) rfl (if_congr (hlt hq hp) rfl rfl), comparePlaces_swap q p]
  cases comparePlaces p q <;> rfl

theorem compare_eq (direction : Direction) (x y : Float) :
    direction.compare x y = compareOptional (match direction with
      | minimize => comparePlaces
      | maximize => fun p q => comparePlaces q p) (place x) (place y) := by
  unfold Direction.compare
  rw [isNaN_eq, isNaN_eq]
  rcases hp : place x with _ | p <;> rcases hq : place y with _ | q <;> try rfl
  cases direction
  · exact compareNumbers_eq hp hq
  · show (compareNumbers x y).swap = comparePlaces q p
    rw [compareNumbers_eq hp hq, ← comparePlaces_swap]

theorem totalPreorder (direction : Direction) :
    TotalPreorderOn direction.compare fun _ => True := by
  have hplaces := TotalPreorderOn.of_transCmp comparePlaces fun _ => True
  have h : TotalPreorderOn (fun x y => direction.compare x y)
      fun x => ∀ p ∈ place x, True := by
    simp only [compare_eq]
    cases direction
    · exact hplaces.optional.comap place
    · exact hplaces.flip.optional.comap place
  exact h.mono fun _ _ _ _ => trivial

/-- **Both directions are total preorders**, of all scalars and of absent ones. -/
theorem totalPreorder_optional (direction : Direction) :
    TotalPreorderOn (compareOptional direction.compare) fun _ => True :=
  direction.totalPreorder.optional.mono fun _ _ _ _ => trivial

end Direction

end Metaheuristics
