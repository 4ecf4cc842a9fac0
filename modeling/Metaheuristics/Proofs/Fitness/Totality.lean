import Metaheuristics.Fitness.Vector
import Metaheuristics.Proofs.Fitness.Preorder

/-!
# Every order of fitness is a total preorder

Sorting, merging and the search for the best all rest on comparisons that are total preorders.  Each
order is one on the fitness it is made for, and stays one where fitness may be absent
(`orders_total`):

* scalars in either direction, on all values;
* lexicographic vectors, on the vectors of one length (`Lexicographic.totalPreorder`): where the
  first components tie, the others decide, so this is an induction on the length;
* weighted sums, on all vectors, which are compared by their sums (`WeightedSum.totalPreorder`).

What is not a number comes after every number: as a scalar, as the first component in which two
vectors differ (`Lexicographic.compare_of_isNaN`), or as a weighted sum.
-/

namespace Metaheuristics

variable {α V : Type}

/-! ## The laws -/

/-- **The laws of a total preorder** on the items with the property `P`. -/
structure TotalPreorderLaws (compare : α → α → Ordering) (P : α → Prop) : Prop
    extends TotalPreorderOn compare P where
  refl : ∀ x, P x → compare x x = .eq
  /-- Items that tie compare alike to everything else. -/
  alike : ∀ x y z, P x → P y → P z → compare x y = .eq →
    compare x z = compare y z ∧ compare z x = compare z y

theorem TotalPreorderOn.laws {compare : α → α → Ordering} {P : α → Prop}
    (h : TotalPreorderOn compare P) : TotalPreorderLaws compare P where
  toTotalPreorderOn := h
  refl _ hx := h.refl hx
  alike _ _ _ hx hy hz hxy := h.compare_eq_of_eq hx hy hz hxy

/-- **An order ranks the fitness with the property `P`**, also where it may be absent, and absent
fitness comes last. -/
structure FitnessOrder.Ranks (order : FitnessOrder V) (P : V → Prop) : Prop where
  present : TotalPreorderLaws order.compare P
  optional : TotalPreorderLaws (compareOptional order.compare) fun x => ∀ v ∈ x, P v
  absent : ∀ v, P v → compareOptional order.compare none (some v) = .gt

theorem TotalPreorderOn.ranks {order : FitnessOrder V} {P : V → Prop}
    (h : TotalPreorderOn order.compare P) : order.Ranks P where
  present := h.laws
  optional := h.optional.laws
  absent _ _ := rfl

/-! ## What is not a number -/

theorem Direction.compare_of_isNaN (direction : Direction) {x y : Float} (hx : x.isNaN = true)
    (hy : y.isNaN = false) : direction.compare x y = .gt := by
  unfold Direction.compare
  rw [hx, hy]

namespace Lexicographic

variable {direction : Direction}

/-- Components that tie leave the decision to the others. -/
theorem compare_append {xs ys : List Float}
    (h : List.Forall₂ (fun x y => direction.compare x y = .eq) xs ys) (as bs : List Float) :
    compare direction (xs ++ as) (ys ++ bs) = compare direction as bs := by
  induction h with
  | nil => rfl
  | cons hxy _ ih =>
    rw [List.cons_append, List.cons_append, compare, hxy]
    exact ih

/-- A component that is not a number, where two vectors differ first, makes the worse vector. -/
theorem compare_of_isNaN {xs ys as bs : List Float} {x y : Float}
    (h : List.Forall₂ (fun a b => direction.compare a b = .eq) xs ys) (hx : x.isNaN = true)
    (hy : y.isNaN = false) : compare direction (xs ++ x :: as) (ys ++ y :: bs) = .gt := by
  rw [compare_append h, compare, direction.compare_of_isNaN hx hy]
  rfl

/-! ## Vectors -/

theorem totalPreorder (direction : Direction) (n : Nat) :
    TotalPreorderOn (compare direction) (·.length = n) := by
  induction n with
  | zero =>
    have heq (x y : List Float) (hx : x.length = 0) : compare direction x y = .eq := by
      rw [List.length_eq_zero_iff.mp hx, compare]
      exact fun _ _ _ _ h => nomatch h
    refine ⟨fun x y hx hy => ?_, fun x y z hx _ _ _ _ => ?_⟩
    · rw [heq x y hx, heq y x hy]
      rfl
    · rw [heq x z hx]
      decide
  | succ n ih =>
    -- a vector with a first component is the pair of it and the others
    have hpair := direction.totalPreorder.pair ih
    refine ⟨fun x y hx hy => ?_, fun x y z hx hy hz => ?_⟩
    · obtain ⟨a, x, rfl⟩ := List.exists_cons_of_length_eq_add_one hx
      obtain ⟨b, y, rfl⟩ := List.exists_cons_of_length_eq_add_one hy
      exact hpair.swap (a, x) (b, y) ⟨trivial, Nat.succ.inj hx⟩ ⟨trivial, Nat.succ.inj hy⟩
    · obtain ⟨a, x, rfl⟩ := List.exists_cons_of_length_eq_add_one hx
      obtain ⟨b, y, rfl⟩ := List.exists_cons_of_length_eq_add_one hy
      obtain ⟨c, z, rfl⟩ := List.exists_cons_of_length_eq_add_one hz
      exact hpair.trans (a, x) (b, y) (c, z) ⟨trivial, Nat.succ.inj hx⟩
        ⟨trivial, Nat.succ.inj hy⟩ ⟨trivial, Nat.succ.inj hz⟩

end Lexicographic

theorem WeightedSum.totalPreorder (ranking : WeightedSum) :
    TotalPreorderOn ranking.order.compare fun _ => True :=
  ranking.direction.totalPreorder.comap ranking.scalarize

/-! ## All orders -/

/-- **Every order ranks the fitness it is made for**, and what is not a number comes after every
number. -/
theorem orders_total :
    (∀ direction : Direction, direction.order.Ranks (fun _ => True) ∧
      ∀ x y : Float, x.isNaN = true → y.isNaN = false → direction.order.compare x y = .gt) ∧
    (∀ ranking : Lexicographic, ranking.order.Ranks (·.length = ranking.objectives) ∧
      ∀ (xs ys as bs : List Float) (x y : Float),
        List.Forall₂ (fun a b => ranking.direction.compare a b = .eq) xs ys →
        x.isNaN = true → y.isNaN = false →
        ranking.order.compare (xs ++ x :: as) (ys ++ y :: bs) = .gt) ∧
    ∀ ranking : WeightedSum, ranking.order.Ranks (fun _ => True) ∧
      ∀ u v : List Float, (ranking.scalarize u).isNaN = true →
        (ranking.scalarize v).isNaN = false → ranking.order.compare u v = .gt := by
  refine ⟨fun direction => ⟨?_, ?_⟩, fun ranking => ⟨?_, ?_⟩, fun ranking => ⟨?_, ?_⟩⟩
  · exact TotalPreorderOn.ranks direction.totalPreorder
  · exact fun x y hx hy => direction.compare_of_isNaN hx hy
  · exact TotalPreorderOn.ranks (Lexicographic.totalPreorder ranking.direction ranking.objectives)
  · exact fun xs ys as bs x y h hx hy => Lexicographic.compare_of_isNaN h hx hy
  · exact TotalPreorderOn.ranks ranking.totalPreorder
  · exact fun u v hu hv => ranking.direction.compare_of_isNaN hu hv

/-- The two zeros tie, so they compare alike; a component that is not a number decides behind them,
and so does a sum with one. -/
theorem orders_total_zeros :
    (Direction.maximize.compare 0.0 Arithmetic.infinity
        = Direction.maximize.compare (-0.0) Arithmetic.infinity ∧
      Direction.maximize.compare Arithmetic.notANumber (-Arithmetic.infinity) = .gt) ∧
    Lexicographic.compare .minimize [0.0, Arithmetic.notANumber] [-0.0, Arithmetic.infinity] = .gt ∧
    ∃ ranking, WeightedSum.ofWeights .minimize [0.0, 1.0] = .ok ranking ∧
      ranking.order.compare [Arithmetic.infinity, 1.0] [2.0] = .gt := by
  obtain ⟨hscalar, hvector, hsum⟩ := orders_total
  refine ⟨⟨?_, ?_⟩, ?_, ⟨.minimize, [0.0, 1.0], by decide⟩, rfl, ?_⟩
  · exact ((hscalar .maximize).1.present.alike 0.0 (-0.0) Arithmetic.infinity trivial trivial
      trivial (by decide)).1
  · exact (hscalar .maximize).2 Arithmetic.notANumber (-Arithmetic.infinity) (by decide) (by decide)
  · exact (hvector ⟨.minimize, 2⟩).2 [0.0] [-0.0] [] [] Arithmetic.notANumber Arithmetic.infinity
      (.cons (by decide) .nil) (by decide) (by decide)
  · exact (hsum _).2 [Arithmetic.infinity, 1.0] [2.0] (by decide) (by decide)

end Metaheuristics
