import Metaheuristics.Proofs.Arithmetic.Negation

/-!
# The order of numbers

A number has a place on the line (`place`), and what is not a number has none.  Places are triples
of integers in lexicographic order, so `<` and `≤` are the order of places (`lt_iff`, `le_iff`): a
comparison with something that is not a number fails, and among numbers the order is total
(`le_of_not_lt`).  Negation reverses it (`neg_lt_neg_iff`).  The least of some numbers is not above
any of them (`foldl_minimum_le`), the largest not below.
-/

namespace Metaheuristics.Arithmetic

open Float.Model Float.Model.UnpackedFloat

/-! ## Places -/

/-- A place on the line: the sign with infinities apart, the exponent and the mantissa. -/
abbrev Place := Int × Int × Int

/-- The place of an unpacked number. -/
def unpackedPlace : UnpackedFloat → Option Place
  | .notANumber => none
  | .infinity .positive => some (2, 0, 0)
  | .infinity .negative => some (-2, 0, 0)
  | .zero _ => some (0, 0, 0)
  | .finite .positive m e _ => some (1, e, m)
  | .finite .negative m e _ => some (-1, -e, -m)

/-- **The place of a number.** -/
def place (x : Float) : Option Place := unpackedPlace x.toModel.unpack

/-- The lexicographic order of places. -/
def comparePlaces (p q : Place) : Ordering :=
  (compare p.1 q.1).then ((compare p.2.1 q.2.1).then (compare p.2.2 q.2.2))

instance : Std.TransCmp comparePlaces :=
  inferInstanceAs (Std.TransCmp (compareLex (compareOn fun p : Place => p.1)
    (compareLex (compareOn fun p : Place => p.2.1) (compareOn fun p : Place => p.2.2))))

theorem comparePlaces_self (p : Place) : comparePlaces p p = .eq := Std.ReflCmp.compare_self

theorem comparePlaces_swap (p q : Place) : comparePlaces p q = (comparePlaces q p).swap :=
  Std.OrientedCmp.eq_swap

/-- The place on the other side of zero. -/
def Place.neg (p : Place) : Place := (-p.1, -p.2.1, -p.2.2)

theorem compare_neg_neg (a b : Int) : compare (-a) (-b) = compare b a := by
  simp only [compare, compareOfLessAndEq, Int.neg_lt_neg_iff, Int.neg_inj, eq_comm]

theorem comparePlaces_neg (p q : Place) :
    comparePlaces p.neg q.neg = comparePlaces q p := by
  simp only [comparePlaces, Place.neg, compare_neg_neg]

theorem unpackedPlace_neg (u : UnpackedFloat) :
    unpackedPlace u.neg = (unpackedPlace u).map Place.neg := by
  rcases u with (_ | _) | _ | (_ | _) | ⟨_ | _, m, e, _⟩ <;> try rfl
  show some (1, e, (m : Int)) = some (Place.neg (-1, -e, -m))
  simp only [Place.neg, Int.neg_neg]

theorem place_neg (x : Float) : place (-x) = (place x).map Place.neg := by
  unfold place
  rw [unpack_neg, unpackedPlace_neg]

/-- What is compared is the places. -/
theorem compare_unpacked (a b : UnpackedFloat) :
    a.compare b = (unpackedPlace a).bind fun p => (unpackedPlace b).map (comparePlaces p) := by
  have hcast (m m' : Nat) : compare (m : Int) m' = compare m m' := by
    simp only [compare, compareOfLessAndEq, Int.ofNat_lt, Int.natCast_inj]
  rcases a with (_ | _) | _ | _ | ⟨_ | _, m, e, _⟩ <;>
    rcases b with (_ | _) | _ | _ | ⟨_ | _, m', e', _⟩ <;> try rfl
  · show some ((compare e e').then (compare m m')).swap =
      some ((compare (-e) (-e')).then (compare (-m : Int) (-m' : Int)))
    rw [compare_neg_neg, compare_neg_neg, hcast, Ordering.swap_then, Int.compare_swap,
      Nat.compare_swap]
  · show some ((compare e e').then (compare m m')) =
      some ((compare e e').then (compare (m : Int) (m' : Int)))
    rw [hcast]

/-! ## Comparisons -/

theorem isNaN_iff {x : Float} : x.isNaN = true ↔ place x = none := by
  show x.toModel.unpack.isNaN = true ↔ unpackedPlace x.toModel.unpack = none
  rcases x.toModel.unpack with (_ | _) | _ | _ | ⟨_ | _, m, e, _⟩ <;>
    simp [UnpackedFloat.isNaN, unpackedPlace]

theorem exists_place {x : Float} (h : x.isNaN = false) : ∃ p, place x = some p := by
  refine Option.ne_none_iff_exists'.mp fun hn => ?_
  rw [isNaN_iff.mpr hn] at h; cases h

theorem isNaN_eq {x : Float} : x.isNaN = (place x).isNone := by
  rw [Bool.eq_iff_iff, isNaN_iff, Option.isNone_iff_eq_none]

theorem lt_iff {x y : Float} :
    x < y ↔ ∃ p, place x = some p ∧ ∃ q, place y = some q ∧ comparePlaces p q = .lt := by
  show decide (((x.toModel.unpack.compare y.toModel.unpack) == some .lt) = true) = true ↔ _
  rw [decide_eq_true_eq, beq_iff_eq, compare_unpacked]
  simp [place, Option.bind_eq_some_iff]

theorem le_iff {x y : Float} :
    x ≤ y ↔ ∃ p, place x = some p ∧ ∃ q, place y = some q ∧ (comparePlaces p q).isLE := by
  show decide (((x.toModel.unpack.compare y.toModel.unpack).any (·.isLE)) = true) = true ↔ _
  rw [decide_eq_true_eq, Option.any_eq_true, compare_unpacked]
  simp [place, Option.bind_eq_some_iff, and_assoc]

theorem isNaN_of_le {x y : Float} (h : x ≤ y) : x.isNaN = false ∧ y.isNaN = false := by
  rw [le_iff] at h
  obtain ⟨p, hp, q, hq, -⟩ := h
  exact ⟨by rw [isNaN_eq, hp]; rfl, by rw [isNaN_eq, hq]; rfl⟩

theorem isNaN_of_isFinite {x : Float} (h : x.isFinite = true) : x.isNaN = false := by
  have h' : x.toModel.unpack.isFinite = true := h
  show x.toModel.unpack.isNaN = false
  revert h'
  rcases x.toModel.unpack with _ | _ | _ | _ <;> simp [UnpackedFloat.isFinite, UnpackedFloat.isNaN]

theorem le_self {x : Float} (h : x.isNaN = false) : x ≤ x := by
  obtain ⟨p, hp⟩ := exists_place h
  rw [le_iff]
  exact ⟨p, hp, p, hp, by rw [comparePlaces_self]; rfl⟩

/-- The order is total among numbers. -/
theorem le_of_not_lt {x y : Float} (hx : x.isNaN = false) (hy : y.isNaN = false) (h : ¬ x < y) :
    y ≤ x := by
  obtain ⟨p, hp⟩ := exists_place hx
  obtain ⟨q, hq⟩ := exists_place hy
  rw [lt_iff] at h
  rw [le_iff]
  refine ⟨q, hq, p, hp, ?_⟩
  rw [comparePlaces_swap, Ordering.isLE_swap]
  rcases hc : comparePlaces p q with _ | _ | _
  · exact absurd ⟨p, hp, q, hq, hc⟩ h
  · rfl
  · rfl

theorem le_of_lt {x y : Float} (h : x < y) : x ≤ y := by
  rw [lt_iff] at h
  rw [le_iff]
  obtain ⟨p, hp, q, hq, hc⟩ := h
  exact ⟨p, hp, q, hq, by rw [hc]; rfl⟩

theorem lt_asymm {x y : Float} (h : x < y) : ¬ y < x := by
  intro h'
  rw [lt_iff] at h h'
  obtain ⟨p, hp, q, hq, h1⟩ := h
  obtain ⟨q', hq', p', hp', h2⟩ := h'
  rw [Option.some.inj (hq'.symm.trans hq), Option.some.inj (hp'.symm.trans hp), comparePlaces_swap,
    h1] at h2
  cases h2

theorem le_trans {x y z : Float} (hxy : x ≤ y) (hyz : y ≤ z) : x ≤ z := by
  rw [le_iff] at hxy hyz ⊢
  obtain ⟨p, hp, q, hq, h1⟩ := hxy
  obtain ⟨q', hq', r, hr, h2⟩ := hyz
  obtain rfl : q = q' := Option.some.inj (hq.symm.trans hq')
  exact ⟨p, hp, r, hr, Std.TransCmp.isLE_trans h1 h2⟩

theorem not_lt_of_le {x y : Float} (h : x ≤ y) : ¬ y < x := by
  intro h'
  rw [le_iff] at h
  rw [lt_iff] at h'
  obtain ⟨p, hp, q, hq, h1⟩ := h
  obtain ⟨q', hq', p', hp', h2⟩ := h'
  rw [Option.some.inj (hq'.symm.trans hq), Option.some.inj (hp'.symm.trans hp), comparePlaces_swap,
    Ordering.swap_eq_lt] at h2
  rw [h2] at h1; cases h1

theorem lt_of_not_le {x y : Float} (hx : x.isNaN = false) (hy : y.isNaN = false) (h : ¬ y ≤ x) :
    x < y :=
  Classical.byContradiction fun hlt => h (le_of_not_lt hx hy hlt)

theorem lt_of_lt_of_le {x y z : Float} (hxy : x < y) (hyz : y ≤ z) : x < z := by
  refine lt_of_not_le (isNaN_of_le (le_of_lt hxy)).1 (isNaN_of_le hyz).2 fun hzx => ?_
  exact not_lt_of_le (le_trans hyz hzx) hxy

theorem lt_of_le_of_lt {x y z : Float} (hxy : x ≤ y) (hyz : y < z) : x < z := by
  refine lt_of_not_le (isNaN_of_le hxy).1 (isNaN_of_le (le_of_lt hyz)).2 fun hzx => ?_
  exact not_lt_of_le (le_trans hzx hxy) hyz

/-! ## Folds -/

/-- **What no step leads below**, a fold does not lead below: neither its start nor any item. -/
theorem foldl_bound {f : Float → Float → Float} {r : Float → Float → Prop} {P : Float → Prop}
    (hrefl : ∀ x, P x → r x x) (htrans : ∀ x y z, r x y → r y z → r x z)
    (hf : ∀ x y, P x → P y → P (f x y) ∧ r x (f x y) ∧ r y (f x y)) {a : Float} {xs : List Float}
    (ha : P a) (hxs : ∀ x ∈ xs, P x) : r a (xs.foldl f a) ∧ ∀ x ∈ xs, r x (xs.foldl f a) := by
  induction xs generalizing a with
  | nil => exact ⟨hrefl a ha, List.forall_mem_nil _⟩
  | cons x xs ih =>
    obtain ⟨hP, hleft, hright⟩ := hf a x ha (hxs x List.mem_cons_self)
    obtain ⟨hstart, hmem⟩ := ih hP fun y hy => hxs y (List.mem_cons_of_mem x hy)
    exact ⟨htrans _ _ _ hleft hstart, List.forall_mem_cons.mpr ⟨htrans _ _ _ hright hstart, hmem⟩⟩

theorem foldl_minimum_le {a : Float} {xs : List Float} (ha : a.isNaN = false)
    (hxs : ∀ x ∈ xs, x.isNaN = false) :
    xs.foldl minimum a ≤ a ∧ ∀ x ∈ xs, xs.foldl minimum a ≤ x := by
  refine foldl_bound (r := fun x y => y ≤ x) (P := fun x => x.isNaN = false)
    (fun x => le_self) (fun x y z hxy hyz => le_trans hyz hxy) (fun x y hx hy => ?_) ha hxs
  unfold minimum
  rw [hy, if_neg Bool.false_ne_true]
  split_ifs with h
  · exact ⟨hx, le_self hx, le_of_lt h⟩
  · exact ⟨hy, le_of_not_lt hx hy h, le_self hy⟩

theorem le_foldl_maximum {a : Float} {xs : List Float} (ha : a.isNaN = false)
    (hxs : ∀ x ∈ xs, x.isNaN = false) :
    a ≤ xs.foldl maximum a ∧ ∀ x ∈ xs, x ≤ xs.foldl maximum a := by
  refine foldl_bound (r := fun x y => x ≤ y) (P := fun x => x.isNaN = false)
    (fun x => le_self) (fun x y z => le_trans) (fun x y hx hy => ?_) ha hxs
  unfold maximum
  rw [hy, if_neg Bool.false_ne_true]
  split_ifs with h
  · exact ⟨hx, le_self hx, le_of_lt h⟩
  · exact ⟨hy, le_of_not_lt hy hx h, le_self hy⟩

/-! ## Negation -/

/-- Negation reverses the order. -/
theorem neg_lt_neg_iff {x y : Float} : -x < -y ↔ y < x := by
  simp only [lt_iff, place_neg, Option.map_eq_some_iff]
  constructor
  · rintro ⟨_, ⟨p, hp, rfl⟩, _, ⟨q, hq, rfl⟩, h⟩
    exact ⟨q, hq, p, hp, by rw [← comparePlaces_neg, h]⟩
  · rintro ⟨q, hq, p, hp, h⟩
    exact ⟨_, ⟨p, hp, rfl⟩, _, ⟨q, hq, rfl⟩, by rw [comparePlaces_neg, h]⟩

theorem neg_le_neg {x y : Float} (h : x ≤ y) : -y ≤ -x := by
  obtain ⟨hx, hy⟩ := isNaN_of_le h
  refine le_of_not_lt (by rw [isNaN_neg, hx]) (by rw [isNaN_neg, hy]) fun hlt => ?_
  rw [le_iff] at h
  rw [neg_lt_neg_iff, lt_iff] at hlt
  obtain ⟨p, hp, q, hq, h1⟩ := h
  obtain ⟨q', hq', p', hp', h2⟩ := hlt
  rw [Option.some.inj (hq'.symm.trans hq), Option.some.inj (hp'.symm.trans hp),
    comparePlaces_swap, Ordering.swap_eq_lt] at h2
  rw [h2] at h1; cases h1

/-! ## Clamping -/

/-- **What is clamped lies between the limits.** -/
theorem clamp_mem {lower upper x : Float} (h : lower ≤ upper) (hx : x.isNaN = false) :
    lower ≤ clamp lower upper h x ∧ clamp lower upper h x ≤ upper := by
  obtain ⟨hl, hu⟩ := isNaN_of_le h
  unfold clamp
  split_ifs with h1 h2
  · exact ⟨le_self hl, h⟩
  · exact ⟨h, le_self hu⟩
  · exact ⟨le_of_not_lt hx hl h1, le_of_not_lt hu hx h2⟩

end Metaheuristics.Arithmetic
