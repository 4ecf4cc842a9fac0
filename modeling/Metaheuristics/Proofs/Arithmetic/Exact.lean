import Metaheuristics.Proofs.Arithmetic.Accuracy
import Metaheuristics.Proofs.Arithmetic.Neutral

/-!
# Exact sums

A finite number is its steps from zero, up to the sign of zero (`sameNumber_of_steps`), and the
sign of zero is seen in a sum only if the other operand is negative zero (`add_of_steps_zero`).  So
two lists that are summed exactly and have the same exact sum have the same sum, and lists of the
same numbers in another order even agree in the sign of a sum that is zero: it is negative only
where all the numbers are negative zeros (`sum_eq_neg_zero`).
-/

namespace Metaheuristics.Arithmetic

open Float.Model Float.Model.UnpackedFloat

variable {x y z : Float} {a b : Int} {xs ys : List Float}

/-! ## Numbers up to the sign of zero -/

/-- **The same number**: the same value, or two zeros, of which each may have either sign. -/
def SameNumber (x y : Float) : Prop := x = y ∨ steps x = some 0 ∧ steps y = some 0

theorem SameNumber.symm (h : SameNumber x y) : SameNumber y x :=
  h.imp Eq.symm And.symm

theorem steps_neg_zero : steps (-0.0) = some 0 := steps_neg hasUnits_zero.steps

/-- **A finite number is its steps**, up to the sign of zero. -/
theorem sameNumber_of_steps (hx : steps x = some a) (hy : steps y = some a) : SameNumber x y := by
  by_cases ha : a = 0
  · exact Or.inr ⟨ha ▸ hx, ha ▸ hy⟩
  obtain ⟨s, v, hv, rfl⟩ := exists_inUnits hx
  obtain ⟨s', w, hw, heq⟩ := exists_inUnits hy
  obtain ⟨rfl, rfl⟩ : s = s' ∧ v = w := by
    cases s <;> cases s' <;> simp only [Sign.apply] at heq ha
    · exact ⟨rfl, by omega⟩
    · omega
    · omega
    · exact ⟨rfl, by omega⟩
  refine Or.inl ?_
  rw [← unpack_of_steps (rfl : x.toModel.unpack = _), hv.unique hw, unpack_of_steps rfl]

theorem beq_iff_steps (hx : steps x = some a) (hy : steps y = some b) :
    (x == y) = true ↔ a = b := by
  show (x.toModel.unpack.compare y.toModel.unpack == some .eq) = true ↔ _
  rw [beq_iff_eq, compare_steps hx hy, Option.some.injEq, Int.compare_eq_eq]

theorem sameNumber_of_le (hx : x.isFinite = true) (hy : y.isFinite = true) (hxy : x ≤ y)
    (hyx : y ≤ x) : SameNumber x y := by
  obtain ⟨a, ha⟩ := isFinite_iff_steps.mp hx
  obtain ⟨b, hb⟩ := isFinite_iff_steps.mp hy
  obtain rfl : a = b :=
    Int.le_antisymm ((le_iff_steps ha hb).mp hxy) ((le_iff_steps hb ha).mp hyx)
  exact sameNumber_of_steps ha hb

theorem le_of_steps_eq (hx : steps x = some a) (hy : steps y = some a) : x ≤ y :=
  (le_iff_steps hx hy).mpr (Int.le_refl a)

theorem SameNumber.le (h : SameNumber x y) (hx : x.isNaN = false) : x ≤ y := by
  rcases h with rfl | ⟨hx, hy⟩
  · exact le_self hx
  · exact le_of_steps_eq hx hy

theorem SameNumber.steps_eq (h : SameNumber x y) : steps x = steps y := by
  rcases h with rfl | ⟨hx, hy⟩
  · rfl
  · rw [hx, hy]

/-- The order does not see the sign of zero. -/
theorem SameNumber.lt_left (h : SameNumber x y) : x < z ↔ y < z := by
  rcases h with rfl | ⟨hx, hy⟩
  · exact Iff.rfl
  · exact ⟨lt_of_le_of_lt (le_of_steps_eq hy hx), lt_of_le_of_lt (le_of_steps_eq hx hy)⟩

theorem SameNumber.lt_right (h : SameNumber x y) : z < x ↔ z < y := by
  rcases h with rfl | ⟨hx, hy⟩
  · exact Iff.rfl
  · exact ⟨fun h => lt_of_lt_of_le h (le_of_steps_eq hx hy),
      fun h => lt_of_lt_of_le h (le_of_steps_eq hy hx)⟩

/-! ## The sign of a sum that is zero -/

theorem eq_zero_or_neg_zero (h : steps x = some 0) : x = 0.0 ∨ x = -0.0 := by
  by_cases hsign : sign? x.toModel.unpack = some .negative
  · rcases sign?_eq_negative_iff.mp hsign with hlt | hzero
    · exact absurd ((lt_iff_steps h hasUnits_zero.steps).mp hlt) (Int.lt_irrefl 0)
    · exact Or.inr hzero
  · obtain ⟨v, hv⟩ := exists_hasUnits_of_sign (isFinite_iff_steps.mpr ⟨0, h⟩) hsign
    obtain rfl : v = 0 := Int.ofNat_inj.mp (Option.some.inj (hv.steps.symm.trans h))
    exact Or.inl (hv.eq hasUnits_zero)

theorem add_neg_zero_self (x : Float) : x + -0.0 = x := by
  rw [add_swap]
  exact neg_zero_add_self x

theorem add_zero_self (h : x ≠ -0.0) : x + 0.0 = x := by
  show Float.ofModel (Float.Model.pack (UnpackedFloat.add Format.binary64 x.toModel.unpack
    (0.0 : Float).toModel.unpack)) = x
  rw [unpack_zero]
  rcases hx : x.toModel.unpack with (_ | _) | _ | (_ | _) | _
  case zero.negative => exact absurd (unpack_of_steps hx).symm h
  all_goals exact unpack_of_steps hx

/-- Zero is neutral whatever its sign, except for negative zero. -/
theorem add_of_steps_zero (hx : x ≠ -0.0) (hy : steps y = some 0) : x + y = x := by
  rcases eq_zero_or_neg_zero hy with rfl | rfl
  · exact add_zero_self hx
  · exact add_neg_zero_self x

theorem SameNumber.add (h : SameNumber y z) (x : Float) : SameNumber (x + y) (x + z) := by
  by_cases hx : x = -0.0
  · rw [hx, neg_zero_add_self, neg_zero_add_self]
    exact h
  · rcases h with rfl | ⟨hy, hz⟩
    · exact Or.inl rfl
    · exact Or.inl ((add_of_steps_zero hx hy).trans (add_of_steps_zero hx hz).symm)

theorem unpackedSteps_add {u v : UnpackedFloat} (h : u.isFinite = false ∨ v.isFinite = false) :
    unpackedSteps (Float.Model.pack (UnpackedFloat.add Format.binary64 u v)).unpack = none := by
  have hadd : UnpackedFloat.add Format.binary64 u v = .notANumber ∨
      ∃ s, UnpackedFloat.add Format.binary64 u v = .infinity s := by
    rcases u with (_ | _) | _ | _ | _ <;> rcases v with (_ | _) | _ | _ | _ <;>
      simp only [UnpackedFloat.isFinite, Bool.true_eq_false, or_self, or_false, or_true] at h <;>
      first
      | exact Or.inl rfl
      | exact Or.inr ⟨_, rfl⟩
  rcases hadd with hadd | ⟨_ | _, hadd⟩ <;> rw [hadd] <;> rfl

/-- A sum that is finite has finite operands. -/
theorem exists_steps_of_add {c : Int} (h : steps (x + y) = some c) :
    ∃ a b, steps x = some a ∧ steps y = some b := by
  have hfinite : x.isFinite = true ∧ y.isFinite = true := by
    by_contra hnot
    rw [not_and_or, Bool.not_eq_true, Bool.not_eq_true] at hnot
    cases h.symm.trans (unpackedSteps_add hnot)
  obtain ⟨a, ha⟩ := isFinite_iff_steps.mp hfinite.1
  obtain ⟨b, hb⟩ := isFinite_iff_steps.mp hfinite.2
  exact ⟨a, b, ha, hb⟩

theorem roundSteps_eq_zero (h : roundSteps (a * oneUnits) = 0) : a = 0 := by
  have herror := roundSteps_error a
  omega

theorem add_eq_zero (hx : steps x = some a) (hy : steps y = some (-a)) (ha : a ≠ 0) :
    x + y = 0.0 := by
  obtain rfl : y = -x := by
    rcases sameNumber_of_steps hy (steps_neg hx) with h | ⟨-, h⟩
    · exact h
    · have := Option.some.inj ((steps_neg hx).symm.trans h)
      omega
  show Float.ofModel (Float.Model.pack (UnpackedFloat.add Format.binary64 x.toModel.unpack
    (-x).toModel.unpack)) = _
  rw [unpack_neg]
  unfold steps at hx
  rcases hu : x.toModel.unpack with _ | _ | s | ⟨s, m, e, hm⟩ <;> rw [hu] at hx <;> cases hx
  · exact absurd rfl ha
  · simp only [UnpackedFloat.add, UnpackedFloat.neg, apply_neg, Int.add_right_neg]
    rfl

/-- A sum is negative zero only if both operands are. -/
theorem add_eq_neg_zero (h : x + y = -0.0) : x = -0.0 ∧ y = -0.0 := by
  by_cases hx : x = -0.0
  · rw [hx, neg_zero_add_self] at h
    exact ⟨hx, h⟩
  by_cases hy : y = -0.0
  · rw [hy, add_neg_zero_self] at h
    exact absurd h hx
  have hsum : steps (x + y) = some 0 := h ▸ steps_neg_zero
  obtain ⟨a, b, ha, hb⟩ := exists_steps_of_add hsum
  obtain rfl : b = -a := by
    have := roundSteps_eq_zero ((standsFor_add ha hb).eq_of_steps hsum).symm
    omega
  by_cases hzero : a = 0
  · subst hzero
    rw [add_of_steps_zero hx hb] at h
    exact absurd h hx
  · rw [add_eq_zero ha hb hzero] at h
    exact absurd h (by decide +kernel)

theorem sum_eq_neg_zero : sum xs = -0.0 ↔ ∀ x ∈ xs, x = -0.0 := by
  have hfold (total : Float) : xs.foldl (· + ·) total = -0.0 ↔
      total = -0.0 ∧ ∀ x ∈ xs, x = -0.0 := by
    induction xs generalizing total with
    | nil => simp
    | cons x xs ih =>
      rw [List.foldl_cons, ih, List.forall_mem_cons, ← and_assoc]
      refine and_congr_left fun _ => ⟨add_eq_neg_zero, ?_⟩
      rintro ⟨rfl, rfl⟩
      exact neg_zero_add_self _
  unfold sum
  rw [hfold]
  exact and_iff_right rfl

/-! ## Exact sums -/

/-- **The exact sum** of finite numbers, in steps. -/
def exactSum (xs : List Float) : Int := (xs.map fun x => (steps x).getD 0).sum

/-- **Numbers whose sum is exact**: what is left after all rounding is the exact sum. -/
def SumsExactly (xs : List Float) : Prop := steps (sum xs) = some (exactSum xs)

instance : Decidable (SumsExactly xs) := inferInstanceAs (Decidable (_ = _))

theorem exactSum_perm (h : xs.Perm ys) : exactSum xs = exactSum ys :=
  (h.map _).sum_eq

/-- **The order of exact sums** makes no difference, not even for the sign of zero. -/
theorem sum_perm (h : xs.Perm ys) (hx : SumsExactly xs) (hy : SumsExactly ys) :
    sum xs = sum ys := by
  unfold SumsExactly at hx hy
  rw [exactSum_perm h] at hx
  rcases sameNumber_of_steps hx hy with heq | ⟨hzero, hzero'⟩
  · exact heq
  have hsign : sum xs = -0.0 ↔ sum ys = -0.0 := by
    simp only [sum_eq_neg_zero, h.mem_iff]
  rcases eq_zero_or_neg_zero hzero with hp | hn
  · rcases eq_zero_or_neg_zero hzero' with hp' | hn'
    · rw [hp, hp']
    · rw [hsign.mpr hn', hn']
  · rw [hn, hsign.mp hn]

end Metaheuristics.Arithmetic
