import Metaheuristics.Proofs.Arithmetic.Scaling

/-!
# The accuracy of rounding

What is rounded to 53 bits changes by at most `2⁻⁵³` of its size (`roundSteps_error`), since the
grain of a number is at most `2⁻⁵²` of it and a rounded quotient is off by half a unit.  What is not
above such a result is not far above the exact one (`StandsFor.le_of_le`).

Besides, absolute values in steps (`steps_abs`) and quotients by what is not a positive finite
number: a positive number divided by one with the negative sign is not above zero
(`div_nonpos_of_sign`), and divided by zero it is infinity (`div_zero_of_pos`).
-/

namespace Metaheuristics.Arithmetic

open Float.Model Float.Model.UnpackedFloat

/-! ## Errors -/

theorem divEven_error {d : Nat} (hd : 0 < d) (n : Nat) :
    2 * (divEven n d * d) ≤ 2 * n + d ∧ 2 * n ≤ 2 * (divEven n d * d) + d := by
  have hlt : n % d < d := Nat.mod_lt n hd
  have hsplit : n / d * d + n % d = n := Nat.div_add_mod' n d
  have hsucc : (n / d + 1) * d = n / d * d + d := Nat.succ_mul _ _
  unfold divEven
  split_ifs with hlow hhigh
  · omega
  · omega
  · rcases Nat.mod_two_eq_zero_or_one (n / d) with hbit | hbit <;> rw [hbit]
    · rw [Nat.add_zero]
      omega
    · omega

/-- The grain of a whole number of steps is at most `2⁻⁵²` of it. -/
theorem two_pow_grain_le {n : Nat} (h : 0 < grain (n * oneUnits)) :
    2 ^ 52 * 2 ^ grain (n * oneUnits) ≤ n := by
  rw [← Nat.pow_add]
  exact Nat.le_of_mul_le_mul_right (le_of_grain h) oneUnits_pos

theorem roundUnits_error (n : Nat) :
    2 ^ 53 * roundUnits (n * oneUnits) ≤ 2 ^ 53 * n + n ∧
      2 ^ 53 * n ≤ 2 ^ 53 * roundUnits (n * oneUnits) + n := by
  have hround : roundUnits (n * oneUnits)
      = divEven n (2 ^ grain (n * oneUnits)) * 2 ^ grain (n * oneUnits) := by
    unfold roundUnits
    rw [divEven_mul_right oneUnits_pos]
  have herror := divEven_error (Nat.two_pow_pos (grain (n * oneUnits))) n
  rw [hround]
  rcases Nat.eq_zero_or_pos (grain (n * oneUnits)) with hzero | hpos
  · rw [hzero] at herror ⊢
    omega
  · have hgrain := two_pow_grain_le hpos
    omega

/-- **Rounding changes a number** by at most `2⁻⁵³` of its size. -/
theorem roundSteps_error (p : Int) :
    2 ^ 53 * roundSteps (p * oneUnits) ≤ 2 ^ 53 * p + p.natAbs ∧
      2 ^ 53 * p ≤ 2 ^ 53 * roundSteps (p * oneUnits) + p.natAbs := by
  rcases Int.le_total 0 p with hp | hp
  · obtain ⟨n, rfl⟩ := Int.eq_ofNat_of_zero_le hp
    rw [← Int.natCast_mul, roundSteps_natCast, Int.natAbs_natCast]
    have herror := roundUnits_error n
    omega
  · obtain ⟨n, hn⟩ := Int.eq_ofNat_of_zero_le (Int.neg_nonneg_of_nonpos hp)
    obtain rfl : p = -(n : Int) := by omega
    rw [Int.neg_mul, roundSteps_neg, ← Int.natCast_mul, roundSteps_natCast, Int.natAbs_neg,
      Int.natAbs_natCast]
    have herror := roundUnits_error n
    omega

variable {x y : Float} {a b : Int}

/-- A finite number that is not above a result is not above the steps the result stands for. -/
theorem StandsFor.le_of_le (hy : StandsFor y b) (hx : steps x = some a) (h : x ≤ y) : a ≤ b := by
  rcases hy with hy | ⟨hmost, -⟩ | ⟨-, rfl⟩
  · exact (le_iff_steps hx hy).mp h
  · exact (steps_mem hx).2.trans hmost.le
  · exact absurd (neg_infinity_lt_of_steps hx) (not_lt_of_le h)

theorem StandsFor.eq_of_steps (hx : StandsFor x b) (h : steps x = some a) : a = b := by
  have hfinite (s : Sign) : x ≠ infinite s := by
    rintro rfl
    rw [steps, unpack_infinite] at h
    cases h
  rcases hx with hx | ⟨-, rfl⟩ | ⟨-, rfl⟩
  · exact Option.some.inj (h.symm.trans hx)
  · exact absurd rfl (hfinite .positive)
  · exact absurd rfl (hfinite .negative)

/-! ## Sizes and constants -/

theorem exists_natAbs_steps (h : steps x = some a) :
    ∃ c j, c < 2 ^ 53 ∧ a.natAbs = c * 2 ^ j := by
  obtain ⟨s, v, hu, rfl⟩ := exists_inUnits h
  have habs : (s.apply (v : Int)).natAbs = v := by cases s <;> simp [Sign.apply]
  rw [habs]
  rcases hx : x.toModel.unpack with _ | _ | s' | ⟨s', m, e, hm⟩ <;> rw [hx] at hu
  · exact hu.elim
  · exact hu.elim
  · exact ⟨0, 0, by decide, hu.2⟩
  · exact ⟨m, _, hu.2.1.lt, hu.2.2⟩

theorem hasUnits_two : HasUnits 2.0 (2 * oneUnits) := by
  have h := hasUnits_of_model (x := 2.0) (m := 2 ^ 52) (e := -51) (by decide)
    ⟨by decide, by decide, by decide, Or.inr (le_refl _)⟩ (by decide) rfl
  rwa [units_two_pow, show 52 + (-51 + 1074 : Int).toNat = 1 + 1074 by decide,
    ← two_pow_mul_oneUnits] at h

theorem hasUnits_eighth : HasUnits 0.125 (2 ^ 1071) := by
  have h := hasUnits_of_model (x := 0.125) (m := 2 ^ 52) (e := -55) (by decide)
    ⟨by decide, by decide, by decide, Or.inr (le_refl _)⟩ (by decide) rfl
  rwa [units_two_pow, show 52 + (-55 + 1074 : Int).toNat = 1071 by decide] at h

theorem eight_mul_eighth : 8 * 2 ^ 1071 = oneUnits := by
  rw [← two_pow_eq_oneUnits (k := 3 + 1071) rfl, Nat.pow_add]

/-- A finite number without the negative sign has units. -/
theorem exists_hasUnits_of_sign (hfinite : x.isFinite = true)
    (hsign : sign? x.toModel.unpack ≠ some .negative) : ∃ v, HasUnits x v := by
  obtain ⟨a, ha⟩ := isFinite_iff_steps.mp hfinite
  obtain ⟨s, v, hu, -⟩ := exists_inUnits ha
  have hs : sign? x.toModel.unpack = some s := by
    rcases hx : x.toModel.unpack with _ | _ | s' | ⟨s', m, e, hm⟩ <;> rw [hx] at hu
    · exact hu.elim
    · exact hu.elim
    · exact congrArg some hu.1
    · exact congrArg some hu.1
  cases s with
  | negative => exact absurd hs hsign
  | positive => exact ⟨v, hu⟩

/-! ## Absolute values -/

theorem unpacked_abs (u : UnpackedFloat) : u.abs = u ∨ u.abs = u.neg := by
  rcases u with (_ | _) | _ | (_ | _) | ⟨_ | _, m, e, hm⟩
  case infinity.negative => exact Or.inr rfl
  case zero.negative => exact Or.inr rfl
  case finite.negative => exact Or.inr rfl
  all_goals exact Or.inl rfl

theorem abs_eq_or_neg (x : Float) : x.abs = x ∨ x.abs = -x := by
  show Float.ofModel (Float.Model.pack x.toModel.unpack.abs) = x ∨
    Float.ofModel (Float.Model.pack x.toModel.unpack.abs)
      = Float.ofModel (Float.Model.pack x.toModel.unpack.neg)
  rcases unpacked_abs x.toModel.unpack with h | h <;> rw [h]
  · exact Or.inl (unpack_of_steps rfl)
  · exact Or.inr rfl

theorem steps_abs (h : steps x = some a) : steps x.abs = some (a.natAbs : Int) := by
  have habs : x.abs = Float.ofModel (Float.Model.pack x.toModel.unpack.abs) := rfl
  have hsteps := h
  unfold steps at h
  rcases hx : x.toModel.unpack with _ | _ | s | ⟨s, m, e, hm⟩ <;> rw [hx] at h habs <;> cases h
  · rcases abs_eq_or_neg x with heq | heq <;> rw [heq]
    · exact hsteps
    · exact steps_neg hsteps
  · cases s
    · have hneg : -x = Float.ofModel (Float.Model.pack x.toModel.unpack.neg) := rfl
      rw [hx] at hneg
      rw [habs.trans hneg.symm, steps_neg hsteps]
      simp [Sign.apply]
    · rw [habs.trans (unpack_of_steps hx), hsteps]
      simp [Sign.apply]

theorem le_abs (h : 0.0 ≤ x) : x ≤ x.abs := by
  rcases eq_infinity_or_steps (neg_infinity_lt_of_nonneg h) with rfl | ⟨a, ha⟩
  · decide +kernel
  · exact (le_iff_steps ha (steps_abs ha)).mpr Int.le_natAbs

theorem isNaN_abs (x : Float) : x.abs.isNaN = x.isNaN := by
  rcases abs_eq_or_neg x with h | h <;> rw [h]
  exact isNaN_neg x

/-! ## Quotients -/

theorem unpack_of_pos (h : 0.0 < x) : x.toModel.unpack = .infinity .positive ∨
    ∃ m e hm, x.toModel.unpack = .finite .positive m e hm := by
  have hcompare : (0.0 : Float).toModel.unpack.compare x.toModel.unpack = some .lt :=
    beq_iff_eq.mp (of_decide_eq_true h)
  rw [unpack_zero] at hcompare
  rcases hx : x.toModel.unpack with (_ | _) | _ | _ | ⟨_ | _, m, e, hm⟩ <;> rw [hx] at hcompare
  case infinity.positive => exact Or.inl rfl
  case finite.positive => exact Or.inr ⟨m, e, hm, rfl⟩
  all_goals cases hcompare

/-- **A positive number divided by a finite one with the negative sign** is not above zero. -/
theorem div_nonpos_of_sign (hx : 0.0 < x) (hfinite : y.isFinite = true)
    (hy : sign? y.toModel.unpack = some .negative) : x / y ≤ 0.0 := by
  have hfinite : y.toModel.unpack.isFinite = true := hfinite
  have hsign : sign? (UnpackedFloat.div Format.binary64 x.toModel.unpack y.toModel.unpack)
      = some .negative := by
    rcases hu : y.toModel.unpack with s | _ | s | ⟨s, m', e', hm'⟩ <;> rw [hu] at hy hfinite
    case infinity => cases hfinite
    case notANumber => cases hy
    all_goals
      obtain rfl := Option.some.inj hy
      rcases unpack_of_pos hx with hx | ⟨m, e, hm, hx⟩ <;> rw [hx]
    case finite.inr => exact sign?_roundWithAccuracy _ _ _ _ _
    all_goals rfl
  rcases sign?_eq_negative_iff.mp ((sign?_model _).trans hsign) with hlt | heq
  · exact le_of_lt hlt
  · have hzero : x / y = -0.0 := heq
    rw [hzero]
    decide +kernel

theorem div_zero_of_pos (hx : 0.0 < x) : x / 0.0 = infinity := by
  show Float.ofModel (Float.Model.pack (UnpackedFloat.div Format.binary64 x.toModel.unpack
    (0.0 : Float).toModel.unpack)) = infinite .positive
  rw [unpack_zero]
  rcases unpack_of_pos hx with hx | ⟨m, e, hm, hx⟩ <;> rw [hx] <;> rfl

theorem infinity_div (hy : 0.0 < y) (hfinite : y.isFinite = true) : infinity / y = infinity := by
  have hfinite : y.toModel.unpack.isFinite = true := hfinite
  show Float.ofModel (Float.Model.pack (UnpackedFloat.div Format.binary64
    (infinite .positive).toModel.unpack y.toModel.unpack)) = infinite .positive
  rw [unpack_infinite]
  rcases unpack_of_pos hy with hy | ⟨m, e, hm, hy⟩ <;> rw [hy] at hfinite ⊢
  · cases hfinite
  · rfl

/-- **A quotient by a number that is at most eight times the numerator** is at least one eighth. -/
theorem eighth_le_div {v w : Nat} (hx : steps x = some (v : Int)) (hy : steps y = some (w : Int))
    (hw : 0 < w) (h : w ≤ 8 * v) : 0.125 ≤ x / y := by
  refine StandsFor.le (Or.inl hasUnits_eighth.steps) (standsFor_div hx hy hw) (Int.ofNat_le.mpr ?_)
  have hexact := roundRatio_exact (c := 1) (j := 1071) Nat.one_pos (by decide)
  rw [Nat.mul_one, Nat.one_mul] at hexact
  have hratio : 2 ^ 1071 * w ≤ v * oneUnits * 1 :=
    calc 2 ^ 1071 * w ≤ 2 ^ 1071 * (8 * v) := Nat.mul_le_mul_left _ h
      _ = v * (8 * 2 ^ 1071) := by rw [← Nat.mul_assoc, Nat.mul_comm, Nat.mul_comm (2 ^ 1071)]
      _ = v * oneUnits * 1 := by rw [eight_mul_eighth, Nat.mul_one]
  exact hexact.ge.trans (roundRatio_mono Nat.one_pos hw hratio)

end Metaheuristics.Arithmetic
