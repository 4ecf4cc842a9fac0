import Metaheuristics.Proofs.Arithmetic.Sums

/-!
# Products, quotients and whole numbers

A product of finite numbers stands for the product of their steps, rounded (`standsFor_mul`), and a
quotient for the ratio of the steps, rounded (`standsFor_div`), where the numerator is not negative
and the denominator is positive.  So both keep the order: a factor between zero and one does not
lead above (`mul_le_self`), quotients by a common number are in the order of the numerators
(`div_le_div_right`), and a quotient by a number that is not below the numerator is at most one
(`div_le_one`).  A whole number that is not zero is at least one, also where it is too large for a
finite number (`one_le_ofNat`).
-/

namespace Metaheuristics.Arithmetic

open Float.Model Float.Model.UnpackedFloat

variable {x y z : Float} {a b : Int}

/-! ## Products -/

theorem exists_inUnits (h : steps x = some a) :
    ∃ (s : Sign) (v : Nat), InUnits s v x.toModel.unpack ∧ a = s.apply v := by
  unfold steps at h
  rcases hx : x.toModel.unpack with _ | _ | s | ⟨s, m, e, hm⟩ <;> rw [hx] at h <;> cases h
  · exact ⟨s, 0, ⟨rfl, rfl⟩, by cases s <;> rfl⟩
  · exact ⟨s, units m e, ⟨rfl, (canonical_of_model hx).1, rfl⟩, rfl⟩

theorem apply_mul_apply (s s' : Sign) (v w : Int) :
    (s * s').apply (v * w) = s.apply v * s'.apply w := by
  cases s <;> cases s'
  · exact (Int.neg_mul_neg v w).symm
  · exact (Int.neg_mul v w).symm
  · exact (Int.mul_neg v w).symm
  · rfl

/-- **A product stands for the product of the steps**, rounded. -/
theorem standsFor_mul (hx : steps x = some a) (hy : steps y = some b) :
    StandsFor (x * y) (roundSteps (a * b)) := by
  obtain ⟨s, v, hu, rfl⟩ := exists_inUnits hx
  obtain ⟨s', w, hv, rfl⟩ := exists_inUnits hy
  have hmul := (inUnits_mul hu hv).standsFor
  rwa [← roundSteps_apply, Int.natCast_mul, apply_mul_apply] at hmul

theorem mul_nonneg (hx : steps x = some a) (hy : steps y = some b) (h : 0 ≤ a * b) :
    0.0 ≤ x * y :=
  (standsFor_mul hx hy).nonneg (roundSteps_nonneg h)

theorem mul_nonpos (hx : steps x = some a) (hy : steps y = some b) (h : a * b ≤ 0) :
    x * y ≤ 0.0 :=
  (standsFor_mul hx hy).nonpos (roundSteps_nonpos h)

theorem steps_one : steps 1.0 = some (oneUnits : Int) := hasUnits_one.steps

/-- A factor between zero and one does not lead above. -/
theorem mul_le_self (hx : steps x = some a) (hpos : 0 ≤ a) (hy : steps y = some b)
    (hle : y ≤ 1.0) : x * y ≤ x := by
  have hb := (le_iff_steps hy steps_one).mp hle
  refine (standsFor_mul hx hy).le (Or.inl hx) ?_
  conv_rhs => rw [← roundSteps_exact hx]
  exact roundSteps_mono (Int.mul_le_mul_of_nonneg_left hb hpos)

theorem isFinite_mul_of_mem (hx : 0.0 ≤ x) (hfinite : x.isFinite = true) (hy : 0.0 ≤ y)
    (hle : y ≤ 1.0) : 0.0 ≤ x * y ∧ (x * y).isFinite = true := by
  obtain ⟨v, hv⟩ := exists_steps_of_nonneg hx hfinite
  obtain ⟨w, hw⟩ := exists_steps_of_nonneg hy (isFinite_of_mem rfl rfl hy hle)
  have hnonneg := mul_nonneg hv hw (Int.natCast_nonneg (v * w))
  have hself := mul_le_self hv (Int.natCast_nonneg v) hw hle
  exact ⟨hnonneg, isFinite_of_mem rfl hfinite hnonneg hself⟩

theorem steps_of_beq_zero (h : (x == 0.0) = true) : steps x = some 0 := by
  have hcompare : (x.toModel.unpack.compare (0.0 : Float).toModel.unpack == some .eq) = true := h
  rw [unpack_zero, beq_iff_eq] at hcompare
  unfold steps
  rcases hx : x.toModel.unpack with (_ | _) | _ | s | ⟨_ | _, m, e, hm⟩ <;> rw [hx] at hcompare
  case zero => rfl
  all_goals cases hcompare

theorem isNaN_or_steps_zero_mul (hx : steps x = some 0) (y : Float) :
    (x * y).isNaN = true ∨ steps (x * y) = some 0 := by
  by_cases hy : y.isNaN = true
  · exact Or.inl (isNaN_mul_right hy)
  have hzero : 0.0 ≤ x := (le_iff_steps hasUnits_zero.steps hx).mpr (le_refl _)
  have hpos : ¬ 0.0 < x := fun h => lt_irrefl _ ((lt_iff_steps hasUnits_zero.steps hx).mp h)
  rcases eq_infinite_or_steps (Bool.eq_false_of_not_eq_true hy) with rfl | rfl | ⟨b, hb⟩
  · exact Or.inl (isNaN_mul_infinite hzero hpos .positive)
  · exact Or.inl (isNaN_mul_infinite hzero hpos .negative)
  · have hmul := standsFor_mul hx hb
    rw [Int.zero_mul, roundSteps_zero] at hmul
    exact Or.inr (hmul.steps_of_steps hasUnits_zero.steps)

/-! ## Quotients -/

theorem targetExponent_binary64 (e : Int) :
    Format.binary64.targetExponent e = max (e - 53) (-1074) := rfl

/-- The mantissa that is divided is shifted so far that the quotient has 53 bits, unless its exponent
is the least one already. -/
theorem le_target_of_shift {m m' k : Nat} {e : Int} (hm : 0 < m) (hm' : 0 < m')
    (hk : e - k ≤ max ((m.log2 : Int) - m'.log2 + e - 53) (-1074)) :
    e - k ≤ target (m * 2 ^ k / m') (e - k) := by
  rcases le_max_iff.mp hk with hshift | hleast
  · have hquotient : 2 ^ 52 ≤ m * 2 ^ k / m' := by
      rw [Nat.le_div_iff_mul_le hm']
      calc 2 ^ 52 * m' ≤ 2 ^ 52 * 2 ^ (m'.log2 + 1) := Nat.mul_le_mul_left _ Nat.lt_log2_self.le
        _ = 2 ^ (52 + (m'.log2 + 1)) := (Nat.pow_add 2 52 _).symm
        _ ≤ 2 ^ (m.log2 + k) := Nat.pow_le_pow_right (by decide) (by omega)
        _ = 2 ^ m.log2 * 2 ^ k := Nat.pow_add 2 _ k
        _ ≤ m * 2 ^ k := Nat.mul_le_mul_right _ (Nat.log2_self_le (Nat.ne_of_gt hm))
    have hlog : 52 ≤ (m * 2 ^ k / m').log2 := (Nat.le_log2 (by omega)).mpr hquotient
    unfold target
    omega
  · exact hleast.trans (le_max_right _ _)

/-- The ratio of the units of two mantissas is that of the mantissas at the exponents in between. -/
theorem units_ratio {m m' k : Nat} {e e' : Int} (he : -1074 ≤ e) (he' : -1074 ≤ e') :
    m * 2 ^ k * 2 ^ (e - e' - k + 1074).toNat * units m' e'
      = units m e * oneUnits * (m' * 2 ^ (-(e - e' - k + 1074)).toNat) := by
  have hsum : k + (e - e' - k + 1074).toNat + (e' + 1074).toNat
      = (e + 1074).toNat + 1074 + (-(e - e' - k + 1074)).toNat := by omega
  unfold units
  generalize (e - e' - k + 1074).toNat = p at hsum ⊢
  generalize (-(e - e' - k + 1074)).toNat = q at hsum ⊢
  generalize (e + 1074).toNat = a at hsum ⊢
  generalize (e' + 1074).toNat = b at hsum ⊢
  calc m * 2 ^ k * 2 ^ p * (m' * 2 ^ b) = m * m' * 2 ^ (k + p + b) := by
        rw [Nat.mul_assoc m, ← Nat.pow_add, Nat.mul_mul_mul_comm, ← Nat.pow_add]
    _ = m * m' * 2 ^ (a + 1074 + q) := by rw [hsum]
    _ = m * 2 ^ a * oneUnits * (m' * 2 ^ q) := by
        rw [Nat.mul_assoc m (2 ^ a), two_pow_mul_oneUnits, Nat.mul_mul_mul_comm, ← Nat.pow_add]

theorem roundRatio_zero {d : Nat} (hd : 0 < d) : roundRatio 0 d = 0 := by
  have hzero := roundRatio_le (n := 0) (c := 0) (j := 0) hd (by decide) (Nat.zero_le _)
  rw [Nat.zero_mul] at hzero
  exact Nat.le_zero.mp hzero

theorem inUnits_div {s s' : Sign} {u u' : UnpackedFloat} {v w : Nat} (hu : InUnits s v u)
    (hu' : InUnits s' w u') (hw : 0 < w) :
    InUnits (s / s') (roundRatio (v * oneUnits) w) (UnpackedFloat.div Format.binary64 u u') := by
  rcases u' with _ | _ | s' | ⟨s', m', e', hm'⟩
  · exact hu'.elim
  · exact hu'.elim
  · obtain ⟨-, rfl⟩ := hu'
    exact absurd hw (Nat.lt_irrefl 0)
  obtain ⟨rfl, hc', rfl⟩ := hu'
  rcases u with _ | _ | s | ⟨s, m, e, hm⟩
  · exact hu.elim
  · exact hu.elim
  · obtain ⟨rfl, rfl⟩ := hu
    rw [Nat.zero_mul]
    exact ⟨rfl, roundRatio_zero hw⟩
  · obtain ⟨rfl, hc, rfl⟩ := hu
    have hshift : ∃ k : Nat, e - e' - k ≤ max ((m.log2 : Int) - m'.log2 + (e - e') - 53) (-1074) ∧
        divCore Format.binary64 m e m' e'
          = (m * 2 ^ k / m', e - e' - k, accuracyOfFraction (m * 2 ^ k % m') m') := by
      unfold divCore totalExponent
      simp only [targetExponent_binary64, Nat.shiftLeft_eq, Prod.mk.injEq]
      refine ⟨_, ?_, rfl, ?_, rfl⟩ <;> omega
    obtain ⟨k, hk, hcore⟩ := hshift
    simp only [UnpackedFloat.div, hcore]
    rw [← roundRatio_congr (Nat.mul_pos hm' (Nat.two_pow_pos _)) hw
      (units_ratio hc.least hc'.least)]
    exact inUnits_roundFraction hm' (le_target_of_shift hm hm' hk)

/-- **A quotient stands for the ratio of the steps**, rounded. -/
theorem standsFor_div {v w : Nat} (hx : steps x = some (v : Int)) (hy : steps y = some (w : Int))
    (hw : 0 < w) : StandsFor (x / y) (roundRatio (v * oneUnits) w : Nat) := by
  obtain ⟨s, v', hu, hv⟩ := exists_inUnits hx
  obtain ⟨s', w', hu', hw'⟩ := exists_inUnits hy
  have hpos : 0 < w' := by cases s' <;> simp only [Sign.apply] at hw' <;> omega
  have hdiv := (inUnits_div hu hu' hpos).standsFor
  cases s' with
  | negative =>
    simp only [Sign.apply] at hw'
    omega
  | positive =>
    obtain rfl : w = w' := Int.ofNat_inj.mp hw'
    cases s with
    | positive =>
      obtain rfl : v = v' := Int.ofNat_inj.mp hv
      exact hdiv
    | negative =>
      -- only negative zero is not below zero here
      simp only [Sign.apply] at hv
      obtain rfl : v = 0 := by omega
      obtain rfl : v' = 0 := by omega
      rw [Nat.zero_mul, roundRatio_zero hpos] at hdiv ⊢
      exact hdiv

/-- **Quotients by a common number** are in the order of the numerators. -/
theorem div_le_div_right {v v' w : Nat} (hx : steps x = some (v : Int))
    (hy : steps y = some (v' : Int)) (hz : steps z = some (w : Int)) (hw : 0 < w) (h : x ≤ y) :
    x / z ≤ y / z := by
  have hle : v ≤ v' := Int.ofNat_le.mp ((le_iff_steps hx hy).mp h)
  refine (standsFor_div hx hz hw).le (standsFor_div hy hz hw) (Int.ofNat_le.mpr ?_)
  exact roundRatio_mono hw hw (Nat.mul_le_mul_right w (Nat.mul_le_mul_right oneUnits hle))

theorem div_nonneg {v w : Nat} (hx : steps x = some (v : Int)) (hy : steps y = some (w : Int))
    (hw : 0 < w) : 0.0 ≤ x / y :=
  (standsFor_div hx hy hw).nonneg (Int.natCast_nonneg _)

theorem oneUnits_eq : oneUnits = 1 * 2 ^ (52 + 1022) := by
  unfold oneUnits
  rw [Nat.one_mul]

theorem div_le_one {v w : Nat} (hx : steps x = some (v : Int)) (hy : steps y = some (w : Int))
    (hw : 0 < w) (h : x ≤ y) : x / y ≤ 1.0 := by
  have hle : v ≤ w := Int.ofNat_le.mp ((le_iff_steps hx hy).mp h)
  refine (standsFor_div hx hy hw).le (Or.inl steps_one) (Int.ofNat_le.mpr ?_)
  have hround : roundRatio (v * oneUnits) w ≤ 1 * 2 ^ (52 + 1022) := by
    refine roundRatio_le hw (by decide) ?_
    rw [← oneUnits_eq, Nat.mul_comm]
    exact Nat.mul_le_mul_left _ hle
  rwa [← oneUnits_eq] at hround

theorem one_div_mem (h : 1.0 ≤ x) : 0.0 ≤ 1.0 / x ∧ 1.0 / x ≤ 1.0 := by
  rcases eq_infinity_or_steps (lt_of_lt_of_le (neg_infinity_lt_of_steps steps_one) h)
    with rfl | ⟨a, ha⟩
  · exact ⟨by decide +kernel, by decide +kernel⟩
  · have hle := (le_iff_steps steps_one ha).mp h
    obtain ⟨w, rfl⟩ := Int.eq_ofNat_of_zero_le ((Int.natCast_nonneg _).trans hle)
    have hpos : 0 < w := oneUnits_pos.trans_le (Int.ofNat_le.mp hle)
    exact ⟨div_nonneg steps_one ha hpos, div_le_one steps_one ha hpos h⟩

/-! ## Whole numbers -/

theorem mul_oneUnits_oneUnits (n : Nat) :
    n * oneUnits * oneUnits = n * 2 ^ (52 + 1022 + 1074) := by
  rw [Nat.mul_assoc, ← two_pow_mul_oneUnits, two_pow_eq_oneUnits (k := 52 + 1022) rfl]

theorem roundUnits_whole {n : Nat} (h : n < 2 ^ 53) :
    roundUnits (n * oneUnits * oneUnits) = n * oneUnits := by
  have hexact := roundUnits_exact (j := 52 + 1022) h
  rwa [two_pow_eq_oneUnits (k := 52 + 1022) rfl] at hexact

theorem steps_toFloat {word : UInt64} (h : word.toNat < 2 ^ 53) :
    steps word.toFloat = some (word.toNat * oneUnits : Nat) := by
  have hword : StandsFor word.toFloat _ :=
    standsFor_normalize (m := word.toNat) (e := 0) (by decide)
  have hscale : (0 + 2148 : Int).toNat = 52 + 1022 + 1074 := by decide
  rw [hscale, ← Int.natCast_mul, ← mul_oneUnits_oneUnits, roundSteps_natCast, roundUnits_whole h]
    at hword
  have hmost : word.toNat * oneUnits ≤ mostUnits := by
    unfold mostUnits units
    exact Nat.mul_le_mul (Nat.le_sub_one_of_lt h) (oneUnits_le_two_pow (by decide))
  exact hword.steps_eq (by omega) (Int.ofNat_le.mpr hmost)

theorem ofScientific_whole {n : Nat} (h : 0 < n) :
    UnpackedFloat.ofScientific Format.binary64 n 0
      = roundWithAccuracy Format.binary64 .positive (n * 2 ^ 53) (-53) .exact := by
  have hsmall : ¬ (0 : Int) > 2 ^ Format.binary64.exponentBits := by decide
  have hlarge : ¬ (0 : Int) < -(2 ^ Format.binary64.exponentBits + (n.log2 : Int)) := by
    have hpow : (2 : Int) ^ Format.binary64.exponentBits = 2048 := rfl
    omega
  have hfactor : n <<< Format.binary64.mantissaBits * 10 ^ (0 : Int).toNat = n * 2 ^ 53 := by
    rw [Nat.shiftLeft_eq, Int.toNat_zero, Nat.pow_zero, Nat.mul_one]
    rfl
  unfold UnpackedFloat.ofScientific
  rw [dif_neg (Nat.ne_of_gt h), if_neg hsmall, if_neg hlarge, if_pos (Int.le_refl 0)]
  simp only [UnpackedFloat.mul, hfactor]
  rfl

/-- A whole number stands for itself, rounded, in units of one. -/
theorem standsFor_ofNat {n : Nat} (h : 0 < n) :
    StandsFor (Float.ofNat n) (roundUnits (n * oneUnits * oneUnits) : Nat) := by
  by_cases hsmall : n < 2 ^ 53
  · have hword : n.toUInt64.toNat = n := by
      rw [UInt64.toNat_ofNat']
      exact Nat.mod_eq_of_lt (by omega)
    have hvalue := steps_toFloat (by omega : n.toUInt64.toNat < 2 ^ 53)
    have hofNat : Float.ofNat n = n.toUInt64.toFloat * 1.0 := by
      show Float.ofScientific n false 0 = _
      unfold Float.ofScientific
      rw [dif_pos ⟨hsmall, by decide⟩]
      rfl
    have hproduct := standsFor_mul hvalue steps_one
    rw [roundSteps_exact hvalue, hword] at hproduct
    rwa [hofNat, roundUnits_whole hsmall]
  · have hofNat : Float.ofNat n
        = Float.ofModel (Float.Model.pack (UnpackedFloat.ofScientific Format.binary64 n 0)) := by
      show Float.ofScientific n false 0 = _
      unfold Float.ofScientific
      rw [dif_neg fun hboth => hsmall hboth.1]
      rfl
    have htarget : -53 ≤ target (n * 2 ^ 53) (-53) := by
      have hlog : 53 ≤ (n * 2 ^ 53).log2 :=
        (Nat.le_log2 (by omega)).mpr (Nat.le_mul_of_pos_left _ h)
      unfold target
      omega
    have hround := inUnits_roundWithAccuracy (s := .positive) (by decide) htarget
    have hscale (k : Nat) (hk : 53 + k = 52 + 1022 + 1074) :
        n * 2 ^ 53 * 2 ^ k = n * oneUnits * oneUnits := by
      rw [mul_oneUnits_oneUnits, ← hk, Nat.pow_add, Nat.mul_assoc]
    rw [hscale _ (by decide), ← ofScientific_whole h] at hround
    rw [hofNat]
    exact hround.standsFor

theorem one_le_ofNat {n : Nat} (h : 0 < n) : 1.0 ≤ Float.ofNat n := by
  have hone : oneUnits = roundUnits (1 * oneUnits * oneUnits) := by
    rw [roundUnits_whole (by decide), Nat.one_mul]
  refine StandsFor.le (Or.inl steps_one) (standsFor_ofNat h) (Int.ofNat_le.mpr (hone.le.trans ?_))
  exact roundUnits_mono (Nat.mul_le_mul_right _ (Nat.mul_le_mul_right _ h))

end Metaheuristics.Arithmetic
