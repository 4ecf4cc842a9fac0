import Metaheuristics.Proofs.Arithmetic.Canonical

/-!
# Signs of results

Rounding and packing keep the sign, and a number below zero has the negative one.  So a root is
never below zero (`not_sqrt_lt_zero`), nor is the difference of two numbers in order
(`not_sub_lt_zero`), nor the quotient of a number that is not below zero by one with a positive sign
(`not_div_lt_zero`).  In each case the result can still fail to be a number.
-/

namespace Metaheuristics.Arithmetic

open Float.Model Float.Model.UnpackedFloat

/-! ## Signs of unpacked numbers -/

/-- **The sign of an unpacked number.** -/
def sign? : UnpackedFloat → Option Sign
  | .notANumber => none
  | .infinity s => some s
  | .zero s => some s
  | .finite s _ _ _ => some s

theorem sign?_packComponents {s : Sign} {e : BitVec 11} {m : BitVec 52}
    (h : e ≠ -1#11 ∨ m = 0#52) :
    sign? (UnpackedFloat.unpack Format.binary64 (packComponents Format.binary64 s e m))
      = some s := by
  unfold UnpackedFloat.unpack
  simp only [unpackSign_packComponents, Sign.ofBitVec_toBitVec, unpackExponent_packComponents,
    unpackMantissa_packComponents]
  split_ifs with hmax hzero
  · rfl
  · exact absurd h (by simp [hmax, hzero])
  · rfl
  · rfl
  · rfl

/-- **Packing keeps the sign.** -/
theorem sign?_unpack_pack (u : UnpackedFloat) :
    sign? (UnpackedFloat.unpack Format.binary64 (UnpackedFloat.pack Format.binary64 u))
      = sign? u := by
  rcases u with s | _ | s | ⟨s, m, e, h⟩
  · exact sign?_packComponents (Or.inr rfl)
  · rfl
  · exact sign?_packComponents (Or.inr rfl)
  · simp only [UnpackedFloat.pack]
    split_ifs with hlarge
    · exact sign?_packComponents (Or.inr rfl)
    · refine sign?_packComponents (Or.inl (bitVec_ne ?_))
      rw [BitVec.toNat_ofNat]
      show _ % 2 ^ 11 ≠ 2047
      have : ¬ 2 ^ 11 ≤ (e + (Format.binary64.exponentBias : Int)
        + (Format.binary64.mantissaBitsWithoutImplicit : Int)).toNat + 1 := hlarge
      omega
    · exact sign?_packComponents (Or.inl (by decide))

theorem sign?_model (u : UnpackedFloat) : sign? (Float.Model.pack u).unpack = sign? u :=
  sign?_unpack_pack u

theorem sign?_roundWithAccuracy (spec : Format) (s : Sign) (m : Nat) (e : Int)
    (accuracy : Accuracy) : sign? (roundWithAccuracy spec s m e accuracy) = some s := by
  unfold roundWithAccuracy
  dsimp only
  split_ifs <;> rfl

variable {x y : Float}

theorem unpack_zero : (0.0 : Float).toModel.unpack = .zero .positive := by
  have h : (0.0 : Float) = Float.ofModel (Float.Model.pack (.zero .positive)) := rfl
  rw [h]
  exact unpack_packedZero

theorem lt_zero_iff : x < 0.0 ↔
    sign? x.toModel.unpack = some .negative ∧ ∀ s, x.toModel.unpack ≠ .zero s := by
  show decide (((x.toModel.unpack.compare (0.0 : Float).toModel.unpack) == some .lt) = true) = true
    ↔ _
  rw [decide_eq_true_eq, beq_iff_eq, unpack_zero]
  rcases x.toModel.unpack with (_ | _) | _ | _ | ⟨_ | _, m, e, h⟩ <;>
    simp [sign?, UnpackedFloat.compare]

/-- The negative sign is that of numbers below zero and of negative zero. -/
theorem sign?_eq_negative_iff :
    sign? x.toModel.unpack = some .negative ↔ x < 0.0 ∨ x = -0.0 := by
  rw [lt_zero_iff]
  constructor
  · intro h
    by_cases hzero : ∃ s, x.toModel.unpack = .zero s
    · obtain ⟨s, hs⟩ := hzero
      obtain rfl : s = .negative := Option.some.inj ((congrArg sign? hs).symm.trans h)
      have hx : x = Float.ofModel (Float.Model.pack (.zero .negative)) := by
        rw [← hs, pack_unpack_model]
      exact Or.inr (hx.trans rfl)
    · exact Or.inl ⟨h, not_exists.mp hzero⟩
  · rintro (h | rfl)
    · exact h.1
    · rw [unpack_neg, unpack_zero]; rfl

/-! ## Roots -/

theorem not_sqrt_lt_zero (x : Float) : ¬ x.sqrt < 0.0 := by
  intro h
  obtain ⟨hsign, hzero⟩ := lt_zero_iff.mp h
  have hroot : sign? (UnpackedFloat.sqrt Format.binary64 x.toModel.unpack) = some .negative :=
    (sign?_model _).symm.trans hsign
  rcases hu : x.toModel.unpack with (_ | _) | _ | s | ⟨_ | _, m, e, hm⟩ <;> rw [hu] at hroot
  case zero =>
    refine hzero s ?_
    show (Float.Model.pack (UnpackedFloat.sqrt Format.binary64 x.toModel.unpack)).unpack = _
    rw [hu]
    exact unpack_packedZero
  case finite.positive =>
    have hpos : sign? (UnpackedFloat.sqrt Format.binary64 (.finite .positive m e hm))
        = some .positive := sign?_roundWithAccuracy _ _ _ _ _
    cases hpos.symm.trans hroot
  all_goals cases hroot

/-! ## Differences -/

/-- Aligning the exponents of two numbers keeps their size. -/
theorem decreaseExponent_units {m : Nat} {e k : Int} (hk : -1074 ≤ k) (he : k ≤ e) :
    units (decreaseExponent m e k).1 k = units m e := by
  have hsum : (e - k).toNat + (k + 1074).toNat = (e + 1074).toNat := by omega
  show m <<< (e - k).toNat * 2 ^ (k + 1074).toNat = m * 2 ^ (e + 1074).toNat
  rw [Nat.shiftLeft_eq, Nat.mul_assoc, ← Nat.pow_add, hsum]

theorem apply_mul (s : Sign) (a b : Int) : s.apply (a * b) = s.apply a * b := by
  cases s
  · exact (Int.neg_mul a b).symm
  · rfl

theorem aligned_le {s s' : Sign} {m m' : Nat} {e e' : Int} (he : -1074 ≤ e) (he' : -1074 ≤ e')
    (h : s'.apply (units m' e') ≤ s.apply (units m e)) :
    0 ≤ s.apply (decreaseExponent m e (min e e')).1
      - s'.apply (decreaseExponent m' e' (min e e')).1 := by
  have hmin : -1074 ≤ min e e' := le_min he he'
  have hscale : (0 : Int) < (2 ^ (min e e' + 1074).toNat : Nat) := by
    exact_mod_cast Nat.two_pow_pos _
  rw [← decreaseExponent_units hmin (min_le_left e e'),
    ← decreaseExponent_units (m := m') hmin (min_le_right e e')] at h
  simp only [units, Nat.cast_mul, apply_mul] at h
  have := Int.le_of_mul_le_mul_right h hscale
  omega

theorem sign?_normalize {m e : Int} (h : 0 ≤ m) :
    sign? (UnpackedFloat.normalize Format.binary64 m e .positive) = some .positive := by
  unfold UnpackedFloat.normalize
  rcases Int.lt_trichotomy m 0 with hm | rfl | hm
  · omega
  · rfl
  · rw [Int.compare_eq_gt.mpr hm]
    exact sign?_roundWithAccuracy _ _ _ _ _

/-- **A difference of numbers in order is not below zero.** -/
theorem not_sub_lt_zero (h : ¬ x < y) : ¬ x - y < 0.0 := by
  have hge : x.toModel.unpack.compare y.toModel.unpack ≠ some .lt :=
    fun hlt => h (decide_eq_true (beq_iff_eq.mpr hlt))
  intro hlt
  obtain ⟨hsign, hzero⟩ := lt_zero_iff.mp hlt
  have hsub : sign? (UnpackedFloat.sub Format.binary64 x.toModel.unpack y.toModel.unpack)
      = some .negative := (sign?_model _).symm.trans hsign
  rcases hu : x.toModel.unpack with (_ | _) | _ | s | ⟨s, m, e, hm⟩ <;>
    rcases hv : y.toModel.unpack with (_ | _) | _ | s' | ⟨s', m', e', hm'⟩ <;>
    rw [hu, hv] at hsub hge
  case finite.finite =>
    have hx : steps x = some (s.apply (units m e)) := by unfold steps; rw [hu]; rfl
    have hy : steps y = some (s'.apply (units m' e')) := by unfold steps; rw [hv]; rfl
    have hgap := aligned_le (canonical_of_model hu).1.least (canonical_of_model hv).1.least
      (Int.not_lt.mp (mt (lt_iff_steps hx hy).mpr h))
    have hpos : sign? (UnpackedFloat.sub Format.binary64 (.finite s m e hm) (.finite s' m' e' hm'))
        = some .positive := sign?_normalize hgap
    cases hpos.symm.trans hsub
  case zero.zero =>
    have hdiff : ∃ s'', UnpackedFloat.sub Format.binary64 (.zero s) (.zero s') = .zero s'' := by
      cases s <;> cases s' <;> exact ⟨_, rfl⟩
    obtain ⟨s'', hdiff⟩ := hdiff
    refine hzero s'' ?_
    show (Float.Model.pack (UnpackedFloat.sub Format.binary64 x.toModel.unpack
      y.toModel.unpack)).unpack = _
    rw [hu, hv, hdiff]
    exact unpack_packedZero
  case zero.finite => cases s' <;> first | exact absurd rfl hge | nomatch hsub
  case finite.zero => cases s <;> first | exact absurd rfl hge | nomatch hsub
  all_goals first | exact absurd rfl hge | nomatch hsub

/-! ## Quotients -/

/-- **A quotient is not below zero** when the numerator is not and the sign of the denominator is
not negative. -/
theorem not_div_lt_zero (hx : ¬ x < 0.0) (hy : sign? y.toModel.unpack ≠ some .negative) :
    ¬ x / y < 0.0 := by
  intro h
  obtain ⟨hsign, hzero⟩ := lt_zero_iff.mp h
  have hdiv : sign? (UnpackedFloat.div Format.binary64 x.toModel.unpack y.toModel.unpack)
      = some .negative := (sign?_model _).symm.trans hsign
  have hquotient : ∀ s, UnpackedFloat.div Format.binary64 x.toModel.unpack y.toModel.unpack
      ≠ .zero s := by
    intro s heq
    refine hzero s ?_
    show (Float.Model.pack (UnpackedFloat.div Format.binary64 x.toModel.unpack
      y.toModel.unpack)).unpack = _
    rw [heq]
    exact unpack_packedZero
  rw [lt_zero_iff] at hx
  rcases hu : x.toModel.unpack with (_ | _) | _ | s | ⟨_ | _, m, e, hm⟩ <;>
    rcases hv : y.toModel.unpack with (_ | _) | _ | (_ | _) | ⟨_ | _, m', e', hm'⟩ <;>
    rw [hu, hv] at hdiv hquotient <;> rw [hu] at hx <;> rw [hv] at hy
  case finite.positive.finite.positive =>
    have hpos : sign? (UnpackedFloat.div Format.binary64 (.finite .positive m e hm)
        (.finite .positive m' e' hm')) = some .positive := sign?_roundWithAccuracy _ _ _ _ _
    cases hpos.symm.trans hdiv
  all_goals first
    | exact absurd rfl hy
    | (cases hdiv; done)
    | exact hquotient _ rfl
    | exact hx ⟨rfl, fun s heq => nomatch heq⟩

end Metaheuristics.Arithmetic
