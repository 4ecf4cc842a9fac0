import Metaheuristics.Proofs.Arithmetic.Order

/-!
# Finite numbers as whole numbers of steps

A finite number that is not zero is a mantissa times a power of two in canonical form: 53 bits, of
which the first is set unless the exponent is the least one (`canonical_of_unpack`).  Packing keeps
a canonical number whose exponent fits (`Canonical.unpack_pack`).

All finite numbers are therefore multiples of the least positive one, `2⁻¹⁰⁷⁴`.  `steps` is the
whole number of such steps from zero, and the order of finite numbers is the order of their steps
(`lt_iff_steps`).
-/

namespace Metaheuristics.Arithmetic

open Float.Model Float.Model.UnpackedFloat

/-! ## Canonical form -/

/-- **A mantissa and an exponent in canonical form.** -/
structure Canonical (m : Nat) (e : Int) : Prop where
  pos : 0 < m
  lt : m < 2 ^ 53
  least : -1074 ≤ e
  normal : e = -1074 ∨ 2 ^ 52 ≤ m

variable {m m' : Nat} {e e' : Int} {s : Sign}

theorem toNat_implicit (v : BitVec 52) : (1#1 ++ v).toNat = 2 ^ 52 + v.toNat := by
  rw [BitVec.toNat_append, ← Nat.shiftLeft_add_eq_or_of_lt v.isLt]
  rfl

theorem bitVec_ne {n : Nat} {v w : BitVec n} (h : v.toNat ≠ w.toNat) : v ≠ w :=
  fun heq => h (congrArg BitVec.toNat heq)

theorem canonical_of_unpack {b : BitVec Format.binary64.numBits} {h : 0 < m}
    (hb : UnpackedFloat.unpack Format.binary64 b = .finite s m e h) : Canonical m e ∧ e ≤ 971 := by
  have hmantissa : (unpackMantissa b : BitVec 52).toNat < 2 ^ 52 :=
    (unpackMantissa b : BitVec 52).isLt
  have hexponent : (unpackExponent b : BitVec 11).toNat < 2 ^ 11 :=
    (unpackExponent b : BitVec 11).isLt
  have hbias : (Format.binary64.exponentBias : Int) = 1023 := rfl
  unfold UnpackedFloat.unpack at hb
  dsimp only at hb
  split_ifs at hb with hmax hzero hmin hzero
  · obtain ⟨-, rfl, rfl⟩ := UnpackedFloat.finite.inj hb
    rw [hmin, hbias]
    exact ⟨⟨h, by omega, by decide, Or.inl (by decide)⟩, by decide⟩
  · obtain ⟨-, hm, he⟩ := UnpackedFloat.finite.inj hb
    have hpos : (unpackExponent b : BitVec 11).toNat ≠ 0 := fun h0 =>
      hmin (BitVec.eq_of_toNat_eq h0)
    have hlast : (unpackExponent b : BitVec 11).toNat ≠ 2047 := fun h0 =>
      hmax (BitVec.eq_of_toNat_eq h0)
    rw [toNat_implicit] at hm
    rw [hbias] at he
    exact ⟨⟨h, by omega, by omega, Or.inr (by omega)⟩, by omega⟩

theorem canonical_of_model {x : Float} {h : 0 < m} (hx : x.toModel.unpack = .finite s m e h) :
    Canonical m e ∧ e ≤ 971 :=
  canonical_of_unpack hx

theorem log2_of_normal (hlow : 2 ^ 52 ≤ m) (hhigh : m < 2 ^ 53) : m.log2 = 52 :=
  (Nat.log2_eq_iff (by omega)).mpr ⟨hlow, hhigh⟩

/-- The exponent field of a canonical number counts from the least exponent, and is zero where the
first bit of the mantissa is not set. -/
theorem Canonical.pack (hc : Canonical m e) (he : e ≤ 971) (h : 0 < m) :
    UnpackedFloat.pack Format.binary64 (.finite s m e h) =
      packComponents Format.binary64 s
        (if 2 ^ 52 ≤ m then BitVec.ofNat 11 (e + 1075).toNat else 0#11) (BitVec.ofNat 52 m) := by
  have hleast := hc.least
  have hbiased : (e + (Format.binary64.exponentBias : Int)
      + (Format.binary64.mantissaBitsWithoutImplicit : Int)).toNat = (e + 1075).toNat := by
    show (e + (1023 : Nat) + (52 : Nat)).toNat = _
    rw [Int.add_assoc]; rfl
  simp only [UnpackedFloat.pack, hbiased]
  rw [if_neg (show ¬ 2 ^ 11 ≤ (e + 1075).toNat + 1 by omega)]
  by_cases hn : 2 ^ 52 ≤ m
  · rw [if_pos hn, if_pos]
    show m.log2 + 1 = 53
    rw [log2_of_normal hn hc.lt]
  · rw [if_neg hn, if_neg]
    show ¬ m.log2 + 1 = 53
    have := (Nat.log2_lt (Nat.ne_of_gt h)).mpr (Nat.lt_of_not_le hn)
    omega

theorem Canonical.unpack_pack (hc : Canonical m e) (he : e ≤ 971) (h : 0 < m) :
    UnpackedFloat.unpack Format.binary64 (UnpackedFloat.pack Format.binary64 (.finite s m e h))
      = .finite s m e h := by
  have hleast := hc.least
  have hlt := hc.lt
  rw [hc.pack he]
  unfold UnpackedFloat.unpack
  simp only [unpackSign_packComponents, Sign.ofBitVec_toBitVec, unpackExponent_packComponents,
    unpackMantissa_packComponents]
  by_cases hn : 2 ^ 52 ≤ m
  · have hmantissa : (BitVec.ofNat 52 m).toNat = m - 2 ^ 52 := by rw [BitVec.toNat_ofNat]; omega
    have hexponent : (BitVec.ofNat 11 (e + 1075).toNat).toNat = (e + 1075).toNat := by
      rw [BitVec.toNat_ofNat]; omega
    have hmax : BitVec.ofNat 11 (e + 1075).toNat ≠ -1#11 :=
      bitVec_ne (by rw [hexponent]; show _ ≠ 2047; omega)
    have hmin : BitVec.ofNat 11 (e + 1075).toNat ≠ 0#11 :=
      bitVec_ne (by rw [hexponent]; show _ ≠ 0; omega)
    rw [if_pos hn, if_neg hmax, if_neg hmin]
    congr 1
    · rw [toNat_implicit, hmantissa]; omega
    · rw [hexponent]; show ((e + 1075).toNat : Int) - (1023 + 52) = e; omega
  · have hsub : e = -1074 := hc.normal.resolve_right hn
    have hmantissa : (BitVec.ofNat 52 m).toNat = m := by rw [BitVec.toNat_ofNat]; omega
    have hzero : BitVec.ofNat 52 m ≠ 0#52 := bitVec_ne (by rw [hmantissa]; show _ ≠ 0; omega)
    rw [if_neg hn, if_neg (by decide), if_pos rfl, dif_neg hzero]
    congr 1
    rw [hsub]; rfl

/-! ## Steps -/

/-- The size of a number in units of the least positive one. -/
def units (m : Nat) (e : Int) : Nat := m * 2 ^ (e + 1074).toNat

theorem Canonical.units_pos (hc : Canonical m e) : 0 < units m e :=
  Nat.mul_pos hc.pos (Nat.two_pow_pos _)

theorem Canonical.units_lt (hc : Canonical m e) (hc' : Canonical m' e') (h : e < e') :
    units m e < units m' e' := by
  have hleast := hc.least
  have hnormal : 2 ^ 52 ≤ m' := by
    rcases hc'.normal with h' | h'
    · omega
    · exact h'
  have hpow : 2 ^ ((e + 1074).toNat + 1) ≤ 2 ^ (e' + 1074).toNat :=
    Nat.pow_le_pow_right (by decide) (by omega)
  calc units m e < 2 ^ 53 * 2 ^ (e + 1074).toNat :=
        Nat.mul_lt_mul_of_pos_right hc.lt (Nat.two_pow_pos _)
    _ = 2 ^ 52 * 2 ^ ((e + 1074).toNat + 1) := by rw [Nat.pow_succ 2 (e + 1074).toNat]; omega
    _ ≤ m' * 2 ^ (e' + 1074).toNat := Nat.mul_le_mul hnormal hpow

/-- Canonical numbers are ordered by exponent first, and then by mantissa. -/
theorem Canonical.compare_units (hc : Canonical m e) (hc' : Canonical m' e') :
    (compare e e').then (compare m m') = compare (units m e) (units m' e') := by
  rcases Int.lt_trichotomy e e' with h | rfl | h
  · rw [Int.compare_eq_lt.mpr h, Nat.compare_eq_lt.mpr (hc.units_lt hc' h)]; rfl
  · rw [Int.compare_eq_eq.mpr rfl]
    simp only [Ordering.then, units, Nat.compare_eq_ite_lt,
      Nat.mul_lt_mul_right (Nat.two_pow_pos _)]
  · rw [Int.compare_eq_gt.mpr h, Nat.compare_eq_gt.mpr (hc'.units_lt hc h)]; rfl

/-- The steps of an unpacked number. -/
def unpackedSteps : UnpackedFloat → Option Int
  | .zero _ => some 0
  | .finite s m e _ => some (s.apply (units m e))
  | _ => none

/-- **The steps from zero to a finite number.** -/
def steps (x : Float) : Option Int := unpackedSteps x.toModel.unpack

variable {x y : Float} {a b : Int}

theorem isNaN_of_steps (h : steps x = some a) : x.isNaN = false := by
  show x.toModel.unpack.isNaN = false
  revert h
  unfold steps
  rcases x.toModel.unpack with _ | _ | _ | _ <;> simp [unpackedSteps, UnpackedFloat.isNaN]

theorem isFinite_iff_steps : x.isFinite = true ↔ ∃ a, steps x = some a := by
  show x.toModel.unpack.isFinite = true ↔ _
  unfold steps
  rcases x.toModel.unpack with _ | _ | _ | _ <;> simp [unpackedSteps, UnpackedFloat.isFinite]

theorem compare_steps (hx : steps x = some a) (hy : steps y = some b) :
    x.toModel.unpack.compare y.toModel.unpack = some (compare a b) := by
  unfold steps at hx hy
  have hcast (n n' : Nat) : compare (n : Int) n' = compare n n' := by
    simp only [compare, compareOfLessAndEq, Int.ofNat_lt, Int.natCast_inj]
  rcases hu : x.toModel.unpack with _ | _ | _ | ⟨_ | _, m, e, h⟩ <;>
    rcases hv : y.toModel.unpack with _ | _ | _ | ⟨_ | _, m', e', h'⟩ <;> rw [hu] at hx <;>
    rw [hv] at hy <;> cases hx <;> cases hy
  · rfl
  · have hpos := (canonical_of_model hv).1.units_pos
    have h : compare 0 (-(units m' e' : Int)) = .gt := Int.compare_eq_gt.mpr (by omega)
    exact congrArg some h.symm
  · have hpos := (canonical_of_model hv).1.units_pos
    have h : compare 0 (units m' e' : Int) = .lt := Int.compare_eq_lt.mpr (by omega)
    exact congrArg some h.symm
  · have hpos := (canonical_of_model hu).1.units_pos
    have h : compare (-(units m e : Int)) 0 = .lt := Int.compare_eq_lt.mpr (by omega)
    exact congrArg some h.symm
  · have hcompare := (canonical_of_model hu).1.compare_units (canonical_of_model hv).1
    refine congrArg some ?_
    show ((compare e e').then (compare m m')).swap = compare (-(units m e : Int)) (-(units m' e'))
    rw [hcompare, compare_neg_neg, hcast, Nat.compare_swap]
  · have hpos := (canonical_of_model hu).1.units_pos
    have h : compare (-(units m e : Int)) (units m' e') = .lt := Int.compare_eq_lt.mpr (by omega)
    exact congrArg some h.symm
  · have hpos := (canonical_of_model hu).1.units_pos
    have h : compare (units m e : Int) 0 = .gt := Int.compare_eq_gt.mpr (by omega)
    exact congrArg some h.symm
  · have hpos := (canonical_of_model hu).1.units_pos
    have h : compare (units m e : Int) (-(units m' e')) = .gt := Int.compare_eq_gt.mpr (by omega)
    exact congrArg some h.symm
  · have hcompare := (canonical_of_model hu).1.compare_units (canonical_of_model hv).1
    refine congrArg some ?_
    show (compare e e').then (compare m m') = compare (units m e : Int) (units m' e')
    rw [hcompare, hcast]

/-- **The order of finite numbers is the order of their steps.** -/
theorem lt_iff_steps (hx : steps x = some a) (hy : steps y = some b) : x < y ↔ a < b := by
  show decide (((x.toModel.unpack.compare y.toModel.unpack) == some .lt) = true) = true ↔ _
  rw [decide_eq_true_eq, beq_iff_eq, compare_steps hx hy, Option.some.injEq, Int.compare_eq_lt]

theorem le_iff_steps (hx : steps x = some a) (hy : steps y = some b) : x ≤ y ↔ a ≤ b := by
  have hlt := lt_iff_steps hy hx
  constructor
  · intro h
    exact Int.not_lt.mp fun hba => not_lt_of_le h (hlt.mpr hba)
  · intro h
    exact le_of_not_lt (isNaN_of_steps hy) (isNaN_of_steps hx) fun hyx =>
      Int.not_lt.mpr h (hlt.mp hyx)

end Metaheuristics.Arithmetic
