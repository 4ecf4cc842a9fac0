import Mathlib
import Metaheuristics.Arithmetic

/-!
# Negation

A number is kept as a sign, an exponent and a mantissa in fixed fields of bits.  Arithmetic unpacks
its operands and packs the result.  Negation changes the sign field and nothing else
(`unpack_pack_neg`), whatever is packed; so it is undone by a second negation (`neg_neg_self`), and
a difference changes with both its operands only in its sign (`abs_neg_sub_neg`).
-/

namespace Metaheuristics.Arithmetic

open Float.Model Float.Model.UnpackedFloat

/-! ## Packing -/

theorem neg_neg_sign (s : Sign) : - -s = s := by
  cases s <;> rfl

/-- The sign field decides the sign and nothing else. -/
theorem unpack_packComponents_neg {spec : Format} (s : Sign) (e : BitVec spec.exponentBits)
    (m : BitVec spec.mantissaBitsWithoutImplicit) :
    UnpackedFloat.unpack spec (packComponents spec (-s) e m)
      = (UnpackedFloat.unpack spec (packComponents spec s e m)).neg := by
  unfold UnpackedFloat.unpack
  simp only [unpackSign_packComponents, Sign.ofBitVec_toBitVec, unpackExponent_packComponents,
    unpackMantissa_packComponents]
  split_ifs <;> rfl

theorem unpack_pack_neg (u : UnpackedFloat) :
    UnpackedFloat.unpack Format.binary64 (UnpackedFloat.pack Format.binary64 u.neg)
      = (UnpackedFloat.unpack Format.binary64 (UnpackedFloat.pack Format.binary64 u)).neg := by
  rcases u with s | _ | s | ⟨s, m, e, h⟩
  · exact unpack_packComponents_neg s _ _
  · rfl
  · exact unpack_packComponents_neg s _ _
  · simp only [UnpackedFloat.neg, UnpackedFloat.pack]
    split_ifs
    · exact unpack_packComponents_neg s _ _
    · exact unpack_packComponents_neg s _ _
    · exact unpack_packComponents_neg s _ _

/-! ## Numbers -/

theorem pack_unpack_model (x : Float.Model) : Float.Model.pack x.unpack = x := by
  rcases x with ⟨bits, h⟩
  simp only [Float.Model.pack, Float.Model.unpack, pack_unpack_of_valid h]

theorem unpack_neg (x : Float) : (-x).toModel.unpack = x.toModel.unpack.neg := by
  have h := unpack_pack_neg x.toModel.unpack
  rw [show UnpackedFloat.pack Format.binary64 x.toModel.unpack = x.toModel.toBits.toBitVec from
    pack_unpack_of_valid x.toModel.valid] at h
  exact h

theorem neg_neg_unpacked (u : UnpackedFloat) : u.neg.neg = u := by
  cases u <;> simp [UnpackedFloat.neg, neg_neg_sign]

theorem neg_neg_self (x : Float) : - -x = x := by
  show Float.ofModel (Float.Model.pack (-x).toModel.unpack.neg) = x
  rw [unpack_neg, neg_neg_unpacked, pack_unpack_model]

theorem isNaN_neg (x : Float) : (-x).isNaN = x.isNaN := by
  show (-x).toModel.unpack.isNaN = x.toModel.unpack.isNaN
  rw [unpack_neg]
  cases x.toModel.unpack <;> rfl

/-! ## Differences -/

theorem round_neg (spec : Format) (s : Sign) (m : Nat) (e : Int) :
    UnpackedFloat.round spec (-s) m e = (UnpackedFloat.round spec s m e).neg := by
  simp only [UnpackedFloat.round, roundWithAccuracy]
  split_ifs <;> rfl

/-- What comes out where the mantissa is negated: the same with the other sign, or zero. -/
theorem normalize_neg (spec : Format) (m e : Int) :
    UnpackedFloat.normalize spec (-m) e .positive
        = (UnpackedFloat.normalize spec m e .positive).neg ∨
      UnpackedFloat.normalize spec (-m) e .positive
        = UnpackedFloat.normalize spec m e .positive := by
  unfold UnpackedFloat.normalize
  rcases Int.lt_trichotomy m 0 with h | rfl | h
  · left
    rw [Int.compare_eq_gt.mpr (by omega), Int.compare_eq_lt.mpr h]
    exact round_neg spec .negative _ e
  · right; rfl
  · left
    rw [Int.compare_eq_lt.mpr (by omega), Int.compare_eq_gt.mpr h]
    rw [Int.neg_neg]
    exact round_neg spec .positive _ e

theorem apply_neg (s : Sign) (n : Int) : (-s).apply n = -s.apply n := by
  cases s
  · exact (Int.neg_neg n).symm
  · rfl

/-- The difference of negations is the negated difference, or the same where it is zero. -/
theorem sub_neg_neg (spec : Format) (a b : UnpackedFloat) :
    UnpackedFloat.sub spec a.neg b.neg = (UnpackedFloat.sub spec a b).neg ∨
      UnpackedFloat.sub spec a.neg b.neg = UnpackedFloat.sub spec a b := by
  rcases a with (_ | _) | _ | (_ | _) | ⟨s, m, e, h⟩ <;>
    rcases b with (_ | _) | _ | (_ | _) | ⟨s', m', e', h'⟩
  case finite.finite =>
    have hm (n n' : Int) : -n - -n' = -(n - n') := by omega
    simp only [UnpackedFloat.neg, UnpackedFloat.sub, apply_neg, hm]
    exact normalize_neg spec _ _
  all_goals first | exact Or.inl rfl | exact Or.inr rfl

theorem abs_unpack_pack_neg (u : UnpackedFloat) :
    (Float.Model.pack u.neg).unpack.abs = (Float.Model.pack u).unpack.abs := by
  show (UnpackedFloat.unpack Format.binary64 (UnpackedFloat.pack Format.binary64 u.neg)).abs = _
  rw [unpack_pack_neg]
  show _ = (UnpackedFloat.unpack Format.binary64 (UnpackedFloat.pack Format.binary64 u)).abs
  generalize UnpackedFloat.unpack Format.binary64 (UnpackedFloat.pack Format.binary64 u) = v
  cases v <;> rfl

/-- **Distances are the same between negations.** -/
theorem abs_neg_sub_neg (x y : Float) : (-x - -y).abs = (x - y).abs := by
  show Float.ofModel (Float.Model.pack (Float.Model.pack (UnpackedFloat.sub Format.binary64
      (-x).toModel.unpack (-y).toModel.unpack)).unpack.abs)
    = Float.ofModel (Float.Model.pack (Float.Model.pack (UnpackedFloat.sub Format.binary64
      x.toModel.unpack y.toModel.unpack)).unpack.abs)
  rw [unpack_neg, unpack_neg]
  rcases sub_neg_neg Format.binary64 x.toModel.unpack y.toModel.unpack with h | h
  · rw [h, abs_unpack_pack_neg]
  · rw [h]

end Metaheuristics.Arithmetic
