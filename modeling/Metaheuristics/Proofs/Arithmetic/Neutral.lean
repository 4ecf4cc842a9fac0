import Metaheuristics.Proofs.Arithmetic.Products

/-!
# Neutral elements

Negative zero is neutral in sums (`neg_zero_add_self`) and one in products (`one_mul_self`), for
every value: zeros keep their sign, infinities and what is not a number stay what they are.  A
number of 53 bits is rounded to itself, so multiplying by one gives back the units of the other
factor.
-/

namespace Metaheuristics.Arithmetic

open Float.Model Float.Model.UnpackedFloat

/-! ## Sums -/

theorem zero_negative_add (u : UnpackedFloat) :
    UnpackedFloat.add Format.binary64 (.zero .negative) u = u := by
  rcases u with (_ | _) | _ | (_ | _) | _ <;> rfl

/-- **Negative zero is neutral in sums.** -/
theorem neg_zero_add_self (x : Float) : -0.0 + x = x := by
  show Float.ofModel (Float.Model.pack (UnpackedFloat.add Format.binary64
    (.zero .negative) x.toModel.unpack)) = x
  rw [zero_negative_add, pack_unpack_model]

theorem sum_singleton (x : Float) : sum [x] = x := neg_zero_add_self x

/-! ## Products -/

theorem inUnits_one_mul {s : Sign} {m : Nat} {e : Int} (hc : Canonical m e) :
    InUnits s (units m e)
      (roundWithAccuracy Format.binary64 s (2 ^ 52 * m) (-52 + e) .exact) := by
  have hone : Canonical (2 ^ 52) (-52) := ⟨by decide, by decide, by decide, Or.inr (le_refl _)⟩
  have hleast := hc.least
  have hsum : 52 + (-52 + e + 2148).toNat = (e + 1074).toNat + 1074 := by omega
  have hunits : 2 ^ 52 * m * 2 ^ (-52 + e + 2148).toNat = units m e * oneUnits := by
    unfold units
    rw [Nat.mul_assoc m, two_pow_mul_oneUnits, Nat.mul_comm (2 ^ 52), Nat.mul_assoc,
      ← Nat.pow_add, hsum]
  have hround := inUnits_roundWithAccuracy (s := s) (by omega : -2148 ≤ -52 + e)
    (hone.le_target hc)
  rwa [hunits, units, roundUnits_exact hc.lt] at hround

/-- **One is neutral in products.** -/
theorem one_mul_self (x : Float) : 1.0 * x = x := by
  show Float.ofModel (Float.Model.pack (UnpackedFloat.mul Format.binary64
    (1.0 : Float).toModel.unpack x.toModel.unpack)) = x
  have hone : (1.0 : Float).toModel.unpack = .finite .positive (2 ^ 52) (-52) (by decide) := rfl
  suffices hmul : UnpackedFloat.mul Format.binary64 (1.0 : Float).toModel.unpack x.toModel.unpack
      = x.toModel.unpack by rw [hmul, pack_unpack_model]
  rw [hone]
  rcases hx : x.toModel.unpack with (_ | _) | _ | (_ | _) | ⟨s, m, e, hm⟩
  case finite =>
    have hc := (canonical_of_model hx).1
    have hround := inUnits_one_mul (s := s) hc
    refine InUnits.unique ?_ (show InUnits s (units m e) (.finite s m e hm) from ⟨rfl, hc, rfl⟩)
    cases s <;> exact hround
  all_goals rfl

end Metaheuristics.Arithmetic
