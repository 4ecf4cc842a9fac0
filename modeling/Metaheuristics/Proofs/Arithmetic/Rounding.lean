import Mathlib.Tactic.SplitIfs
import Metaheuristics.Proofs.Arithmetic.Canonical

/-!
# Rounding to the nearest

Quotients rounded to the nearest whole number, ties to the even one (`divEven`), and how the numbers
are rounded with them: the bits that are shifted out of a mantissa are remembered in two residual
bits, which say just enough of the remainder to round the quotient (`roundedMantissa_residual`).

A ratio is rounded to a whole number with at most 53 bits before its trailing zeros (`roundRatio`).
The rounding of the floating-point operations is this one (`inUnits_roundFraction`); it is monotone
(`roundRatio_mono`), and passes over no number of 53 bits (`roundRatio_le`, `roundRatio_exact`).
Sums and products are whole multiples of `2⁻²¹⁴⁸`, which is the case `roundUnits`.
-/

namespace Metaheuristics.Arithmetic

open Float.Model Float.Model.UnpackedFloat

/-! ## Quotients -/

/-- **The quotient rounded to the nearest whole number**, to the even one where two are as near. -/
def divEven (n d : Nat) : Nat :=
  if 2 * (n % d) < d then n / d
  else if d < 2 * (n % d) then n / d + 1
  else n / d + n / d % 2

section
variable {n n' c d d' : Nat}

theorem divEven_mem (n d : Nat) : n / d ≤ divEven n d ∧ divEven n d ≤ n / d + 1 := by
  unfold divEven
  split_ifs <;> omega

theorem le_divEven (hd : 0 < d) (h : c * d ≤ n) : c ≤ divEven n d :=
  ((Nat.le_div_iff_mul_le hd).mpr h).trans (divEven_mem n d).1

theorem divEven_le (hd : 0 < d) (h : n ≤ c * d) : divEven n d ≤ c := by
  by_cases hlt : n / d < c
  · exact (divEven_mem n d).2.trans hlt
  · have hge : c * d ≤ n / d * d := Nat.mul_le_mul_right d (Nat.le_of_not_lt hlt)
    have hsplit : n / d * d + n % d = n := Nat.div_add_mod' n d
    have hquotient : n / d ≤ c := Nat.le_of_mul_le_mul_right (by omega : n / d * d ≤ c * d) hd
    have hexact : n % d = 0 := by omega
    unfold divEven
    rw [hexact, if_pos (by omega)]
    exact hquotient

/-- What is more than half a unit below a whole number is rounded to a smaller one. -/
theorem divEven_lt (hd : 0 < d) (h : 2 * n + d < 2 * (c * d)) : divEven n d < c := by
  have hsplit : n / d * d + n % d = n := Nat.div_add_mod' n d
  have hlt : n / d < c := Nat.lt_of_mul_lt_mul_right (a := d) (by omega)
  rcases Nat.lt_or_ge (n / d + 1) c with hfar | hnear
  · exact (divEven_mem n d).2.trans_lt hfar
  · obtain rfl : c = n / d + 1 := by omega
    rw [Nat.add_mul, Nat.one_mul] at h
    unfold divEven
    rw [if_pos (by omega)]
    exact hlt

theorem divEven_eq_zero (hd : 0 < d) (h : 2 * n ≤ d) : divEven n d = 0 := by
  unfold divEven
  rw [Nat.mod_eq_of_lt (by omega), Nat.div_eq_of_lt (by omega)]
  split_ifs <;> omega

theorem divEven_mul_right {k : Nat} (hk : 0 < k) : divEven (n * k) (d * k) = divEven n d := by
  have hlt (a b : Nat) : a * k < b * k ↔ a < b := Nat.mul_lt_mul_right hk
  unfold divEven
  rw [Nat.mul_mod_mul_right, Nat.mul_div_mul_right _ _ hk, ← Nat.mul_assoc]
  simp only [hlt]

theorem divEven_mono_left (h : n ≤ n') : divEven n d ≤ divEven n' d := by
  rcases Nat.lt_or_eq_of_le (Nat.div_le_div_right (c := d) h) with hlt | heq
  · exact (divEven_mem n d).2.trans (hlt.trans_le (divEven_mem n' d).1)
  · have hsplit : n / d * d + n % d = n := Nat.div_add_mod' n d
    have hsplit' : n' / d * d + n' % d = n' := Nat.div_add_mod' n' d
    rw [← heq] at hsplit'
    unfold divEven
    rw [← heq]
    split_ifs <;> omega

theorem divEven_mono (hd : 0 < d) (hd' : 0 < d') (h : n * d' ≤ n' * d) :
    divEven n d ≤ divEven n' d' := by
  rw [← divEven_mul_right (n := n) (d := d) hd', ← divEven_mul_right (n := n') (d := d') hd,
    Nat.mul_comm d' d]
  exact divEven_mono_left h

end

/-! ## Residual bits -/

/-- The quotient with its residual bits: whether the remainder is half of the divisor or more, and
whether it is neither zero nor half of the divisor. -/
def residual (n d : Nat) : ExtendedMantissa :=
  ⟨n / d, decide (d ≤ 2 * (n % d)), decide (n % d ≠ 0 ∧ 2 * (n % d) ≠ d)⟩

section
variable {n d : Nat} (hd : 0 < d)
include hd

theorem ofMantissaAndAccuracy_eq :
    ExtendedMantissa.ofMantissaAndAccuracy (n / d) (accuracyOfFraction (n % d) d)
      = residual n d := by
  have hrest : n % d < d := Nat.mod_lt n hd
  unfold accuracyOfFraction residual
  split_ifs with hzero
  · rw [hzero, decide_eq_false (by omega), decide_eq_false (by omega)]
    rfl
  · rcases Nat.lt_trichotomy (2 * (n % d)) d with h | h | h
    · rw [Nat.compare_eq_lt.mpr h, decide_eq_false (by omega), decide_eq_true (by omega)]
      rfl
    · rw [Nat.compare_eq_eq.mpr h, decide_eq_true (by omega), decide_eq_false (by omega)]
      rfl
    · rw [Nat.compare_eq_gt.mpr h, decide_eq_true (by omega), decide_eq_true (by omega)]
      rfl

theorem shiftRightOne_residual : (residual n d).shiftRightOne = residual n (d * 2) := by
  have hrest : n % d < d := Nat.mod_lt n hd
  have hquotient : n / (d * 2) = n / d / 2 := (Nat.div_div_eq_div_mul n d 2).symm
  have hremainder : n % (d * 2) = n % d + d * (n / d % 2) := Nat.mod_mul
  unfold residual ExtendedMantissa.shiftRightOne
  rw [hquotient, hremainder]
  rcases Nat.mod_two_eq_zero_or_one (n / d) with hbit | hbit <;> rw [hbit] <;>
    simp only [ExtendedMantissa.mk.injEq, true_and, Nat.mul_zero, Nat.mul_one, Nat.add_zero,
      ← Bool.decide_or, decide_eq_decide, bne_self_eq_false, eq_comm (a := false),
      decide_eq_false_iff_not]
  · constructor <;> omega
  · constructor
    · simp; omega
    · omega

theorem shiftRight_residual (k : Nat) : residual n d >>> k = residual n (d * 2 ^ k) := by
  induction k with
  | zero =>
    rw [Nat.pow_zero, Nat.mul_one]
    rfl
  | succ k ih =>
    show (residual n d >>> k).shiftRightOne = _
    rw [ih, shiftRightOne_residual (Nat.mul_pos hd (Nat.two_pow_pos k)), Nat.mul_assoc, Nat.pow_succ]

/-- **The residual bits say how to round.** -/
theorem roundedMantissa_residual : (residual n d).roundedMantissa = divEven n d := by
  have hlt : n % d < d := Nat.mod_lt n hd
  unfold residual divEven
  by_cases hhalf : d ≤ 2 * (n % d) <;> by_cases hrest : n % d ≠ 0 ∧ 2 * (n % d) ≠ d
  · rw [decide_eq_true hhalf, decide_eq_true hrest, if_neg (by omega), if_pos (by omega)]
    rfl
  · rw [decide_eq_true hhalf, decide_eq_false hrest, if_neg (by omega), if_neg (by omega)]
    rfl
  · rw [decide_eq_false hhalf, decide_eq_true hrest, if_pos (by omega)]
    rfl
  · rw [decide_eq_false hhalf, decide_eq_false hrest, if_pos (by omega)]
    rfl

end

/-! ## Rounding to 53 bits -/

/-- The power of two that the ratio `n / d` is rounded to a multiple of. -/
def ratioGrain (n d : Nat) : Nat := (n / d).log2 - 52

/-- **The ratio `n / d` rounded to 53 bits.** -/
def roundRatio (n d : Nat) : Nat := divEven n (2 ^ ratioGrain n d * d) * 2 ^ ratioGrain n d

/-- A multiple of a power of two is one of each smaller power. -/
theorem mul_two_pow_eq {i j : Nat} (c : Nat) (h : i ≤ j) :
    c * 2 ^ j = c * 2 ^ (j - i) * 2 ^ i := by
  rw [Nat.mul_assoc, ← Nat.pow_add, Nat.sub_add_cancel h]

theorem two_pow_mul_pos {d : Nat} (hd : 0 < d) (k : Nat) : 0 < 2 ^ k * d :=
  Nat.mul_pos (Nat.two_pow_pos k) hd

section
variable {n n' c d d' j : Nat} (hd : 0 < d)
include hd

theorem le_of_ratioGrain (h : 0 < ratioGrain n d) : 2 ^ (52 + ratioGrain n d) * d ≤ n := by
  have hlog : (n / d).log2 = 52 + ratioGrain n d := by unfold ratioGrain at h ⊢; omega
  have hquotient : n / d ≠ 0 := fun hzero => by
    rw [hzero, Nat.log2_zero] at hlog
    omega
  rw [← Nat.le_div_iff_mul_le hd, ← hlog]
  exact Nat.log2_self_le hquotient

theorem lt_of_ratioGrain (n : Nat) : n < 2 ^ (53 + ratioGrain n d) * d := by
  rw [← Nat.div_lt_iff_lt_mul hd]
  refine Nat.lt_log2_self.trans_le (Nat.pow_le_pow_right (by decide) ?_)
  unfold ratioGrain
  omega

theorem ratioGrain_le (h : n < 2 ^ (53 + j) * d) : ratioGrain n d ≤ j := by
  by_contra hlt
  have hlow := le_of_ratioGrain (n := n) hd (by omega)
  have hpow : 2 ^ (53 + j) ≤ 2 ^ (52 + ratioGrain n d) :=
    Nat.pow_le_pow_right (by decide) (by omega)
  have hle : 2 ^ (53 + j) * d ≤ 2 ^ (52 + ratioGrain n d) * d := Nat.mul_le_mul_right d hpow
  omega

theorem ratioGrain_eq (hlt : n < 2 ^ (53 + j) * d) (hle : j = 0 ∨ 2 ^ (52 + j) * d ≤ n) :
    ratioGrain n d = j := by
  refine Nat.le_antisymm (ratioGrain_le hd hlt) ?_
  rcases hle with rfl | hle
  · exact Nat.zero_le _
  · rw [← Nat.le_div_iff_mul_le hd] at hle
    have hlog := (Nat.le_log2 (Nat.pos_iff_ne_zero.mp ((Nat.two_pow_pos _).trans_le hle))).mpr hle
    unfold ratioGrain
    omega

/-- What is not above a number of 53 bits has no coarser grain. -/
theorem ratioGrain_le_of_le (hc : c < 2 ^ 53) (h : n ≤ c * 2 ^ j * d) : ratioGrain n d ≤ j := by
  refine ratioGrain_le hd (h.trans_lt (Nat.mul_lt_mul_of_pos_right ?_ hd))
  rw [Nat.pow_add]
  exact Nat.mul_lt_mul_of_pos_right hc (Nat.two_pow_pos j)

theorem ratioGrain_mono (hd' : 0 < d') (h : n * d' ≤ n' * d) :
    ratioGrain n d ≤ ratioGrain n' d' := by
  refine ratioGrain_le hd (Nat.lt_of_mul_lt_mul_right (a := d') (h.trans_lt ?_))
  rw [Nat.mul_right_comm]
  exact Nat.mul_lt_mul_of_pos_right (lt_of_ratioGrain hd' n') hd

theorem roundRatio_le (hc : c < 2 ^ 53) (h : n ≤ c * 2 ^ j * d) : roundRatio n d ≤ c * 2 ^ j := by
  have hgrain := ratioGrain_le_of_le hd hc h
  unfold roundRatio
  rw [mul_two_pow_eq c hgrain] at h ⊢
  refine Nat.mul_le_mul_right _ (divEven_le (two_pow_mul_pos hd _) ?_)
  rwa [Nat.mul_assoc (c * 2 ^ (j - ratioGrain n d))] at h

theorem roundRatio_lt (hc : c < 2 ^ 53)
    (h : 2 * n + 2 ^ ratioGrain n d * d < 2 * (c * 2 ^ j * d)) : roundRatio n d < c * 2 ^ j := by
  have hgrain : ratioGrain n d ≤ j := ratioGrain_le_of_le hd hc (by omega)
  unfold roundRatio
  rw [mul_two_pow_eq c hgrain] at h ⊢
  refine Nat.mul_lt_mul_of_pos_right (divEven_lt (two_pow_mul_pos hd _) ?_) (Nat.two_pow_pos _)
  rwa [Nat.mul_assoc (c * 2 ^ (j - ratioGrain n d))] at h

/-- **A number of 53 bits** is rounded to itself. -/
theorem roundRatio_exact (hc : c < 2 ^ 53) : roundRatio (c * 2 ^ j * d) d = c * 2 ^ j := by
  refine Nat.le_antisymm (roundRatio_le hd hc (Nat.le_refl _)) ?_
  have hgrain := ratioGrain_le_of_le hd hc (Nat.le_refl (c * 2 ^ j * d))
  unfold roundRatio
  generalize ratioGrain (c * 2 ^ j * d) d = g at hgrain
  rw [mul_two_pow_eq c hgrain, Nat.mul_assoc (c * 2 ^ (j - g))]
  exact Nat.mul_le_mul_right _ (le_divEven (two_pow_mul_pos hd g) (Nat.le_refl _))

/-- **Rounding is monotone.** -/
theorem roundRatio_mono (hd' : 0 < d') (h : n * d' ≤ n' * d) :
    roundRatio n d ≤ roundRatio n' d' := by
  rcases Nat.lt_or_eq_of_le (ratioGrain_mono hd hd' h) with hlt | heq
  · -- the least number with the grain of the larger ratio lies between the two
    have hlow := le_of_ratioGrain (n := n') hd' (by omega)
    have hhigh : n ≤ 2 ^ 52 * 2 ^ ratioGrain n' d' * d := by
      rw [← Nat.pow_add]
      refine (lt_of_ratioGrain hd n).le.trans (Nat.mul_le_mul_right _ ?_)
      exact Nat.pow_le_pow_right (by decide) (by omega)
    refine (roundRatio_le hd (by decide) hhigh).trans ?_
    unfold roundRatio
    refine Nat.mul_le_mul_right _ (le_divEven (two_pow_mul_pos hd' _) ?_)
    rwa [← Nat.mul_assoc, ← Nat.pow_add]
  · unfold roundRatio
    rw [heq]
    refine Nat.mul_le_mul_right _
      (divEven_mono (two_pow_mul_pos hd _) (two_pow_mul_pos hd' _) ?_)
    rw [Nat.mul_left_comm, Nat.mul_left_comm n']
    exact Nat.mul_le_mul_left _ h

theorem roundRatio_congr (hd' : 0 < d') (h : n * d' = n' * d) :
    roundRatio n d = roundRatio n' d' :=
  Nat.le_antisymm (roundRatio_mono hd hd' h.le) (roundRatio_mono hd' hd h.ge)

end

/-! ## Multiples of the least product -/

/-- The number one, which is `2¹⁰⁷⁴`, in units of the least positive number. -/
@[irreducible]
def oneUnits : Nat := 2 ^ (52 + 1022)

theorem two_pow_mul_oneUnits (k : Nat) : 2 ^ k * oneUnits = 2 ^ (k + 1074) := by
  unfold oneUnits
  rw [← Nat.pow_add]

theorem two_pow_mul_oneUnits_pos (k : Nat) : 0 < 2 ^ k * oneUnits := by
  rw [two_pow_mul_oneUnits]
  exact Nat.two_pow_pos _

theorem oneUnits_pos : 0 < oneUnits := Nat.pos_of_mul_pos_left (two_pow_mul_oneUnits_pos 0)

/-- The power of two that the number `p · 2⁻²¹⁴⁸` is rounded to a multiple of, in units of the least
positive number. -/
def grain (p : Nat) : Nat := p.log2 - 1126

/-- **The number `p · 2⁻²¹⁴⁸` rounded to 53 bits**, in units of the least positive number. -/
def roundUnits (p : Nat) : Nat := divEven p (2 ^ grain p * oneUnits) * 2 ^ grain p

theorem grain_eq (p : Nat) : grain p = ratioGrain p oneUnits := by
  symm
  refine ratioGrain_eq oneUnits_pos ?_ ?_
  · rw [two_pow_mul_oneUnits]
    refine Nat.lt_log2_self.trans_le (Nat.pow_le_pow_right (by decide) ?_)
    unfold grain
    omega
  · refine or_iff_not_imp_left.mpr fun hpos => ?_
    have hlog : p.log2 = 52 + grain p + 1074 := by unfold grain at hpos ⊢; omega
    have hp : p ≠ 0 := fun hzero => by
      rw [hzero, Nat.log2_zero] at hlog
      omega
    rw [two_pow_mul_oneUnits, ← hlog]
    exact Nat.log2_self_le hp

/-- **Rounding a multiple of `2⁻²¹⁴⁸`** is rounding a ratio. -/
theorem roundUnits_eq (p : Nat) : roundUnits p = roundRatio p oneUnits := by
  unfold roundUnits roundRatio
  rw [grain_eq]

section
variable {p q c j : Nat}

theorem le_of_grain (h : 0 < grain p) : 2 ^ (52 + grain p) * oneUnits ≤ p := by
  rw [grain_eq] at h ⊢
  exact le_of_ratioGrain oneUnits_pos h

theorem grain_le (h : p < 2 ^ (53 + j) * oneUnits) : grain p ≤ j := by
  rw [grain_eq]
  exact ratioGrain_le oneUnits_pos h

theorem roundUnits_le (hc : c < 2 ^ 53) (h : p ≤ c * 2 ^ j * oneUnits) :
    roundUnits p ≤ c * 2 ^ j := by
  rw [roundUnits_eq]
  exact roundRatio_le oneUnits_pos hc h

theorem roundUnits_lt (hc : c < 2 ^ 53)
    (h : 2 * p + 2 ^ grain p * oneUnits < 2 * (c * 2 ^ j * oneUnits)) :
    roundUnits p < c * 2 ^ j := by
  rw [grain_eq] at h
  rw [roundUnits_eq]
  exact roundRatio_lt oneUnits_pos hc h

theorem roundUnits_exact (hc : c < 2 ^ 53) : roundUnits (c * 2 ^ j * oneUnits) = c * 2 ^ j := by
  rw [roundUnits_eq]
  exact roundRatio_exact oneUnits_pos hc

theorem roundUnits_mono (h : p ≤ q) : roundUnits p ≤ roundUnits q := by
  rw [roundUnits_eq, roundUnits_eq]
  exact roundRatio_mono oneUnits_pos oneUnits_pos (Nat.mul_le_mul_right _ h)

end

/-! ## Rounding of mantissas -/

/-- **An unpacked number in canonical form**, with a sign and so many units. -/
def InUnits (s : Sign) (v : Nat) : UnpackedFloat → Prop
  | .zero s' => s' = s ∧ v = 0
  | .finite s' m e _ => s' = s ∧ Canonical m e ∧ v = units m e
  | _ => False

/-- The exponent of a mantissa that is rounded. -/
def target (n : Nat) (e : Int) : Int := max (n.log2 + e - 52) (-1074)

theorem targetExponent_eq (n : Nat) (e : Int) :
    Format.binary64.targetExponent (totalExponent n e) = target n e := by
  show max ((n.log2 : Int) + 1 + e - (1 + 52 : Nat)) (3 - 2 ^ (11 - 1) - ((1 + 52 : Nat) : Int)) = _
  unfold target
  omega

section
variable {s : Sign} {n d : Nat} {e : Int}

theorem shiftToTargetExponent_eq (accuracy : Accuracy) (h : e ≤ target n e) :
    shiftToTargetExponent Format.binary64 n e accuracy =
      (ExtendedMantissa.ofMantissaAndAccuracy n accuracy >>> (target n e - e).toNat,
        target n e) := by
  unfold shiftToTargetExponent
  rw [targetExponent_eq]
  refine Prod.ext rfl ?_
  show e + ((target n e - e).toNat : Int) = target n e
  omega

/-- A mantissa of 53 bits needs no more shifting. -/
theorem shiftToTargetExponent_of_lt (hn : n < 2 ^ 53) (he : -1074 ≤ e) :
    shiftToTargetExponent Format.binary64 n e .exact = (⟨n, false, false⟩, e) := by
  have hlog : n.log2 < 53 := by
    rcases Nat.eq_zero_or_pos n with rfl | hpos
    · decide
    · exact (Nat.log2_lt (by omega)).mpr hn
  have htarget : target n e - e ≤ 0 := by
    unfold target
    omega
  unfold shiftToTargetExponent
  rw [targetExponent_eq]
  unfold shiftToExponent
  dsimp only
  rw [Int.toNat_of_nonpos htarget, Int.natCast_zero, Int.add_zero]
  rfl

/-- A mantissa that rounding has carried over to 54 bits is shifted once more. -/
theorem shiftToTargetExponent_carry (he : -1074 ≤ e) :
    shiftToTargetExponent Format.binary64 (2 ^ 53) e .exact = (⟨2 ^ 52, false, false⟩, e + 1) := by
  have htarget : target (2 ^ 53) e = e + 1 := by
    unfold target
    rw [Nat.log2_two_pow]
    omega
  rw [shiftToTargetExponent_eq .exact (by omega), htarget, Int.add_comm e 1, Int.add_sub_cancel]
  rfl

theorem lt_of_target (hd : 0 < d) (h : e ≤ target (n / d) e) :
    n < 2 ^ (53 + (target (n / d) e - e).toNat) * d := by
  rw [← Nat.div_lt_iff_lt_mul hd]
  refine Nat.lt_log2_self.trans_le (Nat.pow_le_pow_right (by decide) ?_)
  unfold target at h ⊢
  omega

theorem le_of_target (hd : 0 < d) (h : e ≤ target (n / d) e) (hleast : target (n / d) e ≠ -1074) :
    2 ^ (52 + (target (n / d) e - e).toNat) * d ≤ n := by
  have hlog : 52 + (target (n / d) e - e).toNat = (n / d).log2 := by
    unfold target at hleast h ⊢
    omega
  have hquotient : n / d ≠ 0 := fun hzero => by
    rw [hzero, Nat.log2_zero] at hlog
    omega
  rw [← Nat.le_div_iff_mul_le hd, hlog]
  exact Nat.log2_self_le hquotient

/-- The ratio of a mantissa that is a quotient, in units of the least positive number, is rounded
as far as its exponent tells. -/
theorem roundRatio_fraction (hd : 0 < d) (h : e ≤ target (n / d) e) :
    roundRatio (n * 2 ^ (e + 1074).toNat) (d * 2 ^ (-(e + 1074)).toNat)
      = divEven n (d * 2 ^ (target (n / d) e - e).toNat)
        * 2 ^ (target (n / d) e + 1074).toNat := by
  have hbound : -1074 ≤ target (n / d) e := le_max_right _ _
  have hlt := lt_of_target hd h
  have hle : (target (n / d) e + 1074).toNat = 0 ∨
      2 ^ (52 + (target (n / d) e - e).toNat) * d ≤ n :=
    or_iff_not_imp_left.mpr fun hpos => le_of_target hd h (by omega)
  -- a shift by `k` to the grain `g`, where the ratio has the factors `2 ^ a` and `2 ^ b`
  have hshift : (target (n / d) e - e).toNat + (e + 1074).toNat
      = (target (n / d) e + 1074).toNat + (-(e + 1074)).toNat := by omega
  generalize (target (n / d) e - e).toNat = k at *
  generalize (target (n / d) e + 1074).toNat = g at *
  generalize (e + 1074).toNat = a at *
  generalize (-(e + 1074)).toNat = b at *
  have hscale (c : Nat) : 2 ^ (c + g) * (d * 2 ^ b) = 2 ^ (c + k) * d * 2 ^ a := by
    rw [Nat.mul_left_comm, ← Nat.pow_add, Nat.add_assoc, ← hshift, ← Nat.add_assoc, Nat.pow_add,
      ← Nat.mul_assoc, Nat.mul_comm d]
  have hgrain : ratioGrain (n * 2 ^ a) (d * 2 ^ b) = g := by
    refine ratioGrain_eq (Nat.mul_pos hd (Nat.two_pow_pos b)) ?_ (hle.imp_right fun hle => ?_)
    · rw [hscale]
      exact Nat.mul_lt_mul_of_pos_right hlt (Nat.two_pow_pos a)
    · rw [hscale]
      exact Nat.mul_le_mul_right _ hle
  unfold roundRatio
  rw [hgrain, ← Nat.zero_add g, hscale 0, divEven_mul_right (Nat.two_pow_pos a), Nat.zero_add,
    Nat.zero_add, Nat.mul_comm d]

/-- A mantissa that is rounded to at most 53 bits is in canonical form after one more shift. -/
theorem inUnits_shiftToTargetExponent {m : Nat} (he : -1074 ≤ e) (hle : m ≤ 2 ^ 53)
    (hnormal : e = -1074 ∨ 2 ^ 52 ≤ m) :
    InUnits s (m * 2 ^ (e + 1074).toNat)
      (let (m, e) := shiftToTargetExponent Format.binary64 m e .exact
       if h : m.mantissa = 0 then .zero s
       else .finite s m.mantissa e (Nat.pos_of_ne_zero h)) := by
  rcases Nat.lt_or_eq_of_le hle with hlt | rfl
  · rw [shiftToTargetExponent_of_lt hlt he]
    dsimp only
    by_cases hm : m = 0
    · rw [dif_pos hm, hm, Nat.zero_mul]
      exact ⟨rfl, rfl⟩
    · rw [dif_neg hm]
      exact ⟨rfl, ⟨Nat.pos_of_ne_zero hm, hlt, he, hnormal⟩, rfl⟩
  · rw [shiftToTargetExponent_carry he]
    dsimp only
    rw [dif_neg (by decide)]
    refine ⟨rfl, ⟨by decide, by decide, by omega, Or.inr (le_refl _)⟩, ?_⟩
    have hsucc : (e + 1 + 1074).toNat = (e + 1074).toNat + 1 := by omega
    unfold units
    rw [hsucc, Nat.pow_succ 2 (e + 1074).toNat]
    omega

theorem inUnits_roundFraction (hd : 0 < d) (h : e ≤ target (n / d) e) :
    InUnits s (roundRatio (n * 2 ^ (e + 1074).toNat) (d * 2 ^ (-(e + 1074)).toNat))
      (roundWithAccuracy Format.binary64 s (n / d) e (accuracyOfFraction (n % d) d)) := by
  have hpos : 0 < d * 2 ^ (target (n / d) e - e).toNat := Nat.mul_pos hd (Nat.two_pow_pos _)
  rw [roundRatio_fraction hd h]
  unfold roundWithAccuracy
  rw [shiftToTargetExponent_eq _ h, ofMantissaAndAccuracy_eq hd, shiftRight_residual hd]
  dsimp only
  rw [roundedMantissa_residual hpos]
  refine inUnits_shiftToTargetExponent (le_max_right _ _) (divEven_le hpos ?_)
    (or_iff_not_imp_left.mpr fun hleast => le_divEven hpos ?_)
  · rw [Nat.mul_comm d, ← Nat.mul_assoc, ← Nat.pow_add]
    exact (lt_of_target hd h).le
  · rw [Nat.mul_comm d, ← Nat.mul_assoc, ← Nat.pow_add]
    exact le_of_target hd h hleast

/-- **Numbers are rounded to 53 bits**, when their exponent is not above the one they are shifted
to. -/
theorem inUnits_roundWithAccuracy (he : -2148 ≤ e) (h : e ≤ target n e) :
    InUnits s (roundUnits (n * 2 ^ (e + 2148).toNat))
      (roundWithAccuracy Format.binary64 s n e .exact) := by
  rw [← Nat.div_one n] at h
  have hround := inUnits_roundFraction (s := s) Nat.one_pos h
  have hexact : accuracyOfFraction (n % 1) 1 = .exact := by
    rw [Nat.mod_one]
    rfl
  have hscale : (e + 1074).toNat + 1074 = (e + 2148).toNat + (-(e + 1074)).toNat := by omega
  rw [hexact, Nat.div_one] at hround
  rw [roundUnits_eq, roundRatio_congr oneUnits_pos (Nat.mul_pos Nat.one_pos (Nat.two_pow_pos _))]
  · exact hround
  · rw [Nat.one_mul, Nat.mul_assoc, Nat.mul_assoc, ← Nat.pow_add, ← hscale,
      two_pow_mul_oneUnits]

end

end Metaheuristics.Arithmetic
