import Metaheuristics.Proofs.Arithmetic.Overflow

/-!
# Sums and differences

A sum of finite numbers stands for the sum of their steps, rounded (`standsFor_add`), and a
difference is the sum with a negation (`sub_eq_add_neg`).  So adding what is not negative does not
lead below (`le_add`), also where the sum overflows, and the distances from a common point are in
the order of the numbers (`sub_le_sub_right`).
-/

namespace Metaheuristics.Arithmetic

open Float.Model Float.Model.UnpackedFloat

/-! ## Rounding with a sign -/

/-- **A multiple of `2⁻²¹⁴⁸` of either sign, rounded to 53 bits**, in steps. -/
def roundSteps (p : Int) : Int := p.sign * roundUnits p.natAbs

section
variable {p q : Int}

theorem roundSteps_zero : roundSteps 0 = 0 := by
  unfold roundSteps
  rw [Int.sign_zero, Int.zero_mul]

theorem roundSteps_natCast (n : Nat) : roundSteps n = roundUnits n := by
  rcases Nat.eq_zero_or_pos n with rfl | hpos
  · rw [Int.natCast_zero, roundSteps_zero, roundUnits_zero]
    rfl
  · unfold roundSteps
    rw [Int.sign_eq_one_of_pos (Int.natCast_pos.mpr hpos), Int.one_mul, Int.natAbs_natCast]

theorem roundSteps_neg (p : Int) : roundSteps (-p) = -roundSteps p := by
  unfold roundSteps
  rw [Int.sign_neg, Int.natAbs_neg, Int.neg_mul]

theorem roundSteps_apply (s : Sign) (n : Nat) : roundSteps (s.apply n) = s.apply (roundUnits n) := by
  cases s
  · show roundSteps (-(n : Int)) = -(roundUnits n : Int)
    rw [roundSteps_neg, roundSteps_natCast]
  · exact roundSteps_natCast n

theorem roundSteps_nonneg (h : 0 ≤ p) : 0 ≤ roundSteps p := by
  obtain ⟨n, rfl⟩ := Int.eq_ofNat_of_zero_le h
  rw [roundSteps_natCast]
  exact Int.natCast_nonneg _

theorem roundSteps_nonpos (h : p ≤ 0) : roundSteps p ≤ 0 := by
  have hneg := roundSteps_nonneg (p := -p) (by omega)
  rw [roundSteps_neg] at hneg
  omega

theorem roundSteps_mono (h : p ≤ q) : roundSteps p ≤ roundSteps q := by
  rcases Int.le_total 0 p with hp | hp
  · obtain ⟨n, rfl⟩ := Int.eq_ofNat_of_zero_le hp
    obtain ⟨k, rfl⟩ := Int.eq_ofNat_of_zero_le (hp.trans h)
    rw [roundSteps_natCast, roundSteps_natCast]
    exact Int.ofNat_le.mpr (roundUnits_mono (Int.ofNat_le.mp h))
  rcases Int.le_total 0 q with hq | hq
  · exact (roundSteps_nonpos hp).trans (roundSteps_nonneg hq)
  · obtain ⟨n, hn⟩ := Int.eq_ofNat_of_zero_le (Int.neg_nonneg_of_nonpos hp)
    obtain ⟨k, hk⟩ := Int.eq_ofNat_of_zero_le (Int.neg_nonneg_of_nonpos hq)
    have hround : roundUnits k ≤ roundUnits n := roundUnits_mono (by omega)
    rw [← Int.neg_neg p, ← Int.neg_neg q, hn, hk, roundSteps_neg, roundSteps_neg,
      roundSteps_natCast, roundSteps_natCast]
    omega

end

variable {x y z : Float} {a b : Int}

theorem roundSteps_exact (h : steps x = some a) : roundSteps (a * oneUnits) = a := by
  unfold steps at h
  rcases hx : x.toModel.unpack with _ | _ | s | ⟨s, m, e, hm⟩ <;> rw [hx] at h <;> cases h
  · rw [Int.zero_mul, roundSteps_zero]
  · have hc := (canonical_of_model hx).1
    rw [← apply_mul, ← Int.natCast_mul, roundSteps_apply, units, roundUnits_exact hc.lt]

/-! ## Rounding of mantissas with a sign -/

theorem target_shiftLeft {m : Nat} {e : Int} (hm : 0 < m) (k : Nat) :
    target (m * 2 ^ k) (e - k) = target m e := by
  have hlog : (m * 2 ^ k).log2 = m.log2 + k := by
    refine (Nat.log2_eq_iff (Nat.ne_of_gt (Nat.mul_pos hm (Nat.two_pow_pos k)))).mpr ⟨?_, ?_⟩
    · rw [Nat.pow_add]
      exact Nat.mul_le_mul_right _ (Nat.log2_self_le (Nat.ne_of_gt hm))
    · rw [Nat.add_right_comm, Nat.pow_add]
      exact Nat.mul_lt_mul_of_pos_right Nat.lt_log2_self (Nat.two_pow_pos k)
  unfold target
  rw [hlog]
  omega

/-- A mantissa whose exponent is above the one it is shifted to is shifted to the left first. -/
theorem inUnits_round {s : Sign} {m : Nat} {e : Int} (hm : 0 < m) (he : -2148 ≤ e) :
    InUnits s (roundUnits (m * 2 ^ (e + 2148).toNat))
      (UnpackedFloat.round Format.binary64 s m e) := by
  have hleast : -1074 ≤ target m e := le_max_right _ _
  unfold UnpackedFloat.round
  rw [targetExponent_eq]
  unfold decreaseExponent
  dsimp only
  rw [Nat.shiftLeft_eq]
  have hshift : e - ((e - target m e).toNat : Int) ≤ target m e := by omega
  have hbound : -2148 ≤ e - ((e - target m e).toNat : Int) := by omega
  generalize (e - target m e).toNat = k at hshift hbound ⊢
  have hsum : k + (e - k + 2148).toNat = (e + 2148).toNat := by omega
  rw [← target_shiftLeft hm k] at hshift
  have hround := inUnits_roundWithAccuracy (s := s) hbound hshift
  rwa [Nat.mul_assoc, ← Nat.pow_add, hsum] at hround

/-- **What a mantissa of either sign is packed as** stands for its steps, rounded. -/
theorem standsFor_normalize {m e : Int} (he : -2148 ≤ e) :
    StandsFor
      (Float.ofModel (Float.Model.pack (UnpackedFloat.normalize Format.binary64 m e .positive)))
      (roundSteps (m * (2 ^ (e + 2148).toNat : Nat))) := by
  unfold UnpackedFloat.normalize
  rcases Int.lt_trichotomy m 0 with hm | rfl | hm
  · obtain ⟨n, hn⟩ := Int.eq_ofNat_of_zero_le (show 0 ≤ -m by omega)
    obtain rfl : m = -(n : Int) := by omega
    rw [Int.compare_eq_lt.mpr hm, Int.neg_neg, Int.neg_mul, ← Int.natCast_mul]
    have hround := (inUnits_round (s := .negative) (by omega : 0 < n) he).standsFor
    rwa [← roundSteps_apply] at hround
  · rw [Int.zero_mul, roundSteps_zero]
    exact standsFor_zero .positive
  · obtain ⟨n, rfl⟩ := Int.eq_ofNat_of_zero_le (show 0 ≤ m by omega)
    rw [Int.compare_eq_gt.mpr hm, ← Int.natCast_mul]
    have hround := (inUnits_round (s := .positive) (by omega : 0 < n) he).standsFor
    rwa [← roundSteps_apply] at hround

/-! ## Sums -/

theorem unpack_of_steps {u : UnpackedFloat} (h : x.toModel.unpack = u) :
    Float.ofModel (Float.Model.pack u) = x := by
  rw [← h, pack_unpack_model]

/-- **A sum stands for the sum of the steps**, rounded. -/
theorem standsFor_add (hx : steps x = some a) (hy : steps y = some b) :
    StandsFor (x + y) (roundSteps ((a + b) * oneUnits)) := by
  have hxa := hx
  have hyb := hy
  show StandsFor (Float.ofModel (Float.Model.pack (UnpackedFloat.add Format.binary64
    x.toModel.unpack y.toModel.unpack))) _
  unfold steps at hx hy
  rcases hu : x.toModel.unpack with _ | _ | s | ⟨s, m, e, hm⟩ <;> rw [hu] at hx <;> cases hx <;>
    rcases hv : y.toModel.unpack with _ | _ | s' | ⟨s', m', e', hm'⟩ <;> rw [hv] at hy <;> cases hy
  · rw [Int.add_zero, Int.zero_mul, roundSteps_zero]
    cases s <;> cases s' <;> exact standsFor_zero _
  · rw [Int.zero_add, roundSteps_exact hyb]
    exact Or.inl (by rw [← hyb, ← unpack_of_steps hv]; rfl)
  · rw [Int.add_zero, roundSteps_exact hxa]
    exact Or.inl (by rw [← hxa, ← unpack_of_steps hu]; rfl)
  · have hleast := (canonical_of_model hu).1.least
    have hleast' := (canonical_of_model hv).1.least
    have hmin : -1074 ≤ min e e' := le_min hleast hleast'
    have hscale : (min e e' + 2148).toNat = (min e e' + 1074).toNat + 1074 := by omega
    have hsum := standsFor_normalize (m := s.apply (decreaseExponent m e (min e e')).1
      + s'.apply (decreaseExponent m' e' (min e e')).1) (e := min e e') (by omega)
    have haligned : (s.apply (units m e) + s'.apply (units m' e')) * oneUnits
        = (s.apply (decreaseExponent m e (min e e')).1
          + s'.apply (decreaseExponent m' e' (min e e')).1)
          * (2 ^ (min e e' + 2148).toNat : Nat) := by
      rw [← decreaseExponent_units hmin (min_le_left e e'),
        ← decreaseExponent_units (m := m') hmin (min_le_right e e'), hscale,
        ← two_pow_mul_oneUnits]
      simp only [units, Nat.cast_mul, apply_mul]
      rw [← Int.add_mul, Int.mul_assoc]
    rw [haligned]
    exact hsum

theorem add_swap (x y : Float) : x + y = y + x := by
  show Float.ofModel (Float.Model.pack (UnpackedFloat.add Format.binary64 x.toModel.unpack
    y.toModel.unpack)) = Float.ofModel (Float.Model.pack (UnpackedFloat.add Format.binary64
    y.toModel.unpack x.toModel.unpack))
  rcases x.toModel.unpack with (_ | _) | _ | (_ | _) | ⟨s, m, e, hm⟩ <;>
    rcases y.toModel.unpack with (_ | _) | _ | (_ | _) | ⟨s', m', e', hm'⟩
  case finite.finite =>
    simp only [UnpackedFloat.add, Int.add_comm (s'.apply _), min_comm e']
  all_goals rfl

theorem infinity_add (h : -infinity < y) : infinity + y = infinity := by
  obtain ⟨hnumber, hne⟩ := neg_infinity_lt_iff.mp h
  have hy : y.toModel.unpack.isNaN = false := hnumber
  rw [neg_infinity_eq, ne_eq, eq_infinite_iff] at hne
  show Float.ofModel (Float.Model.pack (UnpackedFloat.add Format.binary64
    (infinite .positive).toModel.unpack y.toModel.unpack)) = infinite .positive
  rw [unpack_infinite]
  rcases hu : y.toModel.unpack with (_ | _) | _ | _ | _ <;> rw [hu] at hy hne
  · exact absurd rfl hne
  · rfl
  · cases hy
  · rfl
  · rfl

theorem le_add (hx : -infinity < x) (hy : 0.0 ≤ y) : x ≤ x + y := by
  have hyinf := neg_infinity_lt_of_nonneg hy
  rcases eq_infinity_or_steps hx with rfl | ⟨a, ha⟩
  · rw [infinity_add hyinf]
    exact le_infinity rfl
  rcases eq_infinity_or_steps hyinf with rfl | ⟨b, hb⟩
  · rw [add_swap, infinity_add hx]
    exact le_infinity (isNaN_of_steps ha)
  · have hnonneg := (le_iff_steps hasUnits_zero.steps hb).mp hy
    refine StandsFor.le (Or.inl ha) (standsFor_add ha hb) ?_
    conv_lhs => rw [← roundSteps_exact ha]
    refine roundSteps_mono (Int.mul_le_mul_of_nonneg_right ?_ (Int.natCast_nonneg _))
    exact Int.le_add_of_nonneg_right hnonneg

theorem add_nonneg (hx : 0.0 ≤ x) (hy : 0.0 ≤ y) : 0.0 ≤ x + y :=
  le_trans hx (le_add (neg_infinity_lt_of_nonneg hx) hy)

theorem add_zero_le (hx : -infinity < x) : x + 0.0 ≤ x := by
  rcases eq_infinity_or_steps hx with rfl | ⟨a, ha⟩
  · exact le_infinity rfl
  · have hsum := standsFor_add ha hasUnits_zero.steps
    rw [Int.natCast_zero, Int.add_zero, roundSteps_exact ha] at hsum
    exact hsum.le (Or.inl ha) (Int.le_refl a)

/-! ## Sums of lists -/

/-- A running total of numbers that are not negative is not below its start, nor below any of
them. -/
theorem le_foldl_add {xs : List Float} {total : Float} (htotal : 0.0 ≤ total)
    (hxs : ∀ x ∈ xs, 0.0 ≤ x) :
    total ≤ xs.foldl (· + ·) total ∧ ∀ x ∈ xs, x ≤ xs.foldl (· + ·) total := by
  refine foldl_bound (r := fun x y => x ≤ y) (P := fun x => 0.0 ≤ x)
    (fun x hx => le_self (isNaN_of_le hx).2) (fun x y z => le_trans)
    (fun x y hx hy => ⟨add_nonneg hx hy, le_add (neg_infinity_lt_of_nonneg hx) hy, ?_⟩) htotal hxs
  rw [add_swap]
  exact le_add (neg_infinity_lt_of_nonneg hy) hx

theorem neg_zero_nonneg : (0.0 : Float) ≤ -0.0 := by decide +kernel

theorem sum_nonneg {xs : List Float} (hxs : ∀ x ∈ xs, 0.0 ≤ x) : 0.0 ≤ sum xs :=
  le_trans neg_zero_nonneg (le_foldl_add neg_zero_nonneg hxs).1

theorem le_sum {xs : List Float} (hxs : ∀ x ∈ xs, 0.0 ≤ x) {x : Float} (hx : x ∈ xs) : x ≤ sum xs :=
  (le_foldl_add neg_zero_nonneg hxs).2 x hx

theorem not_zero_lt_sum {xs : List Float} (hxs : ∀ x ∈ xs, x = 0.0) : ¬ 0.0 < sum xs := by
  have hfold {total : Float} (hlow : 0.0 ≤ total) (hhigh : total ≤ 0.0) :
      xs.foldl (· + ·) total ≤ 0.0 := by
    induction xs generalizing total with
    | nil => exact hhigh
    | cons x xs ih =>
      obtain rfl := hxs x List.mem_cons_self
      have hsum := add_zero_le (neg_infinity_lt_of_nonneg hlow)
      exact ih (fun y hy => hxs y (List.mem_cons_of_mem _ hy))
        (add_nonneg hlow (le_self rfl)) (le_trans hsum hhigh)
  exact not_lt_of_le (hfold neg_zero_nonneg (by decide +kernel))

/-! ## Differences -/

theorem sub_eq_add_neg (x y : Float) : x - y = x + -y := by
  show Float.ofModel (Float.Model.pack (UnpackedFloat.sub Format.binary64 x.toModel.unpack
    y.toModel.unpack)) = Float.ofModel (Float.Model.pack (UnpackedFloat.add Format.binary64
    x.toModel.unpack (-y).toModel.unpack))
  rw [unpack_neg]
  rcases x.toModel.unpack with (_ | _) | _ | (_ | _) | ⟨s, m, e, hm⟩ <;>
    rcases y.toModel.unpack with (_ | _) | _ | (_ | _) | ⟨s', m', e', hm'⟩
  case finite.finite =>
    simp only [UnpackedFloat.sub, UnpackedFloat.add, UnpackedFloat.neg, apply_neg, Int.sub_eq_add_neg]
  all_goals rfl

theorem steps_neg (h : steps x = some a) : steps (-x) = some (-a) := by
  unfold steps at h ⊢
  rw [unpack_neg]
  rcases hx : x.toModel.unpack with _ | _ | s | ⟨s, m, e, hm⟩ <;> rw [hx] at h <;> cases h
  · rfl
  · exact congrArg some (apply_neg s _)

theorem standsFor_sub (hx : steps x = some a) (hy : steps y = some b) :
    StandsFor (x - y) (roundSteps ((a - b) * oneUnits)) := by
  rw [sub_eq_add_neg, Int.sub_eq_add_neg]
  exact standsFor_add hx (steps_neg hy)

theorem sub_nonneg (hx : steps x = some a) (hy : steps y = some b) (h : y ≤ x) : 0.0 ≤ x - y := by
  have hba := (le_iff_steps hy hx).mp h
  exact (standsFor_sub hx hy).nonneg
    (roundSteps_nonneg (Int.mul_nonneg (by omega) (Int.natCast_nonneg _)))

/-- A difference across zero is not negative, also where it is infinite. -/
theorem sub_nonneg_of_signs (hx : 0.0 ≤ x) (hy : y ≤ 0.0) : 0.0 ≤ x - y := by
  rw [sub_eq_add_neg]
  exact add_nonneg hx (le_trans neg_zero_nonneg (neg_le_neg hy))

/-- A difference that a finite number is not below does not overflow. -/
theorem isFinite_sub (hx : steps x = some a) (hy : steps y = some b) (h : b ≤ a) {c : Int}
    (hz : steps z = some c) (hle : a - b ≤ c) : (x - y).isFinite = true := by
  have hsub := standsFor_sub hx hy
  have hlow : 0 ≤ roundSteps ((a - b) * oneUnits) :=
    roundSteps_nonneg (Int.mul_nonneg (by omega) (Int.natCast_nonneg _))
  have hhigh : roundSteps ((a - b) * oneUnits) ≤ c := by
    conv_rhs => rw [← roundSteps_exact hz]
    exact roundSteps_mono (Int.mul_le_mul_of_nonneg_right hle (Int.natCast_nonneg _))
  have hmost := (steps_mem hz).2
  exact isFinite_iff_steps.mpr ⟨_, hsub.steps_eq (by omega) (by omega)⟩

theorem sub_le_sub_right (hx : steps x = some a) (hy : steps y = some b) {c : Int}
    (hz : steps z = some c) (h : x ≤ y) : x - z ≤ y - z := by
  refine (standsFor_sub hx hz).le (standsFor_sub hy hz) (roundSteps_mono ?_)
  have hab := (le_iff_steps hx hy).mp h
  exact Int.mul_le_mul_of_nonneg_right (by omega) (Int.natCast_nonneg _)

end Metaheuristics.Arithmetic
