import Metaheuristics.Proofs.Arithmetic.Rounding
import Metaheuristics.Proofs.Arithmetic.Signs

/-!
# Products of numbers that are not negative

A finite number with the positive sign is its number of units (`HasUnits.eq`), and the product with
a factor of at most one is the product of the units, rounded (`HasUnits.mul`).  So such a product is
not above the other factor (`roundUnits_mul_le`).

With a factor below one it is smaller if the other factor is above the least normal number
(`HasUnits.mul_lt`).  Below that number rounding can undo the multiplication, but not with a factor
of at most one half; with any larger one it does for the least positive number
(`leastPositive_mul`).
-/

namespace Metaheuristics.Arithmetic

open Float.Model Float.Model.UnpackedFloat

/-! ## Numbers and their units -/

section
variable {m m' : Nat} {e e' : Int}

theorem Canonical.units_inj (hc : Canonical m e) (hc' : Canonical m' e')
    (h : units m e = units m' e') : m = m' ∧ e = e' := by
  rcases Int.lt_trichotomy e e' with hlt | rfl | hlt
  · exact absurd h (Nat.ne_of_lt (hc.units_lt hc' hlt))
  · exact ⟨Nat.mul_right_cancel (Nat.two_pow_pos _) h, rfl⟩
  · exact absurd h (Nat.ne_of_gt (hc'.units_lt hc hlt))

theorem InUnits.unique {s : Sign} {v : Nat} {u u' : UnpackedFloat} (h : InUnits s v u)
    (h' : InUnits s v u') : u = u' := by
  rcases u with _ | _ | s₁ | ⟨s₁, m, e, hm⟩ <;> rcases u' with _ | _ | s₂ | ⟨s₂, m', e', hm'⟩ <;>
    try exact h.elim
  all_goals try exact h'.elim
  · rw [h.1, h'.1]
  · obtain ⟨rfl, hc, hv⟩ := h'
    exact absurd (h.2.symm.trans hv) (Nat.ne_of_lt hc.units_pos)
  · obtain ⟨rfl, hc, hv⟩ := h
    exact absurd (h'.2.symm.trans hv) (Nat.ne_of_lt hc.units_pos)
  · obtain ⟨rfl, hc, rfl⟩ := h
    obtain ⟨rfl, hc', hv⟩ := h'
    obtain ⟨rfl, rfl⟩ := hc.units_inj hc' hv
    rfl

/-- A number that is not too large is packed as it is. -/
theorem InUnits.unpack_pack {s : Sign} {v : Nat} {u : UnpackedFloat} (h : InUnits s v u)
    (hc : Canonical m e) (he : e ≤ 971) (hv : v ≤ units m e) :
    UnpackedFloat.unpack Format.binary64 (UnpackedFloat.pack Format.binary64 u) = u := by
  rcases u with _ | _ | s' | ⟨s', m', e', hm'⟩
  · exact h.elim
  · exact h.elim
  · exact unpack_packedZero
  · obtain ⟨rfl, hc', rfl⟩ := h
    refine hc'.unpack_pack ?_ hm'
    by_contra hlarge
    exact absurd (hc.units_lt hc' (by omega)) (Nat.not_lt.mpr hv)

end

/-- **A finite number with the positive sign**, of so many units. -/
def HasUnits (x : Float) (v : Nat) : Prop := InUnits .positive v x.toModel.unpack

variable {x y : Float} {a b : Nat}

theorem HasUnits.steps (h : HasUnits x a) : steps x = some (a : Int) := by
  unfold HasUnits at h
  unfold Arithmetic.steps
  rcases hx : x.toModel.unpack with _ | _ | s | ⟨s, m, e, hm⟩ <;> rw [hx] at h
  · exact h.elim
  · exact h.elim
  · rw [h.2]
    rfl
  · obtain ⟨rfl, -, rfl⟩ := h
    rfl

/-- **A number is its units.** -/
theorem HasUnits.eq (hx : HasUnits x a) (hy : HasUnits y a) : x = y := by
  have hpack (z : Float) : z = Float.ofModel (Float.Model.pack z.toModel.unpack) := by
    rw [pack_unpack_model]
  rw [hpack x, hpack y, InUnits.unique hx hy]

theorem hasUnits_zero : HasUnits 0.0 0 := by
  unfold HasUnits
  rw [unpack_zero]
  exact ⟨rfl, rfl⟩

theorem exists_hasUnits (hpos : 0.0 < x) (hfinite : x.isFinite = true) :
    ∃ v, 0 < v ∧ HasUnits x v := by
  obtain ⟨n, hn⟩ := isFinite_iff_steps.mp hfinite
  have hnpos : 0 < n := (lt_iff_steps hasUnits_zero.steps hn).mp hpos
  unfold steps at hn
  unfold HasUnits
  rcases hx : x.toModel.unpack with _ | _ | s | ⟨_ | _, m, e, hm⟩ <;> rw [hx] at hn
  · cases hn
  · cases hn
  · have hzero : 0 = n := Option.some.inj hn
    omega
  · have hneg : -(units m e : Int) = n := Option.some.inj hn
    omega
  · have hc := (canonical_of_model hx).1
    exact ⟨units m e, hc.units_pos, rfl, hc, rfl⟩

theorem exists_hasUnits_of_le (hpos : 0.0 < x) (hle : x ≤ y) (hy : HasUnits y b) :
    ∃ v, 0 < v ∧ HasUnits x v := by
  refine exists_hasUnits hpos ?_
  have hzero : (0.0 : Float).toModel.unpack.compare x.toModel.unpack = some .lt :=
    beq_iff_eq.mp (of_decide_eq_true hpos)
  have hcompare : (x.toModel.unpack.compare y.toModel.unpack).any (·.isLE) = true :=
    of_decide_eq_true hle
  unfold HasUnits at hy
  rw [unpack_zero] at hzero
  show x.toModel.unpack.isFinite = true
  generalize x.toModel.unpack = u at hzero hcompare ⊢
  generalize y.toModel.unpack = u' at hy hcompare
  rcases u with (_ | _) | _ | _ | _
  · cases hzero
  · rcases u' with _ | _ | _ | ⟨_ | _, _, _, _⟩
    · exact hy.elim
    · exact hy.elim
    all_goals cases hcompare
  · cases hzero
  · rfl
  · rfl

theorem HasUnits.lt_iff (hx : HasUnits x a) (hy : HasUnits y b) : x < y ↔ a < b := by
  rw [lt_iff_steps hx.steps hy.steps]
  exact Int.ofNat_lt

theorem HasUnits.le_iff (hx : HasUnits x a) (hy : HasUnits y b) : x ≤ y ↔ a ≤ b := by
  rw [le_iff_steps hx.steps hy.steps]
  exact Int.ofNat_le

theorem HasUnits.eq_zero (hx : HasUnits x a) (h : (x == 0.0) = true) : a = 0 := by
  have hcompare : (x.toModel.unpack.compare (0.0 : Float).toModel.unpack == some .eq) = true := h
  rw [compare_steps hx.steps hasUnits_zero.steps, beq_iff_eq, Option.some.injEq,
    Int.compare_eq_eq] at hcompare
  exact Int.ofNat_inj.mp hcompare

theorem HasUnits.canonical (h : HasUnits x a) :
    a = 0 ∨ ∃ m e, Canonical m e ∧ e ≤ 971 ∧ a = units m e := by
  unfold HasUnits at h
  rcases hx : x.toModel.unpack with _ | _ | s | ⟨s, m, e, hm⟩ <;> rw [hx] at h
  · exact h.elim
  · exact h.elim
  · exact Or.inl h.2
  · obtain ⟨hc, he⟩ := canonical_of_model hx
    exact Or.inr ⟨m, e, hc, he, h.2.2⟩

/-! ## Products -/

theorem roundUnits_zero : roundUnits 0 = 0 := by
  have hle := roundUnits_le (p := 0) (c := 0) (j := 0) (by decide) (Nat.zero_le _)
  rw [Nat.zero_mul] at hle
  exact Nat.le_zero.mp hle

theorem roundUnits_mul_le (ha : HasUnits x a) (hb : b ≤ oneUnits) : roundUnits (a * b) ≤ a := by
  rcases ha.canonical with rfl | ⟨m, e, hc, -, rfl⟩
  · rw [Nat.zero_mul, roundUnits_zero]
  · exact roundUnits_le hc.lt (Nat.mul_le_mul_left _ hb)

/-- The mantissas of a product have exponents that are not above the one they are shifted to. -/
theorem Canonical.le_target {m m' : Nat} {e e' : Int} (hc : Canonical m e) (hc' : Canonical m' e') :
    e + e' ≤ target (m * m') (e + e') := by
  have hleast := hc.least
  have hleast' := hc'.least
  have hlog (h : 2 ^ 52 ≤ m * m') : 52 ≤ (m * m').log2 :=
    (Nat.le_log2 (Nat.ne_of_gt (Nat.mul_pos hc.pos hc'.pos))).mpr h
  unfold target
  rcases hc.normal with hmin | hm
  · rcases hc'.normal with hmin' | hm'
    · omega
    · have := hlog (hm'.trans (Nat.le_mul_of_pos_left m' hc.pos))
      omega
  · have := hlog (hm.trans (Nat.le_mul_of_pos_right m hc'.pos))
    omega

theorem inUnits_mul {s s' : Sign} {u u' : UnpackedFloat} (hu : InUnits s a u)
    (hu' : InUnits s' b u') :
    InUnits (s * s') (roundUnits (a * b)) (UnpackedFloat.mul Format.binary64 u u') := by
  rcases u with _ | _ | s | ⟨s, m, e, hm⟩
  · exact hu.elim
  · exact hu.elim
  · rcases u' with _ | _ | s' | ⟨s', m', e', hm'⟩
    · exact hu'.elim
    · exact hu'.elim
    all_goals
      rw [← hu.1, ← hu'.1, hu.2, Nat.zero_mul, roundUnits_zero]
      exact ⟨rfl, rfl⟩
  · rcases u' with _ | _ | s' | ⟨s', m', e', hm'⟩
    · exact hu'.elim
    · exact hu'.elim
    · rw [← hu.1, ← hu'.1, hu'.2, Nat.mul_zero, roundUnits_zero]
      exact ⟨rfl, rfl⟩
    · obtain ⟨rfl, hc, rfl⟩ := hu
      obtain ⟨rfl, hc', rfl⟩ := hu'
      have hleast := hc.least
      have hleast' := hc'.least
      have hsum : (e + e' + 2148).toNat = (e + 1074).toNat + (e' + 1074).toNat := by omega
      have hunits : units m e * units m' e' = m * m' * 2 ^ (e + e' + 2148).toNat := by
        unfold units
        rw [hsum, Nat.pow_add, Nat.mul_mul_mul_comm]
      rw [hunits]
      exact inUnits_roundWithAccuracy (by omega) (hc.le_target hc')

theorem HasUnits.mul (hx : HasUnits x a) (hy : HasUnits y b) (hb : b ≤ oneUnits) :
    HasUnits (x * y) (roundUnits (a * b)) := by
  have hmul := inUnits_mul hx hy
  have hle : roundUnits (a * b) ≤ a := roundUnits_mul_le hx hb
  obtain ⟨m, e, hc, he, ha⟩ : ∃ m e, Canonical m e ∧ e ≤ 971 ∧ a ≤ units m e := by
    rcases hx.canonical with rfl | ⟨m, e, hc, he, rfl⟩
    · exact ⟨2 ^ 52, 0, ⟨by decide, by decide, by decide, Or.inr (le_refl _)⟩, by decide,
        Nat.zero_le _⟩
    · exact ⟨m, e, hc, he, le_refl _⟩
  have hunpack := hmul.unpack_pack hc he (hle.trans ha)
  show InUnits .positive _ (Float.Model.pack (UnpackedFloat.mul Format.binary64 x.toModel.unpack
    y.toModel.unpack)).unpack
  have hmodel (u : UnpackedFloat) : (Float.Model.pack u).unpack
      = UnpackedFloat.unpack Format.binary64 (UnpackedFloat.pack Format.binary64 u) := rfl
  rw [hmodel, hunpack]
  exact hmul

/-! ## Factors below one -/

theorem two_pow_eq_oneUnits {k : Nat} (h : k = 52 + 1022) : 2 ^ k = oneUnits := by
  unfold oneUnits
  exact congrArg (2 ^ ·) h

theorem two_pow_le_oneUnits {k : Nat} (h : k ≤ 52 + 1022) : 2 ^ k ≤ oneUnits := by
  obtain ⟨d, hd⟩ := Nat.exists_eq_add_of_le h
  rw [← two_pow_eq_oneUnits hd.symm]
  exact Nat.pow_le_pow_right (by decide) (Nat.le_add_right k d)

theorem oneUnits_le_two_pow {k : Nat} (h : 52 + 1022 ≤ k) : oneUnits ≤ 2 ^ k := by
  obtain ⟨d, hd⟩ := Nat.exists_eq_add_of_le' h
  rw [hd, ← two_pow_mul_oneUnits]
  exact Nat.le_mul_of_pos_left _ (Nat.two_pow_pos d)

theorem HasUnits.gap (hx : HasUnits x a) (ha : a < oneUnits) :
    a * 2 ^ 53 ≤ (2 ^ 53 - 1) * oneUnits := by
  rcases hx.canonical with rfl | ⟨m, e, hc, -, rfl⟩
  · rw [Nat.zero_mul]
    exact Nat.zero_le _
  · have hlt := hc.lt
    by_cases hlarge : 1022 ≤ (e + 1074).toNat
    · -- such a number is normal, hence at least one
      have hnormal : 2 ^ 52 ≤ m := by
        rcases hc.normal with hmin | hm
        · omega
        · exact hm
      have hone : oneUnits ≤ 2 ^ (52 + (e + 1074).toNat) := oneUnits_le_two_pow (by omega)
      rw [Nat.pow_add] at hone
      exact absurd (hone.trans (Nat.mul_le_mul_right _ hnormal)) (Nat.not_le.mpr ha)
    · have hone : 2 ^ ((e + 1074).toNat + 53) ≤ oneUnits := two_pow_le_oneUnits (by omega)
      unfold units
      rw [Nat.mul_assoc, ← Nat.pow_add]
      exact Nat.mul_le_mul (Nat.le_sub_one_of_lt hlt) hone

/-- Above the least normal number the grain of a product with a factor below one is finer than that
of the other factor. -/
theorem two_pow_grain_lt {p : Nat} (ha : 2 ^ 52 < a) (hp : p < a * oneUnits) :
    2 ^ 52 * 2 ^ grain p < a := by
  rcases Nat.eq_zero_or_pos (grain p) with hzero | hpos
  · rwa [hzero, Nat.pow_zero, Nat.mul_one]
  · rw [← Nat.pow_add]
    exact Nat.lt_of_mul_lt_mul_right ((le_of_grain hpos).trans_lt hp)

theorem roundUnits_mul_lt (hx : HasUnits x a) (hy : HasUnits y b) (ha : 2 ^ 52 < a)
    (hb : b < oneUnits) : roundUnits (a * b) < a := by
  have hproduct : a * b * 2 ^ 53 ≤ a * oneUnits * (2 ^ 53 - 1) := by
    rw [Nat.mul_assoc, Nat.mul_assoc, Nat.mul_comm oneUnits]
    exact Nat.mul_le_mul_left a (hy.gap hb)
  have hlt : a * b < a * oneUnits := Nat.mul_lt_mul_of_pos_left hb (by omega)
  have hgrain : 2 ^ 52 * (2 ^ grain (a * b) * oneUnits) < a * oneUnits := by
    rw [← Nat.mul_assoc]
    exact Nat.mul_lt_mul_of_pos_right (two_pow_grain_lt ha hlt) oneUnits_pos
  rcases hx.canonical with rfl | ⟨m, e, hc, -, rfl⟩
  · omega
  · exact roundUnits_lt hc.lt (by rw [← units]; omega)

/-- Half of the least positive number or less is rounded to zero, more to the least positive
number. -/
theorem roundUnits_of_lt (hb : b < oneUnits) :
    roundUnits b = if 2 * b ≤ oneUnits then 0 else 1 := by
  have hgrain : grain b = 0 := by
    refine Nat.le_zero.mp (grain_le (hb.trans_le ?_))
    exact Nat.le_mul_of_pos_left oneUnits (Nat.two_pow_pos _)
  unfold roundUnits
  rw [hgrain, Nat.pow_zero, Nat.one_mul, Nat.mul_one]
  split_ifs with hhalf
  · exact divEven_eq_zero oneUnits_pos hhalf
  · unfold divEven
    rw [Nat.mod_eq_of_lt hb, Nat.div_eq_of_lt hb, if_neg (by omega), if_pos (by omega)]

theorem roundUnits_mul_lt_of_half (hx : HasUnits x a) (ha : 0 < a) (hb : 2 * b ≤ oneUnits) :
    roundUnits (a * b) < a := by
  have hlt : b < oneUnits := by
    have := oneUnits_pos
    omega
  rcases Nat.lt_or_ge 1 a with hlarge | hsmall
  · have hproduct : 2 * (a * b) ≤ a * oneUnits := by
      rw [Nat.mul_left_comm]
      exact Nat.mul_le_mul_left a hb
    have hgrain : 2 ^ grain (a * b) * oneUnits < a * oneUnits := by
      refine Nat.mul_lt_mul_of_pos_right ?_ oneUnits_pos
      rcases Nat.eq_zero_or_pos (grain (a * b)) with hzero | hpos
      · rwa [hzero, Nat.pow_zero]
      · have hp : a * b < a * oneUnits := Nat.mul_lt_mul_of_pos_left hlt ha
        have hle := Nat.lt_of_mul_lt_mul_right ((le_of_grain hpos).trans_lt hp)
        rw [Nat.pow_add] at hle
        omega
    rcases hx.canonical with rfl | ⟨m, e, hc, -, rfl⟩
    · omega
    · exact roundUnits_lt hc.lt (by rw [← units]; omega)
  · obtain rfl : a = 1 := by omega
    rw [Nat.one_mul, roundUnits_of_lt hlt, if_pos hb]
    decide

/-! ## Constants -/

/-- The least positive number. -/
def leastPositive : Float := Float.ofBits 1

/-- The least number of full precision, `2⁻¹⁰²²`. -/
def leastNormal : Float := Float.ofBits 0x0010000000000000

theorem hasUnits_of_model {m : Nat} {e : Int} (h : 0 < m) (hc : Canonical m e) (he : e ≤ 971)
    (hx : x = Float.ofModel (Float.Model.pack (.finite .positive m e h))) :
    HasUnits x (units m e) := by
  have hunpack : x.toModel.unpack = .finite .positive m e h := by
    rw [hx]
    exact hc.unpack_pack he h
  unfold HasUnits
  rw [hunpack]
  exact ⟨rfl, hc, rfl⟩

theorem hasUnits_leastPositive : HasUnits leastPositive 1 :=
  hasUnits_of_model (m := 1) (e := -1074) (by decide)
    ⟨by decide, by decide, by decide, Or.inl rfl⟩ (by decide) rfl

theorem hasUnits_leastNormal : HasUnits leastNormal (2 ^ 52) :=
  hasUnits_of_model (m := 2 ^ 52) (e := -1074) (by decide)
    ⟨by decide, by decide, by decide, Or.inl rfl⟩ (by decide) (by decide +kernel)

theorem units_two_pow (e : Int) : units (2 ^ 52) e = 2 ^ (52 + (e + 1074).toNat) :=
  (Nat.pow_add 2 52 _).symm

theorem hasUnits_one : HasUnits 1.0 oneUnits := by
  have h := hasUnits_of_model (x := 1.0) (m := 2 ^ 52) (e := -52) (by decide)
    ⟨by decide, by decide, by decide, Or.inr (le_refl _)⟩ (by decide) rfl
  rwa [units_two_pow, two_pow_eq_oneUnits (by decide)] at h

theorem hasUnits_half : ∃ h, HasUnits 0.5 h ∧ 2 * h = oneUnits := by
  refine ⟨units (2 ^ 52) (-53), hasUnits_of_model (by decide)
    ⟨by decide, by decide, by decide, Or.inr (le_refl _)⟩ (by decide) rfl, ?_⟩
  rw [units_two_pow, Nat.mul_comm, ← Nat.pow_succ, two_pow_eq_oneUnits (by decide)]

/-- **A factor below one makes a number smaller**, if the number is above the least normal one or
the factor at most one half. -/
theorem HasUnits.mul_lt (hx : HasUnits x a) (hy : HasUnits y b) (hb : b < oneUnits)
    (h : leastNormal < x ∨ 0.0 < x ∧ y ≤ 0.5) : x * y < x := by
  refine ((hx.mul hy (Nat.le_of_lt hb)).lt_iff hx).mpr ?_
  rcases h with hlarge | ⟨hpos, hhalf⟩
  · exact roundUnits_mul_lt hx hy ((hasUnits_leastNormal.lt_iff hx).mp hlarge) hb
  · obtain ⟨half, hhalfUnits, htwice⟩ := hasUnits_half
    have hle := (hy.le_iff hhalfUnits).mp hhalf
    exact roundUnits_mul_lt_of_half hx ((hasUnits_zero.lt_iff hx).mp hpos) (by omega)

/-- **A factor between one half and one** leaves the least positive number as it is. -/
theorem leastPositive_mul (hy : HasUnits y b) (hb : b < oneUnits) (hhalf : ¬ y ≤ 0.5) :
    leastPositive * y = leastPositive := by
  obtain ⟨half, hhalfUnits, htwice⟩ := hasUnits_half
  rw [hy.le_iff hhalfUnits] at hhalf
  have hmul := hasUnits_leastPositive.mul hy (Nat.le_of_lt hb)
  rw [Nat.one_mul, roundUnits_of_lt hb, if_neg (by omega)] at hmul
  exact hmul.eq hasUnits_leastPositive

end Metaheuristics.Arithmetic
