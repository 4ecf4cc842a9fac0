import Metaheuristics.Proofs.Arithmetic.Infinity

/-!
# Overflow

A result that is too large to be a finite number is the infinity of its sign.  `StandsFor x a` says
that `x` is what a result of `a` steps becomes: the finite number with so many steps, or an infinity
where they are more than those of the largest number.  What is packed stands for its steps
(`InUnits.standsFor`), and results that stand for ordered steps are in order (`StandsFor.le`).  So an
operation is monotone where the steps of its exact result are, as rounding is monotone.
-/

namespace Metaheuristics.Arithmetic

open Float.Model Float.Model.UnpackedFloat

variable {x y : Float} {a b : Int}

/-! ## The ends of the line -/

theorem le_infinity (h : x.isNaN = false) : x ≤ infinity :=
  le_of_not_lt rfl h (not_infinity_lt x)

theorem neg_infinity_le (h : x.isNaN = false) : -infinity ≤ x := by
  have hneg := neg_le_neg (le_infinity ((isNaN_neg x).trans h))
  rwa [neg_neg_self] at hneg

theorem neg_infinity_lt_iff : -infinity < x ↔ x.isNaN = false ∧ x ≠ -infinity := by
  have hneg : -infinity < x ↔ -x < infinity := by
    rw [← neg_lt_neg_iff, neg_neg_self]
  have hne : -x = infinity ↔ x = -infinity :=
    ⟨fun h => by rw [← h, neg_neg_self], fun h => by rw [h, neg_neg_self]⟩
  rw [hneg, lt_infinity_iff, isNaN_neg, ne_eq, hne]

theorem eq_infinite_or_steps (h : x.isNaN = false) :
    x = infinity ∨ x = -infinity ∨ ∃ a, steps x = some a := by
  have hnumber : x.toModel.unpack.isNaN = false := h
  rw [neg_infinity_eq, infinity_eq, eq_infinite_iff, eq_infinite_iff]
  unfold steps
  rcases hx : x.toModel.unpack with (_ | _) | _ | _ | _ <;> rw [hx] at hnumber
  · exact Or.inr (Or.inl rfl)
  · exact Or.inl rfl
  · cases hnumber
  · exact Or.inr (Or.inr ⟨_, rfl⟩)
  · exact Or.inr (Or.inr ⟨_, rfl⟩)

theorem eq_infinity_or_steps (h : -infinity < x) : x = infinity ∨ ∃ a, steps x = some a := by
  obtain ⟨hnumber, hne⟩ := neg_infinity_lt_iff.mp h
  exact (eq_infinite_or_steps hnumber).imp_right fun hx => hx.resolve_left hne

theorem neg_infinity_lt_of_steps (h : steps x = some a) : -infinity < x := by
  refine neg_infinity_lt_iff.mpr ⟨isNaN_of_steps h, ?_⟩
  rintro rfl
  rw [neg_infinity_eq, steps, unpack_infinite] at h
  cases h

theorem neg_infinity_lt_of_nonneg (h : 0.0 ≤ x) : -infinity < x :=
  lt_of_lt_of_le (neg_infinity_lt_of_steps hasUnits_zero.steps) h

/-- What lies between finite numbers is finite. -/
theorem isFinite_of_mem (hx : x.isFinite = true) (hy : y.isFinite = true) {z : Float} (hxz : x ≤ z)
    (hzy : z ≤ y) : z.isFinite = true := by
  obtain ⟨a, hx⟩ := isFinite_iff_steps.mp hx
  have hbelow := lt_of_lt_of_le (neg_infinity_lt_of_steps hx) hxz
  rcases eq_infinity_or_steps hbelow with rfl | hz
  · have hlt : y < infinity := lt_infinity_iff.mpr ⟨(isNaN_of_le hzy).2, by rintro rfl; cases hy⟩
    exact absurd hlt (not_lt_of_le hzy)
  · exact isFinite_iff_steps.mpr hz

theorem exists_steps_of_nonneg (hx : 0.0 ≤ x) (hfinite : x.isFinite = true) :
    ∃ v : Nat, steps x = some (v : Int) := by
  obtain ⟨a, ha⟩ := isFinite_iff_steps.mp hfinite
  obtain ⟨v, rfl⟩ := Int.eq_ofNat_of_zero_le ((le_iff_steps hasUnits_zero.steps ha).mp hx)
  exact ⟨v, ha⟩

/-! ## The largest number -/

/-- The steps of the largest number. -/
@[irreducible]
def mostUnits : Nat := units (2 ^ 53 - 1) 971

section
variable {m : Nat} {e : Int}

theorem canonical_most : Canonical (2 ^ 53 - 1) 971 :=
  ⟨by decide, by decide, by decide, Or.inr (by decide)⟩

theorem Canonical.units_le_most (hc : Canonical m e) (he : e ≤ 971) : units m e ≤ mostUnits := by
  unfold mostUnits
  rcases Int.lt_or_eq_of_le he with hlt | rfl
  · exact (hc.units_lt canonical_most hlt).le
  · exact Nat.mul_le_mul_right _ (Nat.le_sub_one_of_lt hc.lt)

theorem Canonical.most_lt_units (hc : Canonical m e) (he : 971 < e) : mostUnits < units m e := by
  unfold mostUnits
  exact canonical_most.units_lt hc he

/-- A mantissa whose exponent does not fit is packed as an infinity. -/
theorem pack_of_large {s : Sign} {h : 0 < m} (he : 971 < e) :
    UnpackedFloat.pack Format.binary64 (.finite s m e h)
      = UnpackedFloat.pack Format.binary64 (.infinity s) := by
  have hbiased : 2 ^ 11 ≤ (e + (1023 : Nat) + (52 : Nat)).toNat + 1 := by omega
  unfold UnpackedFloat.pack
  exact if_pos hbiased

end

theorem steps_mem (h : steps x = some a) : -(mostUnits : Int) ≤ a ∧ a ≤ mostUnits := by
  unfold steps at h
  rcases hx : x.toModel.unpack with _ | _ | s | ⟨s, m, e, hm⟩ <;> rw [hx] at h <;> cases h
  · omega
  · obtain ⟨hc, he⟩ := canonical_of_model hx
    have hle := hc.units_le_most he
    cases s
    · show -(mostUnits : Int) ≤ -(units m e : Int) ∧ -(units m e : Int) ≤ mostUnits
      omega
    · show -(mostUnits : Int) ≤ (units m e : Int) ∧ (units m e : Int) ≤ mostUnits
      omega

/-! ## Results -/

/-- **What a result of `a` steps becomes.** -/
def StandsFor (x : Float) (a : Int) : Prop :=
  steps x = some a ∨ (mostUnits : Int) < a ∧ x = infinity ∨ a < -(mostUnits : Int) ∧ x = -infinity

namespace StandsFor

theorem isNaN (h : StandsFor x a) : x.isNaN = false := by
  rcases h with h | ⟨-, rfl⟩ | ⟨-, rfl⟩
  · exact isNaN_of_steps h
  · rfl
  · rfl

theorem le (hx : StandsFor x a) (hy : StandsFor y b) (h : a ≤ b) : x ≤ y := by
  have hxy := hx.isNaN
  rcases hy with hb | ⟨-, rfl⟩ | ⟨hb, rfl⟩
  · rcases hx with ha | ⟨ha, -⟩ | ⟨-, rfl⟩
    · exact (le_iff_steps ha hb).mpr h
    · have := (steps_mem hb).2
      omega
    · exact neg_infinity_le (isNaN_of_steps hb)
  · exact le_infinity hxy
  · rcases hx with ha | ⟨ha, -⟩ | ⟨-, rfl⟩
    · have := (steps_mem ha).1
      omega
    · omega
    · exact neg_infinity_le rfl

theorem steps_eq (hx : StandsFor x a) (hlow : -(mostUnits : Int) ≤ a) (hhigh : a ≤ mostUnits) :
    steps x = some a := by
  rcases hx with h | ⟨h, -⟩ | ⟨h, -⟩
  · exact h
  · omega
  · omega

theorem steps_of_steps (hx : StandsFor x a) (hy : steps y = some a) : steps x = some a :=
  hx.steps_eq (steps_mem hy).1 (steps_mem hy).2

theorem nonneg (hx : StandsFor x a) (h : 0 ≤ a) : 0.0 ≤ x :=
  le (Or.inl hasUnits_zero.steps) hx h

theorem nonpos (hx : StandsFor x a) (h : a ≤ 0) : x ≤ 0.0 :=
  le hx (Or.inl hasUnits_zero.steps) h

end StandsFor

theorem standsFor_zero (s : Sign) : StandsFor (Float.ofModel (Float.Model.pack (.zero s))) 0 := by
  have hunpack : (Float.ofModel (Float.Model.pack (.zero s))).toModel.unpack = .zero s :=
    unpack_packedZero
  refine Or.inl ?_
  rw [steps, hunpack]
  rfl

/-- **What is packed** stands for its steps. -/
theorem InUnits.standsFor {s : Sign} {v : Nat} {u : UnpackedFloat} (h : InUnits s v u) :
    StandsFor (Float.ofModel (Float.Model.pack u)) (s.apply v) := by
  rcases u with _ | _ | s' | ⟨s', m, e, hm⟩
  · exact h.elim
  · exact h.elim
  · obtain ⟨rfl, rfl⟩ := h
    cases s' <;> exact standsFor_zero _
  · obtain ⟨rfl, hc, rfl⟩ := h
    rcases lt_or_ge 971 e with hlarge | hfits
    · have hpack : Float.ofModel (Float.Model.pack (.finite s' m e hm)) = infinite s' := by
        show Float.ofModel ⟨_, _⟩ = Float.ofModel ⟨_, _⟩
        congr 2
        exact congrArg _ (pack_of_large hlarge)
      have hmost := hc.most_lt_units hlarge
      rw [hpack]
      cases s'
      · refine Or.inr (Or.inr ⟨?_, rfl⟩)
        show -(units m e : Int) < -(mostUnits : Int)
        omega
      · refine Or.inr (Or.inl ⟨?_, rfl⟩)
        show (mostUnits : Int) < (units m e : Int)
        omega
    · refine Or.inl ?_
      have hunpack : (Float.ofModel (Float.Model.pack (.finite s' m e hm))).toModel.unpack
          = .finite s' m e hm := hc.unpack_pack hfits hm
      rw [steps, hunpack]
      rfl

end Metaheuristics.Arithmetic
