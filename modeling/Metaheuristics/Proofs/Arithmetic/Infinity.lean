import Metaheuristics.Proofs.Arithmetic.Neutral
import Metaheuristics.Proofs.Arithmetic.Products

/-!
# Infinities

Every number but infinity itself lies below infinity (`lt_infinity_iff`).  A positive finite factor
keeps an infinity (`mul_infinite`), and a factor of zero makes it no number
(`isNaN_mul_infinite`).  What is not a number stays so in a sum (`isNaN_add_left`,
`isNaN_add_right`).

The distance of anything from an infinity lies beyond every number (`beyond_abs_sub_infinite`), and
so do sums of such distances (`beyond_sum`).  Negated and divided by a positive number it is
negative infinity or no number (`Beyond.neg_div`).
-/

namespace Metaheuristics.Arithmetic

open Float.Model Float.Model.UnpackedFloat

variable {t w x y : Float}

/-- **The infinity of a sign.** -/
def infinite (s : Sign) : Float := Float.ofModel (Float.Model.pack (.infinity s))

theorem infinity_eq : infinity = infinite .positive := rfl

theorem neg_infinity_eq : -infinity = infinite .negative := rfl

theorem unpack_infinite (s : Sign) : (infinite s).toModel.unpack = .infinity s := by
  show UnpackedFloat.unpack Format.binary64 (UnpackedFloat.pack Format.binary64 (.infinity s)) = _
  cases s <;> rfl

theorem eq_infinite_iff {s : Sign} : x = infinite s ↔ x.toModel.unpack = .infinity s := by
  constructor
  · rintro rfl
    exact unpack_infinite s
  · intro h
    rw [infinite, ← h, pack_unpack_model]

/-! ## Comparisons -/

theorem lt_infinity_iff : x < infinity ↔ x.isNaN = false ∧ x ≠ infinity := by
  rw [infinity_eq, ne_eq, eq_infinite_iff]
  show decide (((x.toModel.unpack.compare (infinite .positive).toModel.unpack) == some .lt) = true)
    = true ↔ x.toModel.unpack.isNaN = false ∧ _
  rw [decide_eq_true_eq, beq_iff_eq, unpack_infinite]
  rcases x.toModel.unpack with (_ | _) | _ | _ | ⟨_ | _, m, e, h⟩
  case infinity.negative => exact iff_of_true rfl ⟨rfl, by simp⟩
  all_goals simp [UnpackedFloat.compare, UnpackedFloat.isNaN]

theorem not_infinity_lt (x : Float) : ¬ infinity < x := by
  rw [infinity_eq]
  show ¬ decide (((infinite .positive).toModel.unpack.compare x.toModel.unpack == some .lt) = true)
    = true
  rw [decide_eq_true_eq, beq_iff_eq, unpack_infinite]
  rcases x.toModel.unpack with (_ | _) | _ | _ | ⟨_ | _, m, e, h⟩ <;>
    simp [UnpackedFloat.compare]

theorem isNaN_pack_notANumber : (Float.Model.pack .notANumber).unpack.isNaN = true := rfl

/-! ## Products -/

theorem mul_infinite (hpos : 0.0 < w) (hfinite : w.isFinite = true) (s : Sign) :
    w * infinite s = infinite s := by
  obtain ⟨v, hv, hw⟩ := exists_hasUnits hpos hfinite
  unfold HasUnits at hw
  show Float.ofModel (Float.Model.pack (UnpackedFloat.mul Format.binary64 w.toModel.unpack
    (infinite s).toModel.unpack)) = infinite s
  rw [unpack_infinite]
  rcases hu : w.toModel.unpack with _ | _ | s' | ⟨s', m, e, hm⟩ <;> rw [hu] at hw
  · exact hw.elim
  · exact hw.elim
  · obtain ⟨-, rfl⟩ := hw
    omega
  · obtain ⟨rfl, -⟩ := hw
    cases s <;> rfl

theorem isNaN_mul_infinite (hzero : 0.0 ≤ w) (hpos : ¬ 0.0 < w) (s : Sign) :
    (w * infinite s).isNaN = true := by
  have hle : ((0.0 : Float).toModel.unpack.compare w.toModel.unpack).any (·.isLE) = true :=
    of_decide_eq_true hzero
  have hlt : (0.0 : Float).toModel.unpack.compare w.toModel.unpack ≠ some .lt :=
    fun h => hpos (decide_eq_true (beq_iff_eq.mpr h))
  rw [unpack_zero] at hle hlt
  show (Float.Model.pack (UnpackedFloat.mul Format.binary64 w.toModel.unpack
    (infinite s).toModel.unpack)).unpack.isNaN = true
  rw [unpack_infinite]
  rcases hu : w.toModel.unpack with (_ | _) | _ | s' | ⟨_ | _, m, e, hm⟩ <;> rw [hu] at hle hlt
  case zero => exact isNaN_pack_notANumber
  all_goals first | exact absurd rfl hlt | cases hle

/-! ## Sums -/

theorem infinite_add_infinite (s : Sign) : infinite s + infinite s = infinite s := by
  cases s <;> rfl

theorem unpack_of_isNaN (h : x.isNaN = true) : x.toModel.unpack = .notANumber := by
  have hx : x.toModel.unpack.isNaN = true := h
  cases hu : x.toModel.unpack <;> rw [hu] at hx <;> first | rfl | cases hx

theorem isNaN_add_left (h : x.isNaN = true) : (x + y).isNaN = true := by
  show (Float.Model.pack (UnpackedFloat.add Format.binary64 x.toModel.unpack
    y.toModel.unpack)).unpack.isNaN = true
  rw [unpack_of_isNaN h]
  exact isNaN_pack_notANumber

theorem isNaN_add_right (h : y.isNaN = true) : (x + y).isNaN = true := by
  show (Float.Model.pack (UnpackedFloat.add Format.binary64 x.toModel.unpack
    y.toModel.unpack)).unpack.isNaN = true
  rw [unpack_of_isNaN h]
  cases x.toModel.unpack <;> exact isNaN_pack_notANumber

theorem isNaN_mul_right (h : y.isNaN = true) : (x * y).isNaN = true := by
  show (Float.Model.pack (UnpackedFloat.mul Format.binary64 x.toModel.unpack
    y.toModel.unpack)).unpack.isNaN = true
  rw [unpack_of_isNaN h]
  cases x.toModel.unpack <;> exact isNaN_pack_notANumber

/-! ## Distances -/

/-- **What lies beyond every number**: infinity, or what is no number. -/
def Beyond (x : Float) : Prop := x = infinity ∨ x.isNaN = true

theorem sub_infinity (u : UnpackedFloat) (s : Sign) :
    UnpackedFloat.sub Format.binary64 u (.infinity s) = .infinity (-s) ∨
      UnpackedFloat.sub Format.binary64 u (.infinity s) = .notANumber := by
  rcases u with (_ | _) | _ | _ | ⟨_, m, e, h⟩ <;> cases s <;>
    first | exact Or.inl rfl | exact Or.inr rfl

/-- **The distance from an infinity** lies beyond every number. -/
theorem beyond_abs_sub_infinite (x : Float) (s : Sign) : Beyond (x - infinite s).abs := by
  show Beyond (Float.ofModel (Float.Model.pack (Float.Model.pack
    (UnpackedFloat.sub Format.binary64 x.toModel.unpack (infinite s).toModel.unpack)).unpack.abs))
  rw [unpack_infinite]
  rcases sub_infinity x.toModel.unpack s with h | h <;> rw [h]
  · cases s <;> exact Or.inl rfl
  · exact Or.inr rfl

theorem Beyond.add (hx : Beyond x) (hy : Beyond y) : Beyond (x + y) := by
  rcases hx with rfl | hx
  · rcases hy with rfl | hy
    · exact Or.inl (infinite_add_infinite .positive)
    · exact Or.inr (isNaN_add_right hy)
  · exact Or.inr (isNaN_add_left hx)

/-- A sum of such distances lies beyond every number, if there is one at all. -/
theorem beyond_sum {values : List Float} (hne : values ≠ []) (h : ∀ x ∈ values, Beyond x) :
    Beyond (sum values) := by
  obtain _ | ⟨x, values⟩ := values
  · exact absurd rfl hne
  have hx : Beyond (-0.0 + x) := by
    rw [neg_zero_add_self]
    exact h x List.mem_cons_self
  have hvalues : ∀ y ∈ values, Beyond y := fun y hy => h y (List.mem_cons_of_mem _ hy)
  rw [sum, List.foldl_cons]
  clear hne h
  generalize -0.0 + x = total at hx
  induction values generalizing total with
  | nil => exact hx
  | cons y values ih =>
    exact ih (fun z hz => hvalues z (List.mem_cons_of_mem _ hz)) _
      (hx.add (hvalues y List.mem_cons_self))

/-! ## Quotients -/

theorem isNaN_div_left (h : x.isNaN = true) : (x / y).isNaN = true := by
  show (Float.Model.pack (UnpackedFloat.div Format.binary64 x.toModel.unpack
    y.toModel.unpack)).unpack.isNaN = true
  rw [unpack_of_isNaN h]
  exact isNaN_pack_notANumber

theorem neg_infinity_div (ht : ¬ t ≤ 0.0) :
    -infinity / t = -infinity ∨ (-infinity / t).isNaN = true := by
  have hle : ¬ (t.toModel.unpack.compare (0.0 : Float).toModel.unpack).any (·.isLE) = true :=
    fun h => ht (decide_eq_true h)
  have hdiv : UnpackedFloat.div Format.binary64 (.infinity .negative) t.toModel.unpack
      = .infinity .negative ∨
      UnpackedFloat.div Format.binary64 (.infinity .negative) t.toModel.unpack = .notANumber := by
    rw [unpack_zero] at hle
    generalize t.toModel.unpack = u at hle ⊢
    rcases u with (_ | _) | _ | _ | ⟨_ | _, m, e, h⟩
    case zero => exact absurd rfl hle
    case finite.negative => exact absurd rfl hle
    case finite.positive => exact Or.inl rfl
    all_goals exact Or.inr rfl
  show Float.ofModel (Float.Model.pack (UnpackedFloat.div Format.binary64
      (infinite .negative).toModel.unpack t.toModel.unpack)) = _ ∨
    (Float.ofModel (Float.Model.pack (UnpackedFloat.div Format.binary64
      (infinite .negative).toModel.unpack t.toModel.unpack))).isNaN = true
  rw [unpack_infinite]
  rcases hdiv with h | h <;> rw [h]
  · exact Or.inl rfl
  · exact Or.inr rfl

/-- What lies beyond every number, negated and divided by a positive number. -/
theorem Beyond.neg_div (hx : Beyond x) (ht : ¬ t ≤ 0.0) :
    -x / t = -infinity ∨ (-x / t).isNaN = true := by
  rcases hx with rfl | hx
  · exact neg_infinity_div ht
  · exact Or.inr (isNaN_div_left ((isNaN_neg x).trans hx))

end Metaheuristics.Arithmetic
