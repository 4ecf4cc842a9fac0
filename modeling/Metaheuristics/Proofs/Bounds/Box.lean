import Mathlib.Data.List.Forall2
import Metaheuristics.Bound
import Metaheuristics.Model.Basic
import Metaheuristics.Proofs.Arithmetic.Order

/-!
# Positions in a box

The bounds of a model span a box.  A position lies in it when it has one coordinate for each bound,
and each coordinate is a number between the ends of its bound (`InBox`).  Whatever is clamped into a
bound lies in it, also what is not a number (`Bound.clamp_holds`), and so do uniform positions
(`uniform_inBox`).  What lies in a bound already is left alone (`Bound.clamp_of_holds`).
-/

namespace Metaheuristics

/-- **A number in the interval.** -/
structure Bound.Holds (b : Bound) (x : Float) : Prop where
  isNumber : x.isNaN = false
  lower_le : b.lower ≤ x
  le_upper : x ≤ b.upper

/-- **A position in the box** spanned by the bounds. -/
def InBox (bounds : List Bound) (x : Position) : Prop := List.Forall₂ Bound.Holds bounds x

theorem InBox.take_length {bounds : List Bound} {x : Position} (h : InBox bounds x) :
    bounds.take x.length = bounds := List.take_of_length_le (Nat.le_of_eq h.length_eq)

theorem InBox.holds {bounds : List Bound} {x : Position} (h : InBox bounds x) {i : Nat} {b : Bound}
    {v : Float} (hb : bounds[i]? = some b) (hv : x[i]? = some v) : b.Holds v := by
  induction h generalizing i with
  | nil => cases hb
  | cons hholds _ ih =>
    obtain _ | i := i
    · obtain rfl := Option.some.inj hb
      obtain rfl := Option.some.inj hv
      exact hholds
    · exact ih hb hv

theorem Bound.holds_of_le {b : Bound} {x : Float} (h : b.lower ≤ x ∧ x ≤ b.upper) : b.Holds x :=
  ⟨(Arithmetic.isNaN_of_le h.1).2, h.1, h.2⟩

theorem Bound.lower_holds (b : Bound) : b.Holds b.lower :=
  Bound.holds_of_le ⟨Arithmetic.le_self (Arithmetic.isNaN_of_isFinite b.lower_finite), b.ordered⟩

/-- **Clamping leads into the interval**, whatever is clamped. -/
theorem Bound.clamp_holds (b : Bound) (x : Float) : b.Holds (b.clamp x) := by
  unfold Bound.clamp
  by_cases hx : x.isNaN = true
  · rw [if_pos hx]
    exact b.lower_holds
  · rw [if_neg hx]
    exact Bound.holds_of_le (Arithmetic.clamp_mem b.ordered (Bool.eq_false_iff.mpr hx))

theorem Bound.clamp_of_holds {b : Bound} {x : Float} (h : b.Holds x) : b.clamp x = x := by
  unfold Bound.clamp Arithmetic.clamp
  rw [h.isNumber, if_neg Bool.false_ne_true, if_neg (Arithmetic.not_lt_of_le h.lower_le),
    if_neg (Arithmetic.not_lt_of_le h.le_upper)]

/-- Clamping does not lead below a number of the interval that was not above. -/
theorem Bound.le_clamp {b : Bound} {x y : Float} (hx : b.Holds x) (h : x ≤ y) : x ≤ b.clamp y := by
  have hlower := Arithmetic.not_lt_of_le (Arithmetic.le_trans hx.lower_le h)
  unfold Bound.clamp Arithmetic.clamp
  rw [(Arithmetic.isNaN_of_le h).2, if_neg Bool.false_ne_true, if_neg hlower]
  split_ifs
  · exact hx.le_upper
  · exact h

/-! ## Uniform positions -/

theorem length_mapM_draw {γ α β : Type} (f : α → StateM γ β) (as : List α) (g : γ) :
    (as.mapM f g).1.length = as.length := by
  induction as generalizing g with
  | nil => rfl
  | cons a as ih =>
    rw [List.mapM_cons]
    exact congrArg (· + 1) (ih _)

section
variable {γ : Type} [Random.Source γ]

theorem Bound.sample_holds (b : Bound) (g : γ) : b.Holds (b.sample g).1 := by
  unfold Bound.sample
  by_cases h : (b.lower == b.upper) = true
  · rw [if_pos h]
    exact b.lower_holds
  · rw [if_neg h]
    exact b.clamp_holds _

theorem sample_inBox (bounds : List Bound) (g : γ) :
    InBox bounds (bounds.mapM Bound.sample g).1 := by
  induction bounds generalizing g with
  | nil => exact .nil
  | cons b bounds ih =>
    rw [List.mapM_cons]
    exact .cons (b.sample_holds g) (ih _)

/-- **Uniform positions lie in the box**, for every source of randomness. -/
theorem uniform_inBox (bounds : List Bound) (amount : Nat) (g : γ) :
    ∀ x ∈ (Model.uniform bounds amount g).1, InBox bounds x := by
  unfold Model.uniform
  induction List.range amount generalizing g with
  | nil => exact fun x hx => absurd hx List.not_mem_nil
  | cons k ks ih =>
    rw [List.mapM_cons]
    intro x hx
    rcases List.mem_cons.mp hx with rfl | hx
    · exact sample_inBox bounds g
    · exact ih _ x hx

theorem length_uniform (bounds : List Bound) (amount : Nat) (g : γ) :
    (Model.uniform bounds amount g).1.length = amount := by
  unfold Model.uniform
  rw [length_mapM_draw, List.length_range]

end

end Metaheuristics
