import Metaheuristics.Proofs.Arithmetic.Scaling
import Metaheuristics.Multiverse.Rates

/-!
# White-hole rates respect the scores

Whatever the scores are, the rates of a population are a function of them (`Grades`): they lie
between zero and one, a finite score does not get a lower rate than a smaller finite one, and a score
that is not finite gets none above any other (`grades_normalize`).  The rates are graded where the
scores relative to the least finite one have a positive finite scale, which no relative score is
above; so all relative scores are finite then, also where a difference of finite scores could
overflow.  In all other cases the rates are equal.
-/

namespace Metaheuristics.Multiverse

open Arithmetic

variable {scores : List Float}

/-- **A way to rate some scores** that respects their order. -/
structure Grades (scores : List Float) (rate : Float → Float) : Prop where
  mem : ∀ s ∈ scores, 0.0 ≤ rate s ∧ rate s ≤ 1.0
  mono : ∀ s ∈ scores, ∀ t ∈ scores, s.isFinite = true → t.isFinite = true → s ≤ t →
    rate s ≤ rate t
  lowest : ∀ s ∈ scores, ∀ t ∈ scores, s.isFinite = false → rate s ≤ rate t

namespace Normalization

/-! ## Flat rates -/

theorem flat_eq (normalization : Normalization) {n : Nat} (h : 0 < n) :
    ∃ r, normalization.flat n = List.replicate n r ∧ 0.0 ≤ r ∧ r ≤ 1.0 := by
  cases normalization with
  | minMax => exact ⟨1.0, rfl, by decide +kernel, by decide +kernel⟩
  | sum => exact ⟨1.0 / Float.ofNat n, rfl, one_div_mem (one_le_ofNat h)⟩

theorem grades_flat (normalization : Normalization) (scores : List Float) :
    ∃ rate, normalization.flat scores.length = scores.map rate ∧ Grades scores rate := by
  obtain _ | ⟨s, scores⟩ := scores
  · refine ⟨id, ?_, List.forall_mem_nil _, List.forall_mem_nil _, List.forall_mem_nil _⟩
    cases normalization <;> rfl
  obtain ⟨r, hr, hmem⟩ := flat_eq normalization (Nat.succ_pos scores.length)
  have hself : r ≤ r := le_self (isNaN_of_le hmem.1).2
  refine ⟨fun _ => r, ?_, fun _ _ => hmem, fun _ _ _ _ _ _ _ => hself, fun _ _ _ _ _ => hself⟩
  rw [List.length_cons, hr, List.map_const', List.length_cons]

/-! ## Relative scores -/

theorem leastFinite_le {s : Float} (hs : s ∈ scores) (hfinite : s.isFinite = true) :
    leastFinite scores ≤ s := by
  refine (foldl_minimum_le rfl fun x hx => ?_).2 s (List.mem_filter.mpr ⟨hs, hfinite⟩)
  exact isNaN_of_isFinite (List.mem_filter.mp hx).2

/-- A score relative to the least finite one. -/
def relative (least s : Float) : Float := if s.isFinite then s - least else 0.0

section
variable {least s t : Float}

theorem relative_nonneg (hleast : least.isFinite = true) (h : s.isFinite = true → least ≤ s) :
    0.0 ≤ relative least s := by
  unfold relative
  split_ifs with hs
  · obtain ⟨a, ha⟩ := isFinite_iff_steps.mp hleast
    obtain ⟨b, hb⟩ := isFinite_iff_steps.mp hs
    exact sub_nonneg hb ha (h hs)
  · exact le_self rfl

theorem relative_mono (hleast : least.isFinite = true) (hs : s.isFinite = true)
    (ht : t.isFinite = true) (h : s ≤ t) : relative least s ≤ relative least t := by
  obtain ⟨c, hc⟩ := isFinite_iff_steps.mp hleast
  obtain ⟨a, ha⟩ := isFinite_iff_steps.mp hs
  obtain ⟨b, hb⟩ := isFinite_iff_steps.mp ht
  unfold relative
  rw [if_pos hs, if_pos ht]
  exact sub_le_sub_right ha hb hc h

end

/-- No relative score is above the scale. -/
theorem le_scale (normalization : Normalization) {xs : List Float} (hxs : ∀ x ∈ xs, 0.0 ≤ x)
    {x : Float} (hx : x ∈ xs) : x ≤ normalization.scale xs := by
  cases normalization with
  | sum => exact le_sum hxs hx
  | minMax => exact (le_foldl_maximum rfl fun y hy => (isNaN_of_le (hxs y hy)).2).2 x hx

/-! ## Graded rates -/

theorem grades_relative {least scale : Float} (hleast : least.isFinite = true)
    (hle : ∀ s ∈ scores, s.isFinite = true → least ≤ s) (hpos : 0.0 < scale)
    (hfinite : scale.isFinite = true) (hscale : ∀ s ∈ scores, relative least s ≤ scale) :
    Grades scores fun s => relative least s / scale := by
  obtain ⟨w, hw⟩ := exists_steps_of_nonneg (le_of_lt hpos) hfinite
  have hwpos : 0 < w := Int.ofNat_lt.mp ((lt_iff_steps hasUnits_zero.steps hw).mp hpos)
  have hsteps {s : Float} (hs : s ∈ scores) : ∃ v : Nat, steps (relative least s) = some (v : Int) := by
    have hnonneg := relative_nonneg hleast (hle s hs)
    exact exists_steps_of_nonneg hnonneg
      (isFinite_of_mem rfl hfinite hnonneg (hscale s hs))
  refine ⟨fun s hs => ?_, fun s hs t ht hsf htf hst => ?_, fun s hs t ht hsf => ?_⟩
  · obtain ⟨v, hv⟩ := hsteps hs
    exact ⟨div_nonneg hv hw hwpos, div_le_one hv hw hwpos (hscale s hs)⟩
  · obtain ⟨v, hv⟩ := hsteps hs
    obtain ⟨v', hv'⟩ := hsteps ht
    exact div_le_div_right hv hv' hw hwpos (relative_mono hleast hsf htf hst)
  · obtain ⟨v, hv⟩ := hsteps hs
    obtain ⟨v', hv'⟩ := hsteps ht
    refine div_le_div_right hv hv' hw hwpos ?_
    have hzero : relative least s = 0.0 := if_neg (by rw [hsf]; exact Bool.false_ne_true)
    rw [hzero]
    exact relative_nonneg hleast (hle t ht)

/-- **The rates of some scores** respect their order. -/
theorem grades_normalize (normalization : Normalization) (scores : List Float) :
    ∃ rate, normalization.normalize scores = scores.map rate ∧ Grades scores rate := by
  unfold normalize
  dsimp only
  split_ifs with hleast hscale
  · have hle : ∀ s ∈ scores, s.isFinite = true → leastFinite scores ≤ s := fun _ => leastFinite_le
    have hnonneg : ∀ x ∈ shift (leastFinite scores) scores, 0.0 ≤ x := by
      intro x hx
      obtain ⟨s, hs, rfl⟩ := List.mem_map.mp hx
      exact relative_nonneg hleast (hle s hs)
    obtain ⟨hpos, hfinite⟩ := Bool.and_eq_true_iff.mp hscale
    refine ⟨_, ?_, grades_relative hleast hle (of_decide_eq_true hpos) hfinite fun s hs =>
      le_scale normalization hnonneg (List.mem_map_of_mem hs)⟩
    exact List.map_map
  · exact grades_flat normalization scores
  · exact grades_flat normalization scores

end Normalization

end Metaheuristics.Multiverse
