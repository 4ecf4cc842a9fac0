import Metaheuristics.Proofs.Arithmetic.Accuracy
import Metaheuristics.Proofs.Tracker.Bounds

/-!
# Leaps

An incumbent leaps when it lies below the best one by at least one and by at least half of the size
of the best one (`IsLeap`).  Such an improvement is neither a small step from the last incumbent
(`IsLeap.not_abs_lt`) nor a small part of the best one (`IsLeap.not_div_lt`), so it ends the count
of slow incumbents.  The second comparison is with the best incumbent and not with its size: where
that one has the negative sign, the quotient is not above zero, and every leap counts as slow
(`IsLeap.div_lt`).

The last incumbent is never nearer than the best one (`best_le_last`), whatever operations came
before, so both comparisons are settled by the best incumbent alone.  From one leap the count after
a run of leaps follows by induction (`slowIncumbents_leaps`), and `slow_after_leaps` puts together
when the search is slow after one.

The distances are rounded twice, once in the limit of a leap and once in the comparison.  Half of
them is left where both are off (`IsLeap.gap`, `IsLeap.way`), which is far more than a hundredth.
-/

namespace Metaheuristics.Tracker

open Arithmetic Float.Model.UnpackedFloat

/-! ## The size of a leap -/

/-- **The least distance of a leap**: one, or half of the size of the best incumbent if that is
more. -/
def leastLeap (best : Float) : Float := maximum 1.0 (best.abs / 2.0)

/-- **A leap** from the best incumbent. -/
structure IsLeap (best x : Float) : Prop where
  finite : x.isFinite = true
  le_sub : x ≤ best - leastLeap best

variable {best last x : Float} {a b : Int}

theorem steps_leastLeap (hb : steps best = some b) :
    ∃ n : Nat, steps (leastLeap best) = some (n : Int) ∧ 2 * n = max (2 * oneUnits) b.natAbs := by
  have hone := oneUnits_pos
  have hhalf : StandsFor (best.abs / 2.0) (roundRatio (b.natAbs * oneUnits) (2 * oneUnits) : Nat) :=
    standsFor_div (steps_abs hb) hasUnits_two.steps (by omega)
  have hmost : b.natAbs ≤ mostUnits := by
    have := steps_mem hb
    omega
  unfold leastLeap maximum
  rw [hhalf.isNaN, if_neg Bool.false_ne_true]
  rcases Nat.lt_or_ge (2 * oneUnits) b.natAbs with hlarge | hsmall
  · -- half of a number above two is a number of 53 bits
    obtain ⟨c, j, hc, hsize⟩ := exists_natAbs_steps hb
    obtain _ | k := j
    · have hle : 2 ^ 53 ≤ oneUnits := two_pow_le_oneUnits (by decide)
      omega
    have hexact : roundRatio (b.natAbs * oneUnits) (2 * oneUnits) = c * 2 ^ k := by
      have h := roundRatio_exact (d := 2 * oneUnits) (j := k) (by omega) hc
      rwa [Nat.mul_left_comm, ← Nat.mul_assoc 2, Nat.mul_comm 2, Nat.mul_assoc c, ← Nat.pow_succ,
        ← hsize] at h
    have htwice : 2 * (c * 2 ^ k) = b.natAbs := by
      rw [hsize, Nat.pow_succ, Nat.mul_left_comm, Nat.mul_comm 2]
    rw [hexact] at hhalf
    have hsteps := hhalf.steps_eq (by omega) (by omega)
    rw [if_neg (mt (lt_iff_steps hsteps steps_one).mp (by omega))]
    exact ⟨_, hsteps, by omega⟩
  · have hround : roundRatio (b.natAbs * oneUnits) (2 * oneUnits) ≤ oneUnits := by
      have h := roundRatio_le (n := b.natAbs * oneUnits) (d := 2 * oneUnits) (c := 1)
        (j := 52 + 1022) (by omega) (by decide)
      rw [← oneUnits_eq, Nat.mul_comm oneUnits] at h
      exact h (Nat.mul_le_mul_right _ hsmall)
    have hmost' : oneUnits ≤ mostUnits := by
      have := (steps_mem steps_one).2
      omega
    have hsteps := hhalf.steps_eq (by omega) (by omega)
    split_ifs with hlt
    · exact ⟨oneUnits, steps_one, by omega⟩
    · rw [lt_iff_steps hsteps steps_one] at hlt
      exact ⟨_, hsteps, by omega⟩

/-- Half of the least leap is left of it where the limit of a leap is rounded. -/
theorem IsLeap.gap (h : IsLeap best x) (hb : steps best = some b) (hx : steps x = some a) :
    2 * (oneUnits : Int) ≤ 4 * (b - a) ∧ (b.natAbs : Int) ≤ 4 * (b - a) := by
  obtain ⟨n, hn, hsize⟩ := steps_leastLeap hb
  have hle := (standsFor_sub hb hn).le_of_le hx h.le_sub
  have herror := (roundSteps_error (b - n)).1
  omega

theorem IsLeap.way (h : IsLeap best x) (hb : steps best = some b) (hx : steps x = some a) :
    (oneUnits : Int) ≤ 4 * roundSteps ((b - a) * oneUnits) ∧
      (b.natAbs : Int) ≤ 8 * roundSteps ((b - a) * oneUnits) := by
  have hgap := h.gap hb hx
  have herror := (roundSteps_error (b - a)).2
  have hone := oneUnits_pos
  omega

theorem IsLeap.lt (h : IsLeap best x) (hfinite : best.isFinite = true) : x < best := by
  obtain ⟨b, hb⟩ := isFinite_iff_steps.mp hfinite
  obtain ⟨a, ha⟩ := isFinite_iff_steps.mp h.finite
  have hgap := h.gap hb ha
  have hone := oneUnits_pos
  exact (lt_iff_steps ha hb).mpr (by omega)

/-- **The exact condition**: what lies that far below the best incumbent, without any rounding, is a
leap. -/
theorem IsLeap.of_steps (hb : steps best = some b) (hx : steps x = some a)
    (hone : (oneUnits : Int) ≤ b - a) (hhalf : (b.natAbs : Int) ≤ 2 * (b - a)) : IsLeap best x := by
  obtain ⟨n, hn, hsize⟩ := steps_leastLeap hb
  refine ⟨isFinite_iff_steps.mpr ⟨a, hx⟩, StandsFor.le (Or.inl hx) (standsFor_sub hb hn) ?_⟩
  rw [← roundSteps_exact hx]
  exact roundSteps_mono (Int.mul_le_mul_of_nonneg_right (by omega) (Int.natCast_nonneg _))

/-! ## What a leap is compared with -/

/-- **A number with the negative sign**: it is below zero, or it is negative zero. -/
def IsNegative (x : Float) : Prop := x < 0.0 ∨ x = -0.0

instance (x : Float) : Decidable (IsNegative x) := inferInstanceAs (Decidable (_ ∨ _))

theorem IsLeap.eighth_le_sub (h : IsLeap best x) (hfinite : best.isFinite = true)
    (hlast : best ≤ last) : 0.125 ≤ last - x := by
  obtain ⟨b, hb⟩ := isFinite_iff_steps.mp hfinite
  obtain ⟨a, ha⟩ := isFinite_iff_steps.mp h.finite
  have hlow := lt_of_lt_of_le (neg_infinity_lt_of_steps hb) hlast
  rcases eq_infinity_or_steps hlow with rfl | ⟨c, hc⟩
  · rw [sub_eq_add_neg, infinity_add (neg_infinity_lt_of_steps (steps_neg ha))]
    decide +kernel
  · refine StandsFor.le (Or.inl hasUnits_eighth.steps) (standsFor_sub hc ha) ?_
    have hbc := (le_iff_steps hb hc).mp hlast
    have hmono : roundSteps ((b - a) * oneUnits) ≤ roundSteps ((c - a) * oneUnits) :=
      roundSteps_mono (Int.mul_le_mul_of_nonneg_right (by omega) (Int.natCast_nonneg _))
    have hway := h.way hb ha
    have height := eight_mul_eighth
    omega

theorem IsLeap.not_abs_lt (h : IsLeap best x) (hfinite : best.isFinite = true)
    (hlast : last.isNaN = true ∨ best ≤ last) : ¬ (last - x).abs < 0.01 := by
  intro hlt
  rcases hlast with hnan | hle
  · have hnumber := (isNaN_of_le (le_of_lt hlt)).1
    rw [isNaN_abs, sub_eq_add_neg, isNaN_add_left hnan] at hnumber
    cases hnumber
  · have hfar := h.eighth_le_sub hfinite hle
    have hself := le_abs (le_trans (by decide +kernel) hfar)
    exact not_lt_of_le (le_trans hfar hself) (lt_of_lt_of_le hlt (by decide +kernel))

theorem IsLeap.not_div_lt (h : IsLeap best x) (hfinite : best.isFinite = true)
    (hsign : ¬ IsNegative best) : ¬ (best - x) / best < 0.01 := by
  obtain ⟨b, hb⟩ := isFinite_iff_steps.mp hfinite
  obtain ⟨a, ha⟩ := isFinite_iff_steps.mp h.finite
  have hfar := h.eighth_le_sub hfinite (le_self (isNaN_of_steps hb))
  have hpos : 0.0 < best - x := lt_of_lt_of_le (by decide +kernel) hfar
  obtain ⟨v, hv⟩ := exists_hasUnits_of_sign hfinite (mt sign?_eq_negative_iff.mp hsign)
  rcases Nat.eq_zero_or_pos v with rfl | hv0
  · obtain rfl := hv.eq hasUnits_zero
    rw [div_zero_of_pos hpos]
    exact not_infinity_lt _
  rcases eq_infinity_or_steps (lt_of_le_of_lt (neg_infinity_le rfl) hpos) with hinf | ⟨c, hc⟩
  · rw [hinf, infinity_div ((hasUnits_zero.lt_iff hv).mpr hv0) hfinite]
    exact not_infinity_lt _
  · obtain rfl := (standsFor_sub hb ha).eq_of_steps hc
    have hway := h.way hb ha
    obtain ⟨n, hn⟩ := Int.eq_ofNat_of_zero_le (by omega : 0 ≤ roundSteps ((b - a) * oneUnits))
    obtain rfl := Option.some.inj (hb.symm.trans hv.steps)
    rw [hn] at hc hway
    refine fun hlt => not_lt_of_le (eighth_le_div hc hv.steps hv0 (by omega)) ?_
    exact lt_of_lt_of_le hlt (by decide +kernel)

theorem IsLeap.div_lt (h : IsLeap best x) (hfinite : best.isFinite = true)
    (hsign : IsNegative best) : (best - x) / best < 0.01 := by
  have hfar := h.eighth_le_sub hfinite (le_self (isNaN_of_isFinite hfinite))
  have hpos : 0.0 < best - x := lt_of_lt_of_le (by decide +kernel) hfar
  have hquotient := div_nonpos_of_sign hpos hfinite (sign?_eq_negative_iff.mpr hsign)
  exact lt_of_le_of_lt hquotient (by decide +kernel)

theorem IsNegative.of_lt (h : IsNegative best) (hlt : x < best) : IsNegative x := by
  rcases h with hzero | rfl
  · exact Or.inl (lt_of_lt_of_le hlt (le_of_lt hzero))
  · exact Or.inl (lt_of_lt_of_le hlt (by decide +kernel))

/-! ## What the operations keep -/

/-- **What is kept of the incumbents** is the same in two trackers. -/
structure SameIncumbents (t t' : Tracker) : Prop where
  thresholds : t'.thresholds = t.thresholds
  slowIncumbents : t'.slowIncumbents = t.slowIncumbents
  lastIncumbent : t'.lastIncumbent = t.lastIncumbent
  best : t'.best = t.best

variable {t t' : Tracker} {thresholds : Thresholds} {ops later : List Operation} {op : Operation}

theorem SameIncumbents.trans {t'' : Tracker} (h : SameIncumbents t t')
    (h' : SameIncumbents t' t'') : SameIncumbents t t'' :=
  ⟨h'.thresholds.trans h.thresholds, h'.slowIncumbents.trans h.slowIncumbents,
    h'.lastIncumbent.trans h.lastIncumbent, h'.best.trans h.best⟩

theorem sameIncumbents_lowerTo : SameIncumbents t (t.lowerTo x) := by
  unfold lowerTo
  split_ifs <;> exact ⟨rfl, rfl, rfl, rfl⟩

theorem sameIncumbents_relaxation : SameIncumbents t (t.refreshRelaxation x).2 := by
  have hnote : SameIncumbents t (t.noteRelaxation x) := by
    unfold noteRelaxation
    split_ifs <;> exact ⟨rfl, rfl, rfl, rfl⟩
  unfold refreshRelaxation
  dsimp only
  split_ifs
  · refine hnote.trans (.trans ?_ sameIncumbents_lowerTo)
    exact ⟨rfl, rfl, rfl, rfl⟩
  · exact hnote

theorem incumbent_or_same (op : Operation) : (∃ x, op = .incumbent x) ∨
    incumbents [op] = [] ∧ ∀ t : Tracker, SameIncumbents t (t.apply op) := by
  cases op with
  | incumbent x => exact Or.inl ⟨x, rfl⟩
  | relaxation x => exact Or.inr ⟨rfl, fun _ => sameIncumbents_relaxation⟩
  | columns priced =>
    refine Or.inr ⟨rfl, fun t => ?_⟩
    show SameIncumbents t (t.refreshLowerBound priced)
    rcases refreshLowerBound_cases (t := t) priced with heq | ⟨dual, -, -, heq⟩
    · rw [heq]; exact ⟨rfl, rfl, rfl, rfl⟩
    · rw [heq]; exact ⟨rfl, rfl, rfl, rfl⟩
  | halve => exact Or.inr ⟨rfl, fun _ => ⟨rfl, rfl, rfl, rfl⟩⟩
  | next better => exact Or.inr ⟨rfl, fun _ => ⟨rfl, rfl, rfl, rfl⟩⟩
  | increment => exact Or.inr ⟨rfl, fun _ => ⟨rfl, rfl, rfl, rfl⟩⟩
  | decrement => exact Or.inr ⟨rfl, fun _ => ⟨rfl, rfl, rfl, rfl⟩⟩

theorem incumbents_cons : incumbents (op :: later) = incumbents [op] ++ incumbents later := by
  rw [← incumbents_append, List.singleton_append]

theorem sameIncumbents_after (h : incumbents later = []) :
    SameIncumbents (after thresholds ops) (after thresholds (ops ++ later)) := by
  induction later generalizing ops with
  | nil => rw [List.append_nil]; exact ⟨rfl, rfl, rfl, rfl⟩
  | cons op later ih =>
    obtain ⟨hop, hlater⟩ := List.append_eq_nil_iff.mp (incumbents_cons.symm.trans h)
    rcases incumbent_or_same op with ⟨x, rfl⟩ | ⟨-, hsame⟩
    · cases hop
    · rw [List.append_cons]
      refine .trans ?_ (ih hlater)
      rw [after_concat]
      exact hsame _

theorem refreshIncumbent_slow :
    (t.refreshIncumbent x).2.thresholds = t.thresholds ∧
    (t.refreshIncumbent x).2.lastIncumbent = x ∧
    (t.refreshIncumbent x).2.slowIncumbents =
      if (t.lastIncumbent - x).abs < 0.01 ∨ (t.best - x) / t.best < 0.01
        then t.slowIncumbents + 1 else 0 := by
  unfold refreshIncumbent
  dsimp only
  by_cases hbest : x < (t.noteIncumbent x).best
  · rw [if_pos hbest]
    exact ⟨sameIncumbents_lowerTo.thresholds, sameIncumbents_lowerTo.lastIncumbent,
      sameIncumbents_lowerTo.slowIncumbents⟩
  · rw [if_neg hbest]
    exact ⟨rfl, rfl, rfl⟩

/-- **The last incumbent is never nearer than the best one**, unless it is no number. -/
theorem best_le_last (thresholds : Thresholds) (ops : List Operation) :
    (after thresholds ops).lastIncumbent.isNaN = true ∨
      (after thresholds ops).best ≤ (after thresholds ops).lastIncumbent := by
  induction ops using List.reverseRecOn with
  | nil => exact Or.inr (le_self isNaN_largest)
  | append_singleton ops op ih =>
    have hnumber := (sandwich_after thresholds ops).best.isNaN
    rw [after_concat]
    generalize after thresholds ops = t at ih hnumber ⊢
    rcases incumbent_or_same op with ⟨x, rfl⟩ | ⟨-, hsame⟩
    · simp only [apply, refreshIncumbent_slow, refreshIncumbent_eq]
      cases hx : x.isNaN
      · refine Or.inr ?_
        split_ifs with hbest
        · exact le_self hx
        · exact le_of_not_lt hx hnumber hbest
      · exact Or.inl rfl
    · rw [(hsame t).lastIncumbent, (hsame t).best]
      exact ih

/-! ## Runs of leaps -/

/-- The count of slow incumbents after a leap from the best incumbent: it is reset, unless that one
has the negative sign. -/
def countAfterLeap (t : Tracker) : Nat :=
  if IsNegative t.best then t.slowIncumbents + 1 else 0

theorem slowIncumbents_leap (h : IsLeap (after thresholds ops).best x)
    (hfinite : (after thresholds ops).best.isFinite = true) :
    (after thresholds (ops ++ [.incumbent x])).slowIncumbents =
      (after thresholds ops).countAfterLeap := by
  have hlast := best_le_last thresholds ops
  rw [after_concat]
  generalize after thresholds ops = t at h hfinite hlast ⊢
  refine refreshIncumbent_slow.2.2.trans ?_
  rw [countAfterLeap]
  by_cases hsign : IsNegative t.best
  · rw [if_pos hsign, if_pos (Or.inr (h.div_lt hfinite hsign))]
  · have hfar := h.not_abs_lt hfinite hlast
    rw [if_neg hsign, if_neg (not_or_intro hfar (h.not_div_lt hfinite hsign))]

theorem best_leap (h : IsLeap (after thresholds ops).best x)
    (hfinite : (after thresholds ops).best.isFinite = true) :
    (after thresholds (ops ++ [.incumbent x])).best = x := by
  rw [after_concat]
  exact refreshIncumbent_eq.2.1.trans (if_pos (h.lt hfinite))

theorem countAfterLeap_leap (h : IsLeap (after thresholds ops).best x)
    (hfinite : (after thresholds ops).best.isFinite = true) :
    (after thresholds (ops ++ [.incumbent x])).countAfterLeap =
      (after thresholds ops).countAfterLeap + if IsNegative x then 1 else 0 := by
  unfold countAfterLeap
  rw [best_leap h hfinite, slowIncumbents_leap h hfinite, countAfterLeap]
  by_cases hx : IsNegative x
  · rw [if_pos hx, if_pos hx]
  · have hsign : ¬ IsNegative (after thresholds ops).best := fun hb => hx (hb.of_lt (h.lt hfinite))
    rw [if_neg hx, if_neg hx, if_neg hsign]

/-- An operation leaps from the best incumbent, or it hands in no incumbent. -/
def Operation.IsLeapFrom (best : Float) : Operation → Prop
  | .incumbent x => IsLeap best x
  | _ => True

/-- **A run of leaps**: each incumbent leaps from the best one of its turn. -/
def Leaps : Tracker → List Operation → Prop
  | _, [] => True
  | t, op :: ops => op.IsLeapFrom t.best ∧ Leaps (t.apply op) ops

/-- **The count after a run of leaps**: each leap from a best incumbent with the negative sign has
added one to it. -/
theorem slowIncumbents_leaps (hfinite : (after thresholds ops).best.isFinite = true)
    (h : Leaps (after thresholds ops) later) (hsome : incumbents later ≠ []) :
    (after thresholds (ops ++ later)).slowIncumbents = (after thresholds ops).countAfterLeap +
      (incumbents later).dropLast.countP (IsNegative ·) := by
  induction later generalizing ops with
  | nil => exact absurd rfl hsome
  | cons op later ih =>
    obtain ⟨hleap, hlater⟩ := h
    rw [← after_concat] at hlater
    rw [List.append_cons]
    rcases incumbent_or_same op with ⟨x, rfl⟩ | ⟨hop, hsame⟩
    · have hleap : IsLeap (after thresholds ops).best x := hleap
      by_cases hnone : incumbents later = []
      · rw [(sameIncumbents_after hnone).slowIncumbents, slowIncumbents_leap hleap hfinite,
          incumbents_cons, hnone]
        rfl
      · have hbest := best_leap hleap hfinite
        rw [ih (by rw [hbest]; exact hleap.finite) hlater hnone, countAfterLeap_leap hleap hfinite]
        show _ = _ + (x :: incumbents later).dropLast.countP _
        rw [List.dropLast_cons_of_ne_nil hnone, List.countP_cons]
        simp only [decide_eq_true_eq]
        omega
    · have hstep := hsame (after thresholds ops)
      rw [← after_concat] at hstep
      rw [incumbents_cons, hop, List.nil_append] at hsome ⊢
      rw [ih (hstep.best ▸ hfinite) hlater hsome]
      unfold countAfterLeap
      rw [hstep.best, hstep.slowIncumbents]

/-! ## Whether the search is slow -/

theorem thresholds_after : (after thresholds ops).thresholds = thresholds := by
  induction ops using List.reverseRecOn with
  | nil => rfl
  | append_singleton ops op ih =>
    rw [after_concat]
    rcases incumbent_or_same op with ⟨x, rfl⟩ | ⟨-, hsame⟩
    · exact refreshIncumbent_slow.1.trans ih
    · exact (hsame _).thresholds.trans ih

/-- **Leaps are not slow** while the best incumbents they leap from have no negative sign. -/
theorem isSlow_leaps (hfinite : (after thresholds ops).best.isFinite = true)
    (h : Leaps (after thresholds ops) later) (hsign : ¬ IsNegative (after thresholds ops).best)
    (hsigns : ∀ y ∈ (incumbents later).dropLast, ¬ IsNegative y) (hcount : 0 < thresholds.slowCount)
    (hnone : incumbents later = [] → (after thresholds ops).isSlow = false) :
    (after thresholds (ops ++ later)).isSlow = false := by
  refine decide_eq_false ?_
  rw [thresholds_after]
  by_cases hsome : incumbents later = []
  · have hslow := of_decide_eq_false (hnone hsome)
    rwa [thresholds_after, ← (sameIncumbents_after hsome).slowIncumbents] at hslow
  · have hno : (incumbents later).dropLast.countP (IsNegative ·) = 0 :=
      List.countP_eq_zero.mpr fun y hy => by simpa using hsigns y hy
    rw [slowIncumbents_leaps hfinite h hsome, hno, countAfterLeap, if_neg hsign]
    omega

/-- **What leaps do to the count of slow incumbents**, after any operations.  Incumbents that lie
far enough below the best one leap, also where that is meant without rounding.  A leap resets the
count, and so the search is not slow after it, unless the best incumbent has the negative sign: the
improvement is compared with that incumbent and not with its size, and a quotient below zero is
below every threshold.  So a run of leaps is never slow while it has not gone below zero, and each
leap of it from below zero is counted as slow. -/
theorem slow_after_leaps (thresholds : Thresholds) (ops : List Operation)
    (hfinite : (after thresholds ops).best.isFinite = true) :
    let t := after thresholds ops
    (∀ x a b, steps t.best = some b → steps x = some a → (oneUnits : Int) ≤ b - a →
      (b.natAbs : Int) ≤ 2 * (b - a) → IsLeap t.best x) ∧
    (∀ x, IsLeap t.best x → (t.refreshIncumbent x).2.slowIncumbents =
      if IsNegative t.best then t.slowIncumbents + 1 else 0) ∧
    (∀ x, IsLeap t.best x → ¬ IsNegative t.best → 0 < thresholds.slowCount →
      (t.refreshIncumbent x).2.isSlow = false) ∧
    (∀ later, Leaps t later → incumbents later ≠ [] →
      (after thresholds (ops ++ later)).slowIncumbents =
        (if IsNegative t.best then t.slowIncumbents + 1 else 0) +
          (incumbents later).dropLast.countP (IsNegative ·)) ∧
    (∀ later, Leaps t later → ¬ IsNegative t.best →
      (∀ y ∈ (incumbents later).dropLast, ¬ IsNegative y) → 0 < thresholds.slowCount →
      (incumbents later = [] → t.isSlow = false) →
      (after thresholds (ops ++ later)).isSlow = false) := by
  intro t
  refine ⟨fun x a b hb hx => IsLeap.of_steps hb hx, fun x h => ?_,
    fun x h hsign hcount => ?_, fun later h => slowIncumbents_leaps hfinite h,
    fun later h => isSlow_leaps hfinite h⟩
  · have hcount := slowIncumbents_leap h hfinite
    rwa [after_concat] at hcount
  · have hslow : (after thresholds (ops ++ [.incumbent x])).isSlow = false :=
      isSlow_leaps hfinite ⟨h, trivial⟩ hsign nofun hcount nofun
    rwa [after_concat] at hslow

/-- Two leaps from `10`, to `4` and to `1`. -/
theorem slow_after_leaps_above_zero :
    (after .standard [.incumbent 10.0]).best.isFinite = true ∧
      (after .standard [.incumbent 10.0, .incumbent 4.0, .incumbent 1.0]).isSlow = false := by
  have hfinite : (after .standard [.incumbent 10.0]).best.isFinite = true := by decide +kernel
  have hfirst : IsLeap (after .standard [.incumbent 10.0]).best 4.0 :=
    ⟨by decide +kernel, by decide +kernel⟩
  have hsecond : IsLeap (after .standard [.incumbent 10.0, .incumbent 4.0]).best 1.0 :=
    ⟨by decide +kernel, by decide +kernel⟩
  obtain ⟨-, -, -, -, hslow⟩ := slow_after_leaps .standard [.incumbent 10.0] hfinite
  exact ⟨hfinite, hslow [.incumbent 4.0, .incumbent 1.0] ⟨hfirst, hsecond, trivial⟩
    (by decide +kernel) (by decide +kernel) (by decide) nofun⟩

/-- A leap from `-2` to `-6` is counted as slow. -/
theorem slow_after_leap_below_zero :
    (after ⟨100.0, 0.01, 1⟩ [.incumbent (-2.0)]).best = -2.0 ∧
      IsLeap (after ⟨100.0, 0.01, 1⟩ [.incumbent (-2.0)]).best (-6.0) ∧
      ((after ⟨100.0, 0.01, 1⟩ [.incumbent (-2.0)]).refreshIncumbent (-6.0)).2.slowIncumbents = 1 ∧
      ((after ⟨100.0, 0.01, 1⟩ [.incumbent (-2.0)]).refreshIncumbent (-6.0)).2.isSlow = true :=
  ⟨by decide +kernel, ⟨by decide +kernel, by decide +kernel⟩, by decide +kernel, by decide +kernel⟩

end Metaheuristics.Tracker
