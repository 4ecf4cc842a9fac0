import Metaheuristics.Proofs.Fitness.Preorder
import Metaheuristics.Proofs.Random.Fractions
import Metaheuristics.Proofs.Random.Selection

/-!
# What selections choose

The choice of the heaviest and a tournament take the earliest of the heaviest indices, of all of
them or of the drawn ones (`isFirstBest_heaviest`, `isFirstBest_contest`).  The wheel never takes an
index whose weight counts as zero (`spin_pos`), if the weights have a positive finite total: adding
zero to the running total does not lead above the threshold where the total was not above it
before, and the last resort is the last positive weight.  The total is positive if a weight is, since
no sum of numbers that are not negative is below any of them; but it can be infinite.  Then, and
where all weights count as zero, the draw is uniform, and any index can come out
(`select_selectable`).
-/

namespace Metaheuristics.Selection

open Metaheuristics.Arithmetic Metaheuristics.Random

variable {γ : Type} {weights : List Float}

/-! ## Counted weights -/

theorem counted_cases (w : Float) : counted w = 0.0 ∨ 0.0 < counted w := by
  unfold counted
  split
  next h => exact Or.inr (of_decide_eq_true (Bool.and_eq_true_iff.mp h).2)
  next => exact Or.inl rfl

theorem nonneg_of_zero_or_pos {w : Float} (h : w = 0.0 ∨ 0.0 < w) : 0.0 ≤ w := by
  rcases h with rfl | h
  · exact le_self rfl
  · exact le_of_lt h

theorem counted_nonneg (w : Float) : 0.0 ≤ counted w := nonneg_of_zero_or_pos (counted_cases w)

theorem counted_pos {w : Float} (hfinite : w.isFinite = true) (hpos : 0.0 < w) :
    0.0 < counted w := by
  unfold counted
  rwa [if_pos (by rw [hfinite, decide_eq_true hpos]; rfl)]

theorem zero_or_pos_of_mem {w : Float} (h : w ∈ weights.map counted) : w = 0.0 ∨ 0.0 < w := by
  obtain ⟨v, -, rfl⟩ := List.mem_map.mp h
  exact counted_cases v

/-- What stands at an index counts as what stands there among the counted weights. -/
theorem getD_map_counted (weights : List Float) (i : Nat) :
    (weights.map counted).getD i 0.0 = counted (weights.getD i 0.0) := by
  have hzero : counted 0.0 = 0.0 := by decide +kernel
  have hmap := List.getD_map (l := weights) (n := i) 0.0 counted
  rwa [hzero] at hmap

/-! ## The heaviest -/

/-- **Indices compared by what their weights count as**, the heavier one first. -/
def byWeight (weights : List Float) (i j : Nat) : Ordering :=
  Direction.maximize.compare (counted (weights.getD i 0.0)) (counted (weights.getD j 0.0))

theorem byWeight_totalPreorder (weights : List Float) :
    TotalPreorderOn (byWeight weights) fun _ => True :=
  Direction.maximize.totalPreorder.comap fun i => counted (weights.getD i 0.0)

theorem byWeight_eq_lt {i j : Nat} : byWeight weights i j = .lt ↔
    counted (weights.getD j 0.0) < counted (weights.getD i 0.0) := by
  unfold byWeight Direction.compare Direction.compareNumbers
  rw [(isNaN_of_le (counted_nonneg _)).2, (isNaN_of_le (counted_nonneg _)).2]
  dsimp only
  split_ifs with h h'
  · exact iff_of_false (fun heq => nomatch heq) (lt_asymm h)
  · exact iff_of_true rfl h'
  · exact iff_of_false (fun heq => nomatch heq) h'

theorem isFirstBest_concat {is : List Nat} {best i : Nat}
    (h : IsFirstBest (byWeight weights) is best) :
    IsFirstBest (byWeight weights) (is ++ [i])
      (if counted (weights.getD best 0.0) < counted (weights.getD i 0.0) then i else best) := by
  have hconcat := h.concat (byWeight_totalPreorder weights) (fun _ _ => trivial) (x := i) trivial
  unfold preferred at hconcat
  rwa [if_congr byWeight_eq_lt rfl rfl] at hconcat

theorem isFirstBest_heaviestFrom {seen rest : List Float} {best : Nat}
    (hweights : weights.map counted = seen ++ rest)
    (h : IsFirstBest (byWeight weights) (List.range seen.length) best) :
    ∃ k, heaviestFrom (weights.map counted) best seen.length rest = .ok k ∧
      IsFirstBest (byWeight weights) (List.range weights.length) k := by
  induction rest generalizing seen best with
  | nil =>
    have hlength := congrArg List.length hweights
    rw [List.length_map, List.append_nil] at hlength
    rw [hlength]
    exact ⟨best, rfl, h⟩
  | cons w rest ih =>
    have hw : w = counted (weights.getD seen.length 0.0) := by
      rw [← getD_map_counted, hweights]
      simp
    have hseen : weights.map counted = (seen ++ [w]) ++ rest := by
      rw [hweights, List.append_assoc]
      rfl
    have hbest : best < (weights.map counted).length := by
      have hlt := List.mem_range.mp h.mem
      rw [hweights, List.length_append]
      omega
    have hnext := isFirstBest_concat (i := seen.length) h
    have hlength : (seen ++ [w]).length = seen.length.succ := List.length_append
    rw [← List.range_succ, ← hlength, ← hw] at hnext
    obtain ⟨k, hk, hfirst⟩ := ih hseen hnext
    refine ⟨k, ?_, hfirst⟩
    unfold heaviestFrom
    rw [heavier_eq hbest, getD_map_counted, ← hk, hlength]
    rfl

theorem isFirstBest_heaviest (h : weights ≠ []) :
    ∃ k, heaviest weights = .ok k ∧
      IsFirstBest (byWeight weights) (List.range weights.length) k := by
  obtain _ | ⟨w, rest⟩ := weights
  · exact absurd rfl h
  · have hfirst : IsFirstBest (byWeight (w :: rest)) (List.range [counted w].length) 0 :=
      IsFirstBest.singleton _ 0
    exact isFirstBest_heaviestFrom rfl hfirst

/-! ## Tournaments -/

variable [Source γ]

/-- **Uniform draws**, one after another. -/
def draws (n : Nat) : (amount : Nat) → StateM γ (List Nat)
  | 0 => return []
  | amount + 1 => do
    let i ← Random.below n
    return i :: (← draws n amount)

/-- A contest takes the first of the heaviest among the one in hand and the drawn ones. -/
theorem isFirstBest_contest {seen : List Nat} {best : Nat} (hlt : best < weights.length)
    (h : IsFirstBest (byWeight weights) seen best) (rounds : Nat) (g : γ) :
    ∃ k, contest (weights.map counted) rounds best g
        = (.ok k, (draws weights.length rounds g).2) ∧
      IsFirstBest (byWeight weights) (seen ++ (draws weights.length rounds g).1) k := by
  induction rounds generalizing seen best g with
  | zero =>
    refine ⟨best, rfl, ?_⟩
    show IsFirstBest _ (seen ++ []) best
    rwa [List.append_nil]
  | succ rounds ih =>
    have hcounted : best < (weights.map counted).length := by rwa [List.length_map]
    have hdrawn := below_lt (Nat.zero_lt_of_lt hlt) g
    rw [contest_succ hcounted, List.length_map, getD_map_counted, getD_map_counted]
    obtain ⟨k, hk, hbest⟩ := ih (by split <;> assumption)
      (isFirstBest_concat (i := (below weights.length g).1) h) (below weights.length g).2
    rw [List.append_assoc] at hbest
    exact ⟨k, hk, hbest⟩

/-! ## The wheel -/

section Wheel
variable {total threshold : Float} {i : Nat}

omit [Source γ]

/-- The wheel stops at a positive weight, if the running total is not above the threshold from
the start. -/
theorem stopOnWheel_pos {ws : List Float} (hws : ∀ w ∈ ws, w = 0.0 ∨ 0.0 < w)
    (htotal : 0.0 ≤ total) (hstart : ¬ threshold < total)
    (h : stopOnWheel threshold total ws = some i) : ∃ w, ws[i]? = some w ∧ 0.0 < w := by
  induction ws generalizing total i with
  | nil => cases h
  | cons w ws ih =>
    have hw := hws w List.mem_cons_self
    unfold stopOnWheel at h
    split_ifs at h with hstop
    · obtain rfl := Option.some.inj h
      refine ⟨w, rfl, hw.resolve_left ?_⟩
      rintro rfl
      exact hstart (lt_of_lt_of_le hstop (add_zero_le (neg_infinity_lt_of_nonneg htotal)))
    · obtain ⟨k, hk, rfl⟩ := Option.map_eq_some_iff.mp h
      exact ih (fun v hv => hws v (List.mem_cons_of_mem w hv))
        (add_nonneg htotal (nonneg_of_zero_or_pos hw)) hstop hk

theorem lastPositive_pos {ws : List Float} (h : lastPositive ws = some i) :
    ∃ w, ws[i]? = some w ∧ 0.0 < w := by
  induction ws generalizing i with
  | nil => cases h
  | cons w ws ih =>
    unfold lastPositive at h
    split at h
    next k hk =>
      obtain rfl := Option.some.inj h
      exact ih hk
    next =>
      split_ifs at h with hpos
      obtain rfl := Option.some.inj h
      exact ⟨w, rfl, hpos⟩

theorem exists_lastPositive {ws : List Float} (h : ∃ w ∈ ws, 0.0 < w) :
    ∃ i, lastPositive ws = some i := by
  induction ws with
  | nil =>
    obtain ⟨w, hw, -⟩ := h
    cases hw
  | cons w ws ih =>
    unfold lastPositive
    split
    next k _ => exact ⟨k + 1, rfl⟩
    next hnone =>
      obtain ⟨v, hv, hpos⟩ := h
      rcases List.mem_cons.mp hv with rfl | hv
      · exact ⟨0, if_pos hpos⟩
      · obtain ⟨k, hk⟩ := ih ⟨v, hv, hpos⟩
        rw [hk] at hnone
        cases hnone

theorem zero_lt_sum_iff :
    0.0 < sum (weights.map counted) ↔ ∃ w ∈ weights.map counted, 0.0 < w := by
  constructor
  · intro h
    by_contra hnone
    refine not_zero_lt_sum (fun w hw => ?_) h
    exact (zero_or_pos_of_mem hw).resolve_right fun hpos => hnone ⟨w, hw, hpos⟩
  · rintro ⟨w, hw, hpos⟩
    exact lt_of_lt_of_le hpos (le_sum (fun v hv => nonneg_of_zero_or_pos (zero_or_pos_of_mem hv)) hw)

theorem sum_finite_iff : (sum (weights.map counted)).isFinite = true ↔
    sum (weights.map counted) ≠ infinity := by
  have hnonneg : 0.0 ≤ sum (weights.map counted) :=
    sum_nonneg fun v hv => nonneg_of_zero_or_pos (zero_or_pos_of_mem hv)
  constructor
  · rintro h heq
    rw [heq] at h
    cases h
  · intro hne
    rcases eq_infinity_or_steps (neg_infinity_lt_of_nonneg hnonneg) with heq | hsteps
    · exact absurd heq hne
    · exact isFinite_iff_steps.mpr hsteps

end Wheel

/-- The weights have a positive finite total. -/
def HasTotal (weights : List Float) : Prop :=
  0.0 < sum (weights.map counted) ∧ (sum (weights.map counted)).isFinite = true

/-- **The wheel takes no weight that counts as zero**, if one does not and the total is finite. -/
theorem spin_pos (hpos : ∃ w ∈ weights.map counted, 0.0 < w)
    (hfinite : sum (weights.map counted) ≠ infinity) :
    Yields (γ := γ) (spin weights) fun i => ∃ w, weights[i]? = some w ∧ 0.0 < counted w := by
  have hcounted {i : Nat} (h : ∃ w, (weights.map counted)[i]? = some w ∧ 0.0 < w) :
      ∃ w, weights[i]? = some w ∧ 0.0 < counted w := by
    obtain ⟨w, hw, hpos⟩ := h
    rw [List.getElem?_map] at hw
    obtain ⟨v, hv, rfl⟩ := Option.map_eq_some_iff.mp hw
    exact ⟨v, hv, hpos⟩
  have htotal : HasTotal weights := ⟨zero_lt_sum_iff.mpr hpos, sum_finite_iff.mpr hfinite⟩
  refine Yields.ite (fun hone => Yields.pure ?_) fun _ => Yields.ite (fun _ => ?_) fun hflat => ?_
  · -- a single weight is the positive one
    rw [List.length_map] at hone
    obtain ⟨v, rfl⟩ := List.length_eq_one_iff.mp hone
    obtain ⟨w, hw, hpos⟩ := hpos
    rw [List.map_singleton, List.mem_singleton] at hw
    exact ⟨v, rfl, hw ▸ hpos⟩
  · refine Yields.bind (P := fun r => 0.0 ≤ r * sum (weights.map counted)) (fun g => ?_)
      fun r hr => ?_
    · obtain ⟨v, hv⟩ := unit_steps g
      obtain ⟨t, ht⟩ := exists_steps_of_nonneg (le_of_lt htotal.1) htotal.2
      exact mul_nonneg hv ht (Int.natCast_nonneg (v * t))
    · dsimp only
      split
      next i hi =>
        exact Yields.pure (hcounted (stopOnWheel_pos (fun w => zero_or_pos_of_mem) (le_self rfl)
          (not_lt_of_le hr) hi))
      next =>
        obtain ⟨i, hi⟩ := exists_lastPositive hpos
        rw [hi]
        exact Yields.pure (hcounted (lastPositive_pos hi))
  · rw [Bool.and_eq_true, decide_eq_true_eq] at hflat
    exact absurd htotal hflat

/-- With such a total the wheel draws one fraction, unless there is no choice. -/
theorem spin_snd (htotal : HasTotal weights) (g : γ) :
    (spin weights g).2 = if weights.length = 1 then g else (unit g).2 := by
  rw [← List.length_map counted]
  unfold spin
  dsimp only
  rw [decide_eq_true htotal.1, htotal.2, Bool.and_self, if_pos rfl]
  split_ifs with hlength
  · rfl
  · have hbind (f : Float → StateM γ Nat) : (unit >>= f) g = f (unit g).1 (unit g).2 := rfl
    rw [hbind]
    rcases stopOnWheel ((unit g).1 * sum (weights.map counted)) 0.0 (weights.map counted)
      with _ | i <;> rfl

theorem spin_eq_below (hlength : weights.length ≠ 1) (htotal : ¬ HasTotal weights) :
    spin (γ := γ) weights = below weights.length := by
  rw [← List.length_map counted] at hlength ⊢
  unfold spin
  dsimp only
  rw [if_neg hlength, if_neg]
  rwa [Bool.and_eq_true, decide_eq_true_eq]

/-! ## The choice -/

/-- **What the strategies may choose** from some weights, whatever the words of the source are. -/
structure DrawsSelectable (γ : Type) [Source γ] (math : Elementary) (weights : List Float) :
    Prop where
  /-- Every strategy chooses one of the weights. -/
  inRange : ∀ (selection : Selection) (g : γ), ∃ i,
    (selection.select math weights g).1 = .ok i ∧ i < weights.length
  /-- The first of the heaviest, without a draw. -/
  rank : ∀ g : γ, ∃ i, Selection.rank.select math weights g = (.ok i, g) ∧
    IsFirstBest (byWeight weights) (List.range weights.length) i
  /-- The earliest drawn of the heaviest among the drawn ones. -/
  tournament : ∀ (size : Nat) (g : γ), ∃ i,
    (Selection.tournament size).select math weights g
      = (.ok i, (draws weights.length (max size 1) g).2) ∧
    IsFirstBest (byWeight weights) (draws weights.length (max size 1) g).1 i
  /-- Not what counts as zero: the wheel, which draws a fraction unless there is no choice. -/
  roulette : (∃ w ∈ weights, w.isFinite = true ∧ 0.0 < w) →
    sum (weights.map counted) ≠ infinity → ∀ g : γ, ∃ i w,
      Selection.roulette.select math weights g = (.ok i, if weights.length = 1 then g else (unit g).2) ∧
      weights[i]? = some w ∧ 0.0 < counted w
  /-- A uniform draw, where all weights count as zero or the total overflows. -/
  uniform : weights.length ≠ 1 →
    (∀ w ∈ weights, counted w = 0.0) ∨ sum (weights.map counted) = infinity → ∀ g : γ,
      Selection.roulette.select math weights g
        = (.ok (below weights.length g).1, (below weights.length g).2)

section
variable (math : Elementary) (h : weights ≠ []) (g : γ)
include h

theorem select_roulette : Selection.roulette.select math weights g
    = (.ok (spin weights g).1, (spin weights g).2) := by
  obtain _ | ⟨w, rest⟩ := weights
  · exact absurd rfl h
  · rfl

theorem select_rank : Selection.rank.select math weights g = (heaviest weights, g) := by
  obtain _ | ⟨w, rest⟩ := weights
  · exact absurd rfl h
  · rfl

theorem select_tournament (size : Nat) : (Selection.tournament size).select math weights g =
    contest (weights.map counted) (size - 1) (below weights.length g).1
      (below weights.length g).2 := by
  obtain _ | ⟨w, rest⟩ := weights
  · exact absurd rfl h
  · rfl

end

/-- **Selections draw only what is selectable.** -/
theorem select_selectable (math : Elementary) {weights : List Float} (h : weights ≠ []) :
    DrawsSelectable γ math weights where
  inRange selection g := select_lt math selection (List.length_pos_iff.mpr h) g
  rank g := by
    obtain ⟨k, hk, hbest⟩ := isFirstBest_heaviest h
    exact ⟨k, (select_rank math h g).trans (by rw [hk]), hbest⟩
  tournament size g := by
    have hmax : max size 1 = (size - 1) + 1 := by omega
    have hfirst := IsFirstBest.singleton (byWeight weights) (below weights.length g).1
    have hlt := below_lt (List.length_pos_iff.mpr h) g
    obtain ⟨k, hk, hbest⟩ := isFirstBest_contest hlt hfirst (size - 1) (below weights.length g).2
    rw [hmax]
    exact ⟨k, (select_tournament math h g size).trans hk, hbest⟩
  roulette hpos hfinite g := by
    obtain ⟨w, hw, hfinite', hpos⟩ := hpos
    have hpos : ∃ v ∈ weights.map counted, 0.0 < v :=
      ⟨counted w, List.mem_map_of_mem hw, counted_pos hfinite' hpos⟩
    obtain ⟨v, hv, hvpos⟩ := spin_pos hpos hfinite g
    have htotal : HasTotal weights := ⟨zero_lt_sum_iff.mpr hpos, sum_finite_iff.mpr hfinite⟩
    exact ⟨_, v, (select_roulette math h g).trans (Prod.ext rfl (spin_snd htotal g)), hv, hvpos⟩
  uniform hlength hflat g := by
    have htotal : ¬ HasTotal weights := by
      rintro ⟨hpos, hfinite⟩
      rcases hflat with hzero | hinfinite
      · obtain ⟨w, hw, hwpos⟩ := zero_lt_sum_iff.mp hpos
        obtain ⟨v, hv, rfl⟩ := List.mem_map.mp hw
        rw [hzero v hv] at hwpos
        exact lt_asymm hwpos hwpos
      · exact sum_finite_iff.mp hfinite hinfinite
    rw [select_roulette math h g, spin_eq_below hlength htotal]

/-- Weights of every kind, of which two count. -/
theorem select_selectable_mixed :
    let weights := [-1.0, 2.5, notANumber, infinity, 2.5, 0.0]
    weights ≠ [] ∧ (∃ w ∈ weights, w.isFinite = true ∧ 0.0 < w) ∧
      sum (weights.map counted) ≠ infinity ∧ DrawsSelectable Tape Elementary.native weights := by
  have hne : [-1.0, 2.5, notANumber, infinity, 2.5, 0.0] ≠ [] := fun heq => nomatch heq
  refine ⟨hne, ⟨2.5, List.mem_cons_of_mem _ List.mem_cons_self, ?_⟩, ?_,
    select_selectable Elementary.native hne⟩
  · decide +kernel
  · decide +kernel

/-- **Where the total overflows** the draw is uniform, and can come out at a weight of zero. -/
theorem roulette_zero_of_overflow :
    (largest.isFinite = true ∧ 0.0 < largest) ∧
      (Selection.roulette.select Elementary.native [largest, largest, 0.0]
        (Tape.ofArray #[0xffffffff00000000])).1 = .ok 2 ∧
      counted ([largest, largest, 0.0].getD 2 largest) = 0.0 := by
  refine ⟨?_, ?_, ?_⟩ <;> decide +kernel

end Metaheuristics.Selection
