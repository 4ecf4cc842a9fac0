import Metaheuristics.Population.Elite

/-!
# The walk by cursors

`Elite.refresh?` walks along the elite and the candidates with two cursors, and looks at an entry,
inserts one and cuts a slice only where it may.  It never gets past the end of a list: the walk is
the one of `Elite.merge` along the lists themselves (`walk?_eq`), so the elite always comes out, and
it is that of `Elite.refresh` (`refresh?_eq`).
-/

namespace Metaheuristics.Elite

variable {α : Type} (compare : α → α → Ordering)

/-! ## Steps of the merge -/

theorem merge_nil (elite : List α) : merge compare elite [] = (elite, []) := by
  induction elite with
  | nil => rfl
  | cons member elite ih => simp only [merge, List.takeWhile_nil, List.dropWhile_nil, ih]; rfl

variable {compare} {candidate member : α}

theorem merge_cons_of_beats (h : beats compare candidate member = true)
    (elite candidates : List α) :
    merge compare (member :: elite) (candidate :: candidates)
      = (candidate :: (merge compare (member :: elite) candidates).1,
        (merge compare (member :: elite) candidates).2) := by
  simp only [merge, List.takeWhile_cons, List.dropWhile_cons, h, if_true]
  rfl

theorem merge_cons_of_not_beats (h : ¬ beats compare candidate member = true)
    (elite candidates : List α) :
    merge compare (member :: elite) (candidate :: candidates)
      = (member :: (merge compare elite (candidate :: candidates)).1,
        (merge compare elite (candidate :: candidates)).2) := by
  simp only [merge, List.takeWhile_cons, List.dropWhile_cons, h]
  rfl

/-! ## Cursors -/

theorem insert?_append (before elite : List α) (candidate : α) :
    insert? (before ++ elite) before.length candidate = some (before ++ candidate :: elite) := by
  have hle : before.length ≤ (before ++ elite).length := by simp
  unfold insert?
  rw [if_pos hle]
  exact congrArg some (List.modifyTailIdx_add _ 0 before elite)

theorem slice?_append (passed left : List α) {amount : Nat} (h : amount ≤ left.length) :
    slice? (passed ++ left) passed.length (passed.length + amount) = some (left.take amount) := by
  unfold slice?
  rw [if_pos ⟨Nat.le_add_right _ _, by rw [List.length_append]; omega⟩, List.take_length_add_append,
    List.drop_left]

theorem between?_append (passed left : List α) (limit : Nat) :
    between? (passed ++ left) passed.length
        (min (passed ++ left).length (max passed.length limit))
      = some (left.take (limit - passed.length)) := by
  have hstop : min (passed ++ left).length (max passed.length limit)
      = passed.length + min left.length (limit - passed.length) := by
    rw [List.length_append]
    omega
  unfold between?
  rw [hstop]
  split
  · rw [slice?_append passed left (Nat.min_le_left _ _), Nat.min_comm,
      ← List.take_eq_take_min]
  · have hnone : left.take (limit - passed.length) = [] := by
      rw [List.take_eq_nil_iff, ← List.length_eq_zero_iff]
      omega
    rw [hnone]

/-- **The walk from some cursors** merges the candidates from one of them on into the members from
the other one on. -/
theorem walk?_eq {steps : Nat} {before elite passed left : List α}
    (hsteps : elite.length + left.length ≤ steps) :
    walk? compare (passed ++ left) steps before.length passed.length (before ++ elite)
      = some ((passed ++ left).length - (merge compare elite left).2.length,
        before ++ (merge compare elite left).1) := by
  induction steps generalizing before elite passed left with
  | zero =>
    have helite : elite = [] := List.eq_nil_of_length_eq_zero (by omega)
    have hleft : left = [] := List.eq_nil_of_length_eq_zero (by omega)
    simp [walk?, merge, helite, hleft]
  | succ steps ih =>
    unfold walk?
    obtain _ | ⟨member, elite⟩ := elite
    · simp [merge]
    obtain _ | ⟨candidate, left⟩ := left
    · simp [merge_nil]
    have hcursors : ¬ (before.length = (before ++ member :: elite).length ∨
        passed.length = (passed ++ candidate :: left).length) := by simp
    have hcandidate : (passed ++ candidate :: left)[passed.length]? = some candidate := by simp
    have hmember : (before ++ member :: elite)[before.length]? = some member := by simp
    rw [List.length_cons, List.length_cons] at hsteps
    rw [if_neg hcursors, hcandidate, hmember]
    by_cases hbeats : beats compare candidate member = true
    · have hnext := @ih (before ++ [candidate]) (member :: elite) (passed ++ [candidate]) left
        (by rw [List.length_cons]; omega)
      rw [merge_cons_of_beats hbeats]
      simpa [hbeats, insert?_append] using hnext
    · have hnext := @ih (before ++ [member]) elite passed (candidate :: left)
        (by rw [List.length_cons]; omega)
      rw [merge_cons_of_not_beats hbeats]
      simpa [hbeats] using hnext

theorem left_suffix (compare : α → α → Ordering) (elite candidates : List α) :
    (merge compare elite candidates).2 <:+ candidates := by
  induction elite generalizing candidates with
  | nil => exact List.suffix_refl candidates
  | cons member elite ih => exact (ih _).trans (List.dropWhile_suffix _)

/-- **The elite always comes out**, and is the one that is found along the lists. -/
theorem refresh?_eq (compare : α → α → Ordering) (elite candidates : List α) (capacity : Nat) :
    refresh? compare elite candidates capacity
      = some (refresh compare elite candidates capacity) := by
  have hwalk : walk? compare ([] ++ candidates) _ ([] : List α).length ([] : List α).length
      ([] ++ elite) = _ := walk?_eq (Nat.le_refl _)
  obtain ⟨passed, hpassed⟩ := left_suffix compare elite candidates
  unfold refresh? refresh
  rcases hmerge : merge compare elite candidates with ⟨merged, left⟩
  rw [hmerge] at hwalk hpassed
  obtain rfl : passed ++ left = candidates := hpassed
  have hinserted : (passed ++ left).length - left.length = passed.length := by
    rw [List.length_append]
    omega
  simp only [List.nil_append, List.length_nil, hinserted] at hwalk
  simp only [hwalk, hinserted, Option.bind_eq_bind, Option.bind_some, between?_append]
  rfl

end Metaheuristics.Elite
