import Metaheuristics.Proofs.Population.Merging

/-!
# What a refresh takes in

The walk of `Elite.merge` puts the first few candidates in front of members of the elite
(`inserted`) and leaves the others behind.  Cutting the candidates behind the inserted ones does not
change the walk (`merge_take`), so a refresh is an ordinary merge with the candidates up to a certain
one (`reach`), cut to the capacity (`refresh_eq_merge_take`).

* `refresh_take`: the candidates past the capacity make no difference, whatever is compared.
* `inserted_eq`: in ordered lists the walk inserts the candidates that beat the last member
  (`overtaking`).
* `refresh_isStableSort`: so the refresh of an ordered elite with ordered candidates is the top of a
  stable sort of both, as far as the candidates are taken in; if the elite is full, or none of the
  candidates overtakes, of all of them (`refresh_isStableSort_all`).
-/

namespace Metaheuristics.Elite

open Ranking

variable {α : Type} {compare : α → α → Ordering} {P : α → Prop} {m : α}
  {elite candidates : List α} {k : Nat}

/-! ## The inserted candidates -/

/-- **The number of candidates that the walk puts in front of a member** of the elite. -/
def inserted (compare : α → α → Ordering) : (elite candidates : List α) → Nat
  | [], _ => 0
  | m :: elite, candidates =>
    (candidates.takeWhile (beats compare · m)).length
      + inserted compare elite (candidates.dropWhile (beats compare · m))

theorem length_takeWhile_add (p : α → Bool) (items : List α) :
    (items.takeWhile p).length + (items.dropWhile p).length = items.length := by
  rw [← List.length_append, List.takeWhile_append_dropWhile]

theorem drop_length_takeWhile (p : α → Bool) (items : List α) :
    items.drop (items.takeWhile p).length = items.dropWhile p := by
  rw [List.takeWhile_eq_take_findIdx_not, List.dropWhile_eq_drop_findIdx_not, List.length_take,
    Nat.min_eq_left List.findIdx_le_length]

/-- The part of a cut list behind the first ones with a property is a part of what is behind them
in the whole list. -/
theorem dropWhile_take (p : α → Bool) (k : Nat) (items : List α) :
    (items.take k).dropWhile p = (items.dropWhile p).take (k - (items.takeWhile p).length) := by
  rw [← drop_length_takeWhile p (items.take k), ← List.take_takeWhile, List.drop_take,
    List.length_take, ← drop_length_takeWhile p items]
  rcases Nat.le_total k (items.takeWhile p).length with hle | hle
  · rw [Nat.min_eq_left hle, Nat.sub_self, Nat.sub_eq_zero_of_le hle, List.take_zero,
      List.take_zero]
  · rw [Nat.min_eq_right hle]

theorem inserted_le (compare : α → α → Ordering) (elite candidates : List α) :
    inserted compare elite candidates ≤ candidates.length := by
  induction elite generalizing candidates with
  | nil => exact Nat.zero_le _
  | cons m elite ih =>
    have hsplit := length_takeWhile_add (beats compare · m) candidates
    have hrest := ih (candidates.dropWhile (beats compare · m))
    rw [inserted]
    omega

theorem merge_snd (compare : α → α → Ordering) (elite candidates : List α) :
    (merge compare elite candidates).2 = candidates.drop (inserted compare elite candidates) := by
  induction elite generalizing candidates with
  | nil => rfl
  | cons m elite ih =>
    simp only [merge, inserted, ih]
    rw [← drop_length_takeWhile (beats compare · m) candidates, List.drop_drop]

theorem length_merge_fst (compare : α → α → Ordering) (elite candidates : List α) :
    (merge compare elite candidates).1.length
      = elite.length + inserted compare elite candidates := by
  induction elite generalizing candidates with
  | nil => rfl
  | cons m elite ih =>
    simp only [merge, inserted, List.length_append, List.length_cons, ih]
    omega

/-- A walk over fewer candidates inserts the same ones, as far as they go. -/
theorem inserted_take (compare : α → α → Ordering) (elite candidates : List α) (k : Nat) :
    inserted compare elite (candidates.take k) = min k (inserted compare elite candidates) := by
  induction elite generalizing candidates k with
  | nil => exact (Nat.min_zero k).symm
  | cons m elite ih =>
    rw [inserted, inserted, ← List.take_takeWhile, List.length_take, dropWhile_take, ih]
    omega

theorem merge_take (hk : inserted compare elite candidates ≤ k) :
    merge compare elite (candidates.take k)
      = ((merge compare elite candidates).1, (candidates.take k).drop
          (inserted compare elite candidates)) := by
  refine Prod.ext ?_ ?_
  · induction elite generalizing candidates k with
    | nil => rfl
    | cons m elite ih =>
      rw [inserted] at hk
      simp only [merge, ← List.take_takeWhile, dropWhile_take]
      rw [List.take_of_length_le (by omega), ih (by omega)]
  · rw [merge_snd, inserted_take, Nat.min_eq_right hk]

/-! ## Refreshing as merging -/

/-- **The number of candidates that take part in a refresh**: those that are inserted, and those
whose index is below the capacity less the length that the elite has then. -/
def reach (compare : α → α → Ordering) (elite candidates : List α) (capacity : Nat) : Nat :=
  min candidates.length (max (inserted compare elite candidates)
    (capacity - (elite.length + inserted compare elite candidates)))

/-- **A refresh is a merge** with the candidates that take part, cut to the capacity. -/
theorem refresh_eq_merge_take (compare : α → α → Ordering) (elite candidates : List α)
    (capacity : Nat) :
    refresh compare elite candidates capacity
      = (List.merge elite (candidates.take (reach compare elite candidates capacity))
          (keeps compare)).take capacity := by
  have hle := inserted_le compare elite candidates
  have hreach : inserted compare elite candidates ≤ reach compare elite candidates capacity := by
    rw [reach]
    omega
  rw [← merge_eq, merge_take hreach, List.drop_take]
  simp only [refresh, merge_snd, length_merge_fst, List.length_drop]
  congr 2
  refine List.take_eq_take_iff.mpr ?_
  rw [List.length_drop, reach]
  omega

theorem refresh_take (compare : α → α → Ordering) (elite candidates : List α) (capacity : Nat) :
    refresh compare elite (candidates.take capacity) capacity
      = refresh compare elite candidates capacity := by
  have hle := inserted_le compare elite candidates
  rw [refresh_eq_merge_take, refresh_eq_merge_take, take_merge, List.take_take, List.take_take,
    take_merge (keeps compare) capacity elite (candidates.take _), List.take_take]
  refine congrArg (fun taken =>
    (List.merge (elite.take capacity) taken (keeps compare)).take capacity) ?_
  refine List.take_eq_take_iff.mpr ?_
  rw [reach, reach, inserted_take, List.length_take]
  omega

theorem refresh_eq_take_of_inserted (hnone : inserted compare elite candidates = 0)
    (capacity : Nat) :
    refresh compare elite candidates capacity
      = (List.merge elite candidates (keeps compare)).take capacity := by
  rw [← merge_eq]
  simp only [refresh, merge_snd, length_merge_fst, hnone, List.drop_zero, Nat.sub_self,
    Nat.sub_zero, Nat.add_zero]
  rw [List.take_append, List.take_append, length_merge_fst, hnone, Nat.add_zero, List.take_take,
    Nat.min_self]

/-! ## Ordered lists -/

/-- **The number of candidates better than the last member** of the elite, none if the elite is
empty. -/
def overtaking (compare : α → α → Ordering) (elite candidates : List α) : Nat :=
  elite.getLast?.elim 0 fun last => candidates.countP (beats compare · last)

theorem overtaking_eq_zero
    (hnone : ∀ last ∈ elite.getLast?, ∀ c ∈ candidates, compare c last ≠ .lt) :
    overtaking compare elite candidates = 0 := by
  unfold overtaking
  rcases hlast : elite.getLast? with _ | last
  · rfl
  · refine List.countP_eq_zero.mpr fun c hc hbeats => hnone last hlast c hc ?_
    rwa [beats, beq_iff_eq] at hbeats

section
variable (h : TotalPreorderOn compare P)
include h

/-- In an ordered list the items that beat another one come first. -/
theorem length_takeWhile_beats (hm : P m) (hc : ∀ c ∈ candidates, P c)
    (ho : candidates.Pairwise fun x y => compare x y ≠ .gt) :
    (candidates.takeWhile (beats compare · m)).length = candidates.countP (beats compare · m) := by
  induction candidates with
  | nil => rfl
  | cons c candidates ih =>
    have hP : P c := hc c (by simp)
    have hc' : ∀ x ∈ candidates, P x := fun x hx => hc x (by simp [hx])
    rw [List.pairwise_cons] at ho
    by_cases hb : beats compare c m = true
    · rw [List.takeWhile_cons, if_pos hb, List.countP_cons, if_pos hb, List.length_cons, ih hc' ho.2]
    · have hnone : candidates.countP (beats compare · m) = 0 := by
        refine List.countP_eq_zero.mpr fun x hx hxm => hb ?_
        rw [beats, beq_iff_eq] at hxm ⊢
        exact h.lt_of_ne_gt_of_lt hP (hc' x hx) hm (ho.1 x hx) hxm
      rw [List.takeWhile_cons, if_neg hb, List.countP_cons, if_neg hb, hnone, List.length_nil]

/-- In ordered lists the walk inserts the candidates that beat the last member. -/
theorem inserted_eq (he : ∀ x ∈ elite, P x) (hc : ∀ x ∈ candidates, P x)
    (heo : elite.Pairwise fun x y => compare x y ≠ .gt)
    (hco : candidates.Pairwise fun x y => compare x y ≠ .gt) :
    inserted compare elite candidates = overtaking compare elite candidates := by
  induction elite generalizing candidates with
  | nil => rfl
  | cons m elite ih =>
    have hm : P m := he m (by simp)
    have he' : ∀ x ∈ elite, P x := fun x hx => he x (by simp [hx])
    rw [List.pairwise_cons] at heo
    obtain _ | ⟨m', elite⟩ := elite
    · exact length_takeWhile_beats h hm hc hco
    · -- the candidates in front of `m` beat the last member too, which is not better than `m`
      have hsub := List.dropWhile_sublist (l := candidates) (beats compare · m)
      have hrest := ih he' (fun x hx => hc x (hsub.subset hx)) heo.2 (hco.sublist hsub)
      obtain ⟨last, hlast⟩ : ∃ last, (m' :: elite).getLast? = some last :=
        ⟨_, List.getLast?_cons⟩
      have hmem : last ∈ m' :: elite := List.mem_of_getLast? hlast
      have hfront : (candidates.takeWhile (beats compare · m)).countP (beats compare · last)
          = (candidates.takeWhile (beats compare · m)).length := by
        refine List.countP_eq_length.mpr fun c hcm => ?_
        have hbeats : beats compare c m = true := List.all_eq_true.mp List.all_takeWhile c hcm
        rw [beats, beq_iff_eq] at hbeats ⊢
        have hcP : P c := hc c ((List.takeWhile_sublist _).subset hcm)
        exact h.lt_of_lt_of_ne_gt hcP hm (he' _ hmem) hbeats (heo.1 _ hmem)
      simp only [overtaking, List.getLast?_cons_cons, hlast, Option.elim_some] at hrest ⊢
      rw [inserted, hrest, ← hfront, ← List.countP_append, List.takeWhile_append_dropWhile]

omit h in
theorem isStableSort_self {items : List α} (ho : items.Pairwise fun x y => compare x y ≠ .gt) :
    IsStableSort compare items items :=
  ⟨List.Perm.refl items, ho, fun _ _ => rfl⟩

/-- **An ordered elite refreshed with ordered candidates** is the top of a stable sort of the elite
and the candidates that take part. -/
theorem refresh_isStableSort (he : ∀ x ∈ elite, P x) (hc : ∀ x ∈ candidates, P x)
    (heo : elite.Pairwise fun x y => compare x y ≠ .gt)
    (hco : candidates.Pairwise fun x y => compare x y ≠ .gt) (capacity : Nat) :
    ∃ sorted, IsStableSort compare
        (elite ++ candidates.take (reach compare elite candidates capacity)) sorted ∧
      refresh compare elite candidates capacity = sorted.take capacity := by
  refine ⟨_, ?_, refresh_eq_merge_take compare elite candidates capacity⟩
  exact IsStableSort.merge h he (fun x hx => hc x (List.mem_of_mem_take hx))
    (isStableSort_self heo) (isStableSort_self (hco.sublist (List.take_sublist _ _)))

/-- **A full elite, or one that no candidate overtakes**, is refreshed to the top of a stable sort of
the elite and all candidates. -/
theorem refresh_isStableSort_all (he : ∀ x ∈ elite, P x) (hc : ∀ x ∈ candidates, P x)
    (heo : elite.Pairwise fun x y => compare x y ≠ .gt)
    (hco : candidates.Pairwise fun x y => compare x y ≠ .gt) {capacity : Nat}
    (hfull : capacity ≤ elite.length ∨ inserted compare elite candidates = 0) :
    ∃ sorted, IsStableSort compare (elite ++ candidates) sorted ∧
      refresh compare elite candidates capacity = sorted.take capacity := by
  refine ⟨_, IsStableSort.merge h he hc (isStableSort_self heo) (isStableSort_self hco), ?_⟩
  rcases hfull with hlen | hnone
  · exact refresh_eq_take hlen
  · exact refresh_eq_take_of_inserted hnone capacity

end

end Metaheuristics.Elite
