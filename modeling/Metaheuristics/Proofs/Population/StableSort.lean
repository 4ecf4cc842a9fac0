import Metaheuristics.Population.Ranking
import Metaheuristics.Proofs.Population.Preorder

/-!
# Ranking is a stable sort

A stable sort of some items is a rearrangement from best to worst in which items that tie keep their
order (`IsStableSort`).

* `eq_of_ordered`: on a total preorder there is only one.
* `sort_isStableSort`: `Ranking.sort` is it.
* `head?_sort`: the first of the sorted items is found by going through the items once and
  keeping the better one, the earlier one of equals.
* `sort_map`: sorting commutes with every map that the comparison does not notice.
* `Sorting.sort?_eq`: a machine sorts by a total preorder, and by other comparisons as if they were
  one, unless it refuses them.
-/

namespace Metaheuristics

namespace Ranking

variable {α β : Type}

/-- Whether two items tie. -/
def ties (compare : α → α → Ordering) (x y : α) : Bool := compare x y == .eq

/-- **A stable sort** of some items. -/
structure IsStableSort (compare : α → α → Ordering) (items sorted : List α) : Prop where
  perm : sorted.Perm items
  ordered : sorted.Pairwise fun x y => compare x y ≠ .gt
  stable : ∀ x ∈ items, sorted.filter (ties compare x) = items.filter (ties compare x)

variable {compare : α → α → Ordering} {P : α → Prop} (h : TotalPreorderOn compare P)

/-! ## There is only one -/

section
include h

/-- **Order and ties fix a list**: two rearrangements of each other that run from best to worst, and
have the same items in the same order among those that tie, are equal. -/
theorem eq_of_ordered {s t : List α} (hP : ∀ x ∈ s, P x) (hst : s.Perm t)
    (hs : s.Pairwise fun x y => compare x y ≠ .gt) (ht : t.Pairwise fun x y => compare x y ≠ .gt)
    (hf : ∀ x ∈ s, s.filter (ties compare x) = t.filter (ties compare x)) : s = t := by
  induction s generalizing t with
  | nil => exact hst.nil_eq
  | cons a s ih =>
    obtain _ | ⟨b, t⟩ := t
    · exact absurd hst.eq_nil (by simp)
    have ha : P a := hP a (by simp)
    have hb : P b := hP b (hst.mem_iff.mpr (by simp))
    rw [List.pairwise_cons] at hs ht
    -- each head is not worse than the other one, so they tie and head the same filtered list
    have hab : compare a b ≠ .gt := by
      rcases List.mem_cons.mp (hst.mem_iff.mpr (List.mem_cons_self (a := b))) with he | hm
      · rw [he, h.refl ha]; decide
      · exact hs.1 b hm
    have hba : compare b a ≠ .gt := by
      rcases List.mem_cons.mp (hst.mem_iff.mp (List.mem_cons_self (a := a))) with he | hm
      · rw [← he, h.refl ha]; decide
      · exact ht.1 a hm
    have hhead := hf a (by simp)
    rw [List.filter_cons_of_pos (by simp [ties, h.refl ha]),
      List.filter_cons_of_pos (by simp [ties, h.eq_of_ne_gt ha hb hab hba])] at hhead
    obtain rfl : a = b := (List.cons.inj hhead).1
    have hP' : ∀ x ∈ s, P x := fun x hx => hP x (by simp [hx])
    refine congrArg (a :: ·) (ih hP' hst.cons_inv hs.2 ht.2 ?_)
    intro x hx
    have hx' := hf x (by simp [hx])
    by_cases hxa : ties compare x a = true
    · rw [List.filter_cons_of_pos hxa, List.filter_cons_of_pos hxa] at hx'
      exact (List.cons.inj hx').2
    · rwa [List.filter_cons_of_neg hxa, List.filter_cons_of_neg hxa] at hx'

theorem IsStableSort.unique {items s t : List α} (hP : ∀ x ∈ items, P x)
    (hs : IsStableSort compare items s) (ht : IsStableSort compare items t) : s = t := by
  refine eq_of_ordered h (fun x hx => hP x (hs.perm.mem_iff.mp hx)) (hs.perm.trans ht.perm.symm)
    hs.ordered ht.ordered fun x hx => ?_
  have hx' : x ∈ items := hs.perm.mem_iff.mp hx
  rw [hs.stable x hx', ht.stable x hx']

end

/-! ## Insertion -/

theorem mem_insertWorstFirst {x z : α} {w : List α} :
    z ∈ insertWorstFirst compare x w ↔ z = x ∨ z ∈ w := by
  rw [(insertWorstFirst_perm compare x w).mem_iff, List.mem_cons]

theorem forall_mem_insertWorstFirst {x : α} {w : List α} (hx : P x) (hw : ∀ y ∈ w, P y) :
    ∀ y ∈ insertWorstFirst compare x w, P y := by
  intro y hy
  rcases mem_insertWorstFirst.mp hy with rfl | hy
  · exact hx
  · exact hw y hy

section
include h

theorem insertWorstFirst_ordered {x : α} {w : List α} (hx : P x) (hw : ∀ y ∈ w, P y)
    (ho : w.Pairwise fun y z => compare z y ≠ .gt) :
    (insertWorstFirst compare x w).Pairwise fun y z => compare z y ≠ .gt := by
  induction w with
  | nil => exact List.pairwise_singleton _ _
  | cons y w ih =>
    have hy : P y := hw y (by simp)
    have hw' : ∀ z ∈ w, P z := fun z hz => hw z (by simp [hz])
    rw [List.pairwise_cons] at ho
    by_cases hc : compare x y = .lt
    · rw [show insertWorstFirst compare x (y :: w) = y :: insertWorstFirst compare x w by
        simp [insertWorstFirst, hc], List.pairwise_cons]
      refine ⟨fun z hz => ?_, ih hw' ho.2⟩
      rcases mem_insertWorstFirst.mp hz with rfl | hz
      · exact TotalPreorderOn.ne_gt_of_lt hc
      · exact ho.1 z hz
    · rw [show insertWorstFirst compare x (y :: w) = x :: y :: w by
        cases hxy : compare x y <;> simp_all [insertWorstFirst], List.pairwise_cons]
      have hyx : compare y x ≠ .gt := (h.ne_gt_iff hy hx).mpr hc
      refine ⟨fun z hz => ?_, List.pairwise_cons.mpr ho⟩
      rcases List.mem_cons.mp hz with rfl | hz
      · exact hyx
      · exact h.trans z y x (hw' z hz) hy hx (ho.1 z hz) hyx

/-- Among the items that tie with `a`, the new one comes first: those it passes are worse. -/
theorem filter_insertWorstFirst {a x : α} {w : List α} (ha : P a) (hx : P x) (hw : ∀ y ∈ w, P y) :
    (insertWorstFirst compare x w).filter (ties compare a) = (x :: w).filter (ties compare a) := by
  induction w with
  | nil => rfl
  | cons y w ih =>
    have hy : P y := hw y (by simp)
    unfold insertWorstFirst
    split
    next hc =>
      rw [List.filter_cons, ih fun z hz => hw z (by simp [hz])]
      by_cases hax : compare a x = .eq
      · have hay : compare a y = .lt := h.lt_of_ne_gt_of_lt ha hx hy (by rw [hax]; decide) hc
        simp [ties, hax, hay]
      · simp [ties, hax, List.filter_cons]
    next => rfl

theorem getLast?_insertWorstFirst {x m : α} {w : List α} (hx : P x) (hw : ∀ y ∈ w, P y)
    (ho : w.Pairwise fun y z => compare z y ≠ .gt) (hm : w.getLast? = some m) :
    (insertWorstFirst compare x w).getLast? = some (preferred compare m x) := by
  induction w with
  | nil => cases hm
  | cons y w ih =>
    have hy : P y := hw y (by simp)
    have hw' : ∀ z ∈ w, P z := fun z hz => hw z (by simp [hz])
    rw [List.pairwise_cons] at ho
    by_cases hc : compare x y = .lt
    · rw [show insertWorstFirst compare x (y :: w) = y :: insertWorstFirst compare x w by
        simp [insertWorstFirst, hc]]
      obtain _ | ⟨z, w⟩ := w
      · obtain rfl : y = m := Option.some.inj hm
        simp [insertWorstFirst, preferred, hc]
      · have hlast := ih hw' ho.2 (by simpa using hm)
        rw [List.getLast?_cons, hlast, Option.getD_some]
    · rw [show insertWorstFirst compare x (y :: w) = x :: y :: w by
        cases hxy : compare x y <;> simp_all [insertWorstFirst]]
      have hmy : compare m y ≠ .gt := by
        rcases List.mem_cons.mp (List.mem_of_getLast? hm) with rfl | hz
        · rw [h.refl hy]; decide
        · exact ho.1 m hz
      have hxm : ¬ compare x m = .lt := fun hlt =>
        hc (h.lt_of_lt_of_ne_gt hx (hw m (List.mem_of_getLast? hm)) hy hlt hmy)
      rw [List.getLast?_cons, hm, Option.getD_some, preferred, if_neg hxm]

end

/-! ## Sorting -/

theorem mem_sort {x : α} {items : List α} : x ∈ sort compare items ↔ x ∈ items :=
  (sort_perm compare items).mem_iff

section
include h

theorem foldl_insertWorstFirst_ordered {items w : List α} (hi : ∀ x ∈ items, P x)
    (hw : ∀ y ∈ w, P y) (ho : w.Pairwise fun y z => compare z y ≠ .gt) :
    (items.foldl (fun sorted x => insertWorstFirst compare x sorted) w).Pairwise
      fun y z => compare z y ≠ .gt := by
  induction items generalizing w with
  | nil => exact ho
  | cons x items ih =>
    have hx : P x := hi x (by simp)
    have hi' : ∀ z ∈ items, P z := fun z hz => hi z (by simp [hz])
    have hw' : ∀ z ∈ insertWorstFirst compare x w, P z := forall_mem_insertWorstFirst hx hw
    exact ih hi' hw' (insertWorstFirst_ordered h hx hw ho)

theorem filter_foldl_insertWorstFirst {a : α} {items w : List α} (ha : P a)
    (hi : ∀ x ∈ items, P x) (hw : ∀ y ∈ w, P y) :
    (items.foldl (fun sorted x => insertWorstFirst compare x sorted) w).filter (ties compare a)
      = (items.reverse ++ w).filter (ties compare a) := by
  induction items generalizing w with
  | nil => rfl
  | cons x items ih =>
    have hx : P x := hi x (by simp)
    have hi' : ∀ z ∈ items, P z := fun z hz => hi z (by simp [hz])
    have hw' : ∀ z ∈ insertWorstFirst compare x w, P z := forall_mem_insertWorstFirst hx hw
    rw [List.foldl_cons, ih hi' hw', List.filter_append, filter_insertWorstFirst h ha hx hw,
      ← List.filter_append, List.reverse_cons, List.append_assoc, List.singleton_append]

/-- **Ranking sorts stably.** -/
theorem sort_isStableSort {items : List α} (hP : ∀ x ∈ items, P x) :
    IsStableSort compare items (sort compare items) := by
  refine ⟨sort_perm compare items, ?_, fun x hx => ?_⟩
  · rw [sort, List.pairwise_reverse]
    exact foldl_insertWorstFirst_ordered h hP (by simp) List.Pairwise.nil
  · rw [sort, List.filter_reverse, filter_foldl_insertWorstFirst h (hP x hx) hP (by simp),
      List.append_nil, ← List.filter_reverse, List.reverse_reverse]

theorem getLast?_foldl_insertWorstFirst {m : α} {items w : List α} (hi : ∀ x ∈ items, P x)
    (hw : ∀ y ∈ w, P y) (ho : w.Pairwise fun y z => compare z y ≠ .gt)
    (hm : w.getLast? = some m) :
    (items.foldl (fun sorted x => insertWorstFirst compare x sorted) w).getLast?
      = some (items.foldl (preferred compare) m) := by
  induction items generalizing w m with
  | nil => exact hm
  | cons x items ih =>
    have hx : P x := hi x (by simp)
    have hi' : ∀ z ∈ items, P z := fun z hz => hi z (by simp [hz])
    have hw' : ∀ z ∈ insertWorstFirst compare x w, P z := forall_mem_insertWorstFirst hx hw
    have ho' := insertWorstFirst_ordered h hx hw ho
    exact ih hi' hw' ho' (getLast?_insertWorstFirst h hx hw ho hm)

/-- **The best item** is found by keeping the better of two, the earlier one of equals. -/
theorem head?_sort {a : α} {items : List α} (hP : ∀ x ∈ a :: items, P x) :
    (sort compare (a :: items)).head? = some (items.foldl (preferred compare) a) := by
  rw [sort, List.head?_reverse]
  have hitems : ∀ x ∈ items, P x := fun x hx => hP x (by simp [hx])
  have ha : ∀ x ∈ [a], P x := by simpa using hP a (by simp)
  exact getLast?_foldl_insertWorstFirst h hitems ha (List.pairwise_singleton _ _) rfl

theorem head?_sort_le {m : α} {items : List α} (hP : ∀ x ∈ items, P x)
    (hm : (sort compare items).head? = some m) {x : α} (hx : x ∈ items) : compare m x ≠ .gt := by
  obtain ⟨rest, hs⟩ : ∃ rest, sort compare items = m :: rest := List.head?_eq_some_iff.mp hm
  have ho := (sort_isStableSort h hP).ordered
  rw [hs, List.pairwise_cons] at ho
  rcases List.mem_cons.mp (hs ▸ mem_sort.mpr hx) with rfl | hx'
  · rw [h.refl (hP x hx)]; decide
  · exact ho.1 x hx'

end

/-! ## Maps -/

theorem insertWorstFirst_map {compare' : β → β → Ordering} {f : α → β}
    (hf : ∀ x y, compare' (f x) (f y) = compare x y) (x : α) (w : List α) :
    insertWorstFirst compare' (f x) (w.map f) = (insertWorstFirst compare x w).map f := by
  induction w with
  | nil => rfl
  | cons y w ih =>
    simp only [List.map_cons, insertWorstFirst, hf]
    split
    · rw [List.map_cons, ih]
    · rfl

theorem sort_map {compare' : β → β → Ordering} {f : α → β}
    (hf : ∀ x y, compare' (f x) (f y) = compare x y) (items : List α) :
    sort compare' (items.map f) = (sort compare items).map f := by
  have hfold : ∀ w : List α, (items.map f).foldl
      (fun sorted x => insertWorstFirst compare' x sorted) (w.map f)
        = (items.foldl (fun sorted x => insertWorstFirst compare x sorted) w).map f := by
    induction items with
    | nil => exact fun w => rfl
    | cons x items ih =>
      intro w
      rw [List.map_cons, List.foldl_cons, List.foldl_cons, insertWorstFirst_map hf, ih]
  rw [sort, sort, ← List.map_nil (f := f), hfold, List.map_reverse]

/-! ## Places -/

theorem byPlace_eq {items : List α} {i j : Nat} (hi : i < items.length) (hj : j < items.length) :
    byPlace compare items i j = compare items[i] items[j] := by
  simp only [byPlace, List.getElem?_eq_getElem hi, List.getElem?_eq_getElem hj]
  rfl

theorem byPlace_map {compare' : β → β → Ordering} {f : α → β}
    (hf : ∀ x y, compare' (f x) (f y) = compare x y) (items : List α) :
    byPlace compare' (items.map f) = byPlace compare items := by
  funext i j
  simp only [byPlace, List.getElem?_map]
  rcases items[i]? with _ | x
  · rfl
  · rcases items[j]? with _ | y
    · rfl
    · exact hf x y

theorem byPlace_totalPreorder {items : List α} (h : TotalPreorderOn compare (· ∈ items)) :
    TotalPreorderOn (byPlace compare items) (· < items.length) := by
  refine ⟨fun i j hi hj => ?_, fun i j k hi hj hk => ?_⟩
  · rw [byPlace_eq hi hj, byPlace_eq hj hi]
    exact h.swap _ _ (List.getElem_mem hi) (List.getElem_mem hj)
  · rw [byPlace_eq hi hj, byPlace_eq hj hk, byPlace_eq hi hk]
    exact h.trans _ _ _ (List.getElem_mem hi) (List.getElem_mem hj) (List.getElem_mem hk)

end Ranking

/-! ## Machines -/

namespace Sorting

variable {α β : Type} {compare : α → α → Ordering} {items sorted : List α} {sorting : Sorting}

/-- A machine sorts by a total preorder. -/
theorem sort?_eq (h : TotalPreorderOn compare (· ∈ items)) :
    sorting.sort? compare items = some (Ranking.sort compare items) := by
  have hrefuses := sorting.sorts _ _ (Ranking.byPlace_totalPreorder h)
  unfold sort?
  rw [hrefuses]
  rfl

theorem eq_of_sort? (h : sorting.sort? compare items = some sorted) :
    sorted = Ranking.sort compare items := by
  unfold sort? at h
  split at h
  · cases h
  · exact (Option.some.inj h).symm

theorem sort?_map {compare' : β → β → Ordering} {f : α → β}
    (hf : ∀ x y, compare' (f x) (f y) = compare x y) (items : List α) :
    sorting.sort? compare' (items.map f) = (sorting.sort? compare items).map (List.map f) := by
  unfold sort?
  rw [List.length_map, Ranking.byPlace_map hf, Ranking.sort_map hf]
  split <;> rfl

end Sorting

end Metaheuristics
