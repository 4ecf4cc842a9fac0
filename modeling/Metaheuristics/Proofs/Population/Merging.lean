import Metaheuristics.Proofs.Population.Cursors
import Metaheuristics.Proofs.Population.StableSort

/-!
# The elite is the top of everything seen

The walk of `Elite.merge`, with what it leaves over behind it, is the ordinary merge of two lists in
which a member of the elite goes before a candidate unless the candidate beats it (`merge_eq`).

* `IsStableSort.merge`: merging stable sorts of two lists is a stable sort of both.
* `take_merge`: only the first `k` of each list have a part in the first `k` of the merged one.
* `refresh_eq_take`: an elite as long as its capacity is refreshed to the top of the merged lists.
* `refresh_take_sort`: hence the top of all items, refreshed with the top of some new ones, is the
  top of all of them together.
* `head?_refresh`: the first of the elite is the better one of its first and the first candidate.
-/

namespace Metaheuristics.Elite

open Ranking

variable {α β : Type}

/-- Whether a member of the elite goes before a candidate. -/
def keeps (compare : α → α → Ordering) (member candidate : α) : Bool :=
  !beats compare candidate member

variable {compare : α → α → Ordering} {P : α → Prop}

theorem keeps_eq_false {m c : α} : keeps compare m c = false ↔ compare c m = .lt := by
  simp [keeps, beats]

/-! ## The merged list -/

theorem merge_eq (elite candidates : List α) :
    (merge compare elite candidates).1 ++ (merge compare elite candidates).2
      = List.merge elite candidates (keeps compare) := by
  induction elite generalizing candidates with
  | nil => rw [List.nil_merge]; rfl
  | cons m elite ih =>
    simp only [merge, List.append_assoc, List.cons_append, ih]
    induction candidates with
    | nil => simp
    | cons c candidates ihc =>
      by_cases hb : beats compare c m = true
      · rw [List.cons_merge_cons_neg _ _ _ (by simp [keeps, hb]), ← ihc]
        simp [hb]
      · rw [List.cons_merge_cons_pos _ _ _ (by simpa [keeps] using hb)]
        simp [hb]

theorem length_merge_le (compare : α → α → Ordering) (elite candidates : List α) :
    elite.length ≤ (merge compare elite candidates).1.length := by
  induction elite generalizing candidates with
  | nil => simp
  | cons m elite ih =>
    simp only [merge, List.length_append, List.length_cons]
    have := ih (candidates.dropWhile (beats compare · m))
    omega

section
variable (h : TotalPreorderOn compare P)
include h

/-- A merged list is in order. -/
theorem merge_ordered {s t : List α} (hs : ∀ x ∈ s, P x) (ht : ∀ x ∈ t, P x)
    (hso : s.Pairwise fun x y => compare x y ≠ .gt)
    (hto : t.Pairwise fun x y => compare x y ≠ .gt) :
    (List.merge s t (keeps compare)).Pairwise fun x y => compare x y ≠ .gt := by
  induction s generalizing t with
  | nil => rwa [List.nil_merge]
  | cons m s ihs =>
    induction t with
    | nil => rwa [List.merge_right]
    | cons c t iht =>
      have hm : P m := hs m (by simp)
      have hc : P c := ht c (by simp)
      have hs' : ∀ x ∈ s, P x := fun x hx => hs x (by simp [hx])
      have ht' : ∀ x ∈ t, P x := fun x hx => ht x (by simp [hx])
      rw [List.pairwise_cons] at hso
      have hto' := List.pairwise_cons.mp hto
      by_cases hb : compare c m = .lt
      · rw [List.cons_merge_cons_neg _ _ _ (by simp [keeps_eq_false.mpr hb]), List.pairwise_cons]
        refine ⟨fun x hx => ?_, iht ht' hto'.2⟩
        rcases List.mem_append.mp ((List.merge_perm_append _).mem_iff.mp hx) with hx | hx
        · rcases List.mem_cons.mp hx with rfl | hx
          · exact TotalPreorderOn.ne_gt_of_lt hb
          · have hcm : compare c m ≠ .gt := TotalPreorderOn.ne_gt_of_lt hb
            exact h.trans c m x hc hm (hs' x hx) hcm (hso.1 x hx)
        · exact hto'.1 x hx
      · have hmc : compare m c ≠ .gt := (h.ne_gt_iff hm hc).mpr hb
        rw [List.cons_merge_cons_pos _ _ _ (by simp [keeps, beats, hb]), List.pairwise_cons]
        refine ⟨fun x hx => ?_, ihs hs' ht hso.2 hto⟩
        rcases List.mem_append.mp ((List.merge_perm_append _).mem_iff.mp hx) with hx | hx
        · exact hso.1 x hx
        · rcases List.mem_cons.mp hx with rfl | hx
          · exact hmc
          · exact h.trans m c x hm hc (ht' x hx) hmc (hto'.1 x hx)

/-- Among the items that tie with `a`, those of the left list come first: a candidate that passes a
member of an ordered elite ties with nothing behind it. -/
theorem filter_merge {a : α} {s t : List α} (ha : P a) (hs : ∀ x ∈ s, P x) (ht : ∀ x ∈ t, P x)
    (hso : s.Pairwise fun x y => compare x y ≠ .gt) :
    (List.merge s t (keeps compare)).filter (ties compare a)
      = s.filter (ties compare a) ++ t.filter (ties compare a) := by
  induction s generalizing t with
  | nil => rw [List.nil_merge]; rfl
  | cons m s ihs =>
    have hm : P m := hs m (by simp)
    have hs' : ∀ x ∈ s, P x := fun x hx => hs x (by simp [hx])
    have hso' := List.pairwise_cons.mp hso
    induction t with
    | nil => simp
    | cons c t iht =>
      have hc : P c := ht c (by simp)
      have ht' : ∀ x ∈ t, P x := fun x hx => ht x (by simp [hx])
      by_cases hb : compare c m = .lt
      · rw [List.cons_merge_cons_neg _ _ _ (by simp [keeps_eq_false.mpr hb]), List.filter_cons,
          iht ht', List.filter_cons (x := c)]
        by_cases hac : ties compare a c = true
        · have hac' : compare a c ≠ .gt := by
            rw [show compare a c = .eq by simpa [ties] using hac]; decide
          have hnone : (m :: s).filter (ties compare a) = [] := by
            refine List.filter_eq_nil_iff.mpr fun x hx => ?_
            have hcx : compare c x = .lt := by
              rcases List.mem_cons.mp hx with rfl | hx
              · exact hb
              · exact h.lt_of_lt_of_ne_gt hc hm (hs' x hx) hb (hso'.1 x hx)
            simp [ties, h.lt_of_ne_gt_of_lt ha hc (hs x hx) hac' hcx]
          rw [hnone, if_pos hac, if_pos hac]; rfl
        · rw [if_neg hac, if_neg hac]
      · rw [List.cons_merge_cons_pos _ _ _ (by simp [keeps, beats, hb]), List.filter_cons,
          ihs hs' ht hso'.2, List.filter_cons (x := m)]
        split_ifs <;> rfl

theorem IsStableSort.merge {items items' s t : List α} (hP : ∀ x ∈ items, P x)
    (hP' : ∀ x ∈ items', P x) (hs : IsStableSort compare items s)
    (ht : IsStableSort compare items' t) :
    IsStableSort compare (items ++ items') (List.merge s t (keeps compare)) := by
  have hsP : ∀ x ∈ s, P x := fun x hx => hP x (hs.perm.mem_iff.mp hx)
  have htP : ∀ x ∈ t, P x := fun x hx => hP' x (ht.perm.mem_iff.mp hx)
  -- an item of one list may tie with nothing in the other one
  have hstable {l u : List α} (hl : IsStableSort compare l u) (hlP : ∀ x ∈ l, P x) {a : α}
      (ha : P a) : u.filter (ties compare a) = l.filter (ties compare a) := by
    by_cases hex : ∃ b ∈ l, ties compare a b = true
    · obtain ⟨b, hb, hab⟩ := hex
      have heq : ∀ x ∈ l, ties compare a x = ties compare b x := fun x hx => by
        have hab' : compare a b = .eq := by simpa [ties] using hab
        rw [Bool.eq_iff_iff]
        simp only [ties, beq_iff_eq]
        exact h.eq_iff_of_eq ha (hlP b hb) (hlP x hx) hab'
      rw [List.filter_congr fun x hx => heq x (hl.perm.mem_iff.mp hx), hl.stable b hb,
        List.filter_congr heq]
    · push Not at hex
      rw [List.filter_eq_nil_iff.mpr fun x hx => hex x (hl.perm.mem_iff.mp hx),
        List.filter_eq_nil_iff.mpr fun x hx => hex x hx]
  refine ⟨(List.merge_perm_append _).trans (hs.perm.append ht.perm),
    merge_ordered h hsP htP hs.ordered ht.ordered, fun a ha => ?_⟩
  have ha' : P a := (List.mem_append.mp ha).elim (hP a) (hP' a)
  rw [filter_merge h ha' hsP htP hs.ordered, List.filter_append, hstable hs hP ha',
    hstable ht hP' ha']

theorem merge_sort {items items' : List α} (hP : ∀ x ∈ items, P x) (hP' : ∀ x ∈ items', P x) :
    List.merge (sort compare items) (sort compare items') (keeps compare)
      = sort compare (items ++ items') := by
  have happ : ∀ x ∈ items ++ items', P x := fun x hx =>
    (List.mem_append.mp hx).elim (hP x) (hP' x)
  have hs := sort_isStableSort h hP
  have ht := sort_isStableSort h hP'
  have hmerge := IsStableSort.merge h hP hP' hs ht
  exact hmerge.unique h happ (sort_isStableSort h happ)

end

/-! ## Cutting -/

/-- Cutting commutes with merging, whatever is compared. -/
theorem take_merge (le : α → α → Bool) (k : Nat) (s t : List α) :
    (List.merge s t le).take k = (List.merge (s.take k) (t.take k) le).take k := by
  induction k generalizing s t with
  | zero => rfl
  | succ k ih =>
    obtain _ | ⟨m, s⟩ := s
    · simp [List.take_take]
    obtain _ | ⟨c, t⟩ := t
    · simp [List.take_take]
    rw [List.take_succ_cons, List.take_succ_cons]
    by_cases hle : le m c = true
    · rw [List.cons_merge_cons_pos _ _ _ hle, List.cons_merge_cons_pos _ _ _ hle,
        List.take_succ_cons, List.take_succ_cons, ih s (c :: t), ih (s.take k) (c :: t.take k)]
      obtain _ | k := k <;> simp [List.take_take]
    · rw [List.cons_merge_cons_neg _ _ _ hle, List.cons_merge_cons_neg _ _ _ hle,
        List.take_succ_cons, List.take_succ_cons, ih (m :: s) t, ih (m :: s.take k) (t.take k)]
      obtain _ | k := k <;> simp [List.take_take]

theorem mem_of_mem_refresh {x : α} {elite candidates : List α} {capacity : Nat}
    (hx : x ∈ refresh compare elite candidates capacity) : x ∈ elite ∨ x ∈ candidates := by
  have hx := List.mem_of_mem_take hx
  refine List.mem_append.mp ((merge_perm compare elite candidates).mem_iff.mp ?_)
  refine List.mem_append.mpr ((List.mem_append.mp hx).imp_right List.mem_of_mem_take)

/-- **A full elite is refreshed to the top of the merged lists.** -/
theorem refresh_eq_take {elite candidates : List α} {capacity : Nat}
    (hfull : capacity ≤ elite.length) :
    refresh compare elite candidates capacity
      = (List.merge elite candidates (keeps compare)).take capacity := by
  have hlen := length_merge_le compare elite candidates
  rw [← merge_eq, List.take_append_of_le_length (Nat.le_trans hfull hlen)]
  simp only [refresh]
  rw [show capacity - (merge compare elite candidates).1.length
      - (candidates.length - (merge compare elite candidates).2.length) = 0 by omega,
    List.take_zero, List.append_nil]

/-- **The top of all items stays the top** when it is refreshed with the top of some more. -/
theorem refresh_take_sort (h : TotalPreorderOn compare P) {items items' : List α} {capacity : Nat}
    (hfull : capacity ≤ items.length) (hP : ∀ x ∈ items, P x) (hP' : ∀ x ∈ items', P x) :
    refresh compare ((sort compare items).take capacity) ((sort compare items').take capacity)
        capacity
      = (sort compare (items ++ items')).take capacity := by
  rw [refresh_eq_take (by rw [List.length_take, length_sort]; omega), ← take_merge,
    merge_sort h hP hP']

/-! ## The first of the elite -/

theorem head?_refresh {m c : α} {elite candidates : List α} {capacity : Nat} (hc : 0 < capacity) :
    (refresh compare (m :: elite) (c :: candidates) capacity).head?
      = some (preferred compare m c) := by
  simp only [refresh, merge, List.head?_take, if_neg (Nat.ne_of_gt hc), List.append_assoc]
  by_cases hb : compare c m = .lt
  · rw [List.takeWhile_cons_of_pos (by simp [beats, hb])]
    simp [preferred, hb]
  · rw [List.takeWhile_cons_of_neg (by simp [beats, hb])]
    simp [preferred, hb]

theorem head?_refresh_nil {m : α} {elite : List α} {capacity : Nat} (hc : 0 < capacity) :
    (refresh compare (m :: elite) [] capacity).head? = some m := by
  simp only [refresh, merge, List.head?_take, if_neg (Nat.ne_of_gt hc), List.append_assoc]
  simp

/-! ## Maps -/

theorem merge_map {compare' : β → β → Ordering} {f : α → β}
    (hf : ∀ x y, compare' (f x) (f y) = compare x y) (elite candidates : List α) :
    merge compare' (elite.map f) (candidates.map f)
      = ((merge compare elite candidates).1.map f, (merge compare elite candidates).2.map f) := by
  induction elite generalizing candidates with
  | nil => rfl
  | cons m elite ih =>
    have hbeats : (fun c => beats compare' c (f m)) ∘ f = fun c => beats compare c m := by
      funext c; simp [beats, hf]
    simp only [List.map_cons, merge, List.takeWhile_map, List.dropWhile_map, hbeats, ih,
      List.map_append]

theorem refresh_map {compare' : β → β → Ordering} {f : α → β}
    (hf : ∀ x y, compare' (f x) (f y) = compare x y) (elite candidates : List α) (capacity : Nat) :
    refresh compare' (elite.map f) (candidates.map f) capacity
      = (refresh compare elite candidates capacity).map f := by
  simp only [refresh, merge_map hf, List.length_map, List.map_take, List.map_append]

theorem refresh?_map {compare' : β → β → Ordering} {f : α → β}
    (hf : ∀ x y, compare' (f x) (f y) = compare x y) (elite candidates : List α) (capacity : Nat) :
    refresh? compare' (elite.map f) (candidates.map f) capacity
      = (refresh? compare elite candidates capacity).map (List.map f) := by
  rw [refresh?_eq, refresh?_eq, refresh_map hf]
  rfl

end Metaheuristics.Elite
