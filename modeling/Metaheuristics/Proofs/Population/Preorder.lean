import Metaheuristics.Population.Candidate
import Metaheuristics.Population.Ranking
import Mathlib.Tactic.ByContra
import Mathlib.Tactic.SplitIfs

/-!
# Preorders given by a comparison

A comparison is a total preorder on the items with some property when it turns around with its
operands and when "not worse than" is transitive (`TotalPreorderOn`).  Only the items with the
property are looked at: a comparison of lists of numbers may be an order of the lists of one length
and no order of all lists.  `preferred` is the better of two items, the left one of equals; on a
total preorder it is associative.  Kept up item by item, it is the first of the best items
(`IsFirstBest.concat`).
-/

namespace Metaheuristics

variable {α β : Type}

namespace TotalPreorderOn

variable {compare : α → α → Ordering} {P Q : α → Prop}

theorem mono (h : TotalPreorderOn compare P) (hQ : ∀ x, Q x → P x) : TotalPreorderOn compare Q :=
  ⟨fun x y hx hy => h.swap x y (hQ x hx) (hQ y hy),
    fun x y z hx hy hz => h.trans x y z (hQ x hx) (hQ y hy) (hQ z hz)⟩

theorem comap {P : β → Prop} {compare : β → β → Ordering} (h : TotalPreorderOn compare P)
    (f : α → β) : TotalPreorderOn (fun x y => compare (f x) (f y)) fun x => P (f x) :=
  ⟨fun x y => h.swap (f x) (f y), fun x y z => h.trans (f x) (f y) (f z)⟩

theorem ne_gt_of_lt {x y : α} (hxy : compare x y = .lt) : compare x y ≠ .gt := by
  rw [hxy]; decide

section
variable (h : TotalPreorderOn compare P)
include h

theorem refl {x : α} (hx : P x) : compare x x = .eq := by
  have hs := h.swap x x hx hx
  cases hc : compare x x <;> rw [hc] at hs <;> first | rfl | cases hs

theorem gt_iff {x y : α} (hx : P x) (hy : P y) : compare x y = .gt ↔ compare y x = .lt := by
  rw [h.swap x y hx hy]; exact Ordering.swap_eq_lt.symm

theorem ne_gt_iff {x y : α} (hx : P x) (hy : P y) : compare x y ≠ .gt ↔ compare y x ≠ .lt :=
  not_congr (h.gt_iff hx hy)

theorem lt_of_lt_of_ne_gt {x y z : α} (hx : P x) (hy : P y) (hz : P z) (hxy : compare x y = .lt)
    (hyz : compare y z ≠ .gt) : compare x z = .lt := by
  by_contra hn
  have hzx : compare z x ≠ .gt := (h.ne_gt_iff hz hx).mpr hn
  have hyx := h.trans y z x hy hz hx hyz hzx
  exact (h.ne_gt_iff hy hx).mp hyx hxy

theorem lt_of_ne_gt_of_lt {x y z : α} (hx : P x) (hy : P y) (hz : P z) (hxy : compare x y ≠ .gt)
    (hyz : compare y z = .lt) : compare x z = .lt := by
  by_contra hn
  have hzx : compare z x ≠ .gt := (h.ne_gt_iff hz hx).mpr hn
  have hzy := h.trans z x y hz hx hy hzx hxy
  exact (h.ne_gt_iff hz hy).mp hzy hyz

/-- Two items neither of which is worse tie. -/
theorem eq_of_ne_gt {x y : α} (hx : P x) (hy : P y) (hxy : compare x y ≠ .gt)
    (hyx : compare y x ≠ .gt) : compare x y = .eq := by
  rw [h.ne_gt_iff hy hx] at hyx
  cases hc : compare x y
  · exact absurd hc hyx
  · rfl
  · exact absurd hc hxy

theorem eq_iff_of_eq {x y z : α} (hx : P x) (hy : P y) (hz : P z) (hxy : compare x y = .eq) :
    compare x z = .eq ↔ compare y z = .eq := by
  have hyx : compare y x = .eq := by rw [h.swap x y hx hy, hxy]; rfl
  have hle {u v : α} (huv : compare u v = .eq) : compare u v ≠ .gt := by rw [huv]; decide
  have hge {u v : α} (hu : P u) (hv : P v) (huv : compare u v = .eq) : compare v u ≠ .gt := by
    rw [h.swap u v hu hv, huv]; decide
  constructor <;> intro hc
  · have hyz : compare y z ≠ .gt := h.trans y x z hy hx hz (hle hyx) (hle hc)
    have hzy : compare z y ≠ .gt := h.trans z x y hz hx hy (hge hx hz hc) (hle hxy)
    exact h.eq_of_ne_gt hy hz hyz hzy
  · have hxz : compare x z ≠ .gt := h.trans x y z hx hy hz (hle hxy) (hle hc)
    have hzx : compare z x ≠ .gt := h.trans z y x hz hy hx (hge hy hz hc) (hle hyx)
    exact h.eq_of_ne_gt hx hz hxz hzx

/-- Items that tie compare alike to every other item, from either side. -/
theorem compare_eq_of_eq {x y z : α} (hx : P x) (hy : P y) (hz : P z) (hxy : compare x y = .eq) :
    compare x z = compare y z ∧ compare z x = compare z y := by
  have hyx : compare y x = .eq := by rw [h.swap x y hx hy, hxy]; rfl
  have hle : compare x y ≠ .gt := by rw [hxy]; decide
  have hge : compare y x ≠ .gt := by rw [hyx]; decide
  have hleft : compare x z = compare y z := by
    rcases hc : compare y z with _ | _ | _
    · exact h.lt_of_ne_gt_of_lt hx hy hz hle hc
    · exact (h.eq_iff_of_eq hx hy hz hxy).mpr hc
    · exact (h.gt_iff hx hz).mpr (h.lt_of_lt_of_ne_gt hz hy hx ((h.gt_iff hy hz).mp hc) hge)
  exact ⟨hleft, by rw [h.swap x z hx hz, h.swap y z hy hz, hleft]⟩

end

/-- One preorder after the other: what ties in the first one is told apart by the second. -/
theorem pair {compare' : β → β → Ordering} {Q : β → Prop} (h : TotalPreorderOn compare P)
    (h' : TotalPreorderOn compare' Q) :
    TotalPreorderOn (fun x y : α × β => (compare x.1 y.1).then (compare' x.2 y.2))
      fun x => P x.1 ∧ Q x.2 where
  swap x y hx hy := by
    rw [h.swap _ _ hx.1 hy.1, h'.swap _ _ hx.2 hy.2, Ordering.swap_then]
  trans x y z hx hy hz hxy hyz := by
    rcases hc : compare x.1 y.1 with _ | _ | _
    · -- strictly better than `y` in the first one, and `y` is not worse than `z` there
      have hyz' : compare y.1 z.1 ≠ .gt := fun hgt => hyz (by rw [hgt]; rfl)
      rw [h.lt_of_lt_of_ne_gt hx.1 hy.1 hz.1 hc hyz']
      exact fun hgt => nomatch hgt
    · rw [(h.compare_eq_of_eq hx.1 hy.1 hz.1 hc).1]
      rw [hc] at hxy
      rcases hd : compare y.1 z.1 with _ | _ | _ <;> rw [hd] at hyz
      · exact fun hgt => nomatch hgt
      · exact h'.trans _ _ _ hx.2 hy.2 hz.2 hxy hyz
      · exact absurd rfl hyz
    · exact absurd (by rw [hc]; rfl) hxy

end TotalPreorderOn

/-! ## The better of two -/

/-- The better of two items, the left one of equals. -/
def preferred (compare : α → α → Ordering) (x y : α) : α := if compare y x = .lt then y else x

section Preferred
variable {compare : α → α → Ordering} {P : α → Prop}

theorem preferred_cases (compare : α → α → Ordering) (x y : α) :
    preferred compare x y = x ∨ preferred compare x y = y := by
  unfold preferred; split_ifs <;> simp

theorem preferred_of (hx : P x) (hy : P y) : P (preferred compare x y) := by
  rcases preferred_cases compare x y with h | h <;> rw [h] <;> assumption

variable (h : TotalPreorderOn compare P)
include h

theorem preferred_le {x y : α} (hx : P x) (hy : P y) :
    compare (preferred compare x y) x ≠ .gt ∧ compare (preferred compare x y) y ≠ .gt := by
  unfold preferred
  split_ifs with hc
  · exact ⟨TotalPreorderOn.ne_gt_of_lt hc, by rw [h.refl hy]; decide⟩
  · exact ⟨by rw [h.refl hx]; decide, (h.ne_gt_iff hx hy).mpr hc⟩

theorem preferred_assoc {x y z : α} (hx : P x) (hy : P y) (hz : P z) :
    preferred compare (preferred compare x y) z = preferred compare x (preferred compare y z) := by
  unfold preferred
  by_cases h1 : compare y x = .lt <;> by_cases h2 : compare z y = .lt
  · have h3 : compare z x = .lt := h.lt_of_lt_of_ne_gt hz hy hx h2 (TotalPreorderOn.ne_gt_of_lt h1)
    simp [h1, h2, h3]
  · simp [h1, h2]
  · simp [h1, h2]
  · have h3 : ¬ compare z x = .lt := fun h3 => by
      have hxy := (h.ne_gt_iff hx hy).mpr h1
      exact h2 (h.lt_of_lt_of_ne_gt hz hx hy h3 hxy)
    simp [h1, h2, h3]

/-- The better one of an item and the best of some more is the best of all of them. -/
theorem preferred_foldl {x a : α} {items : List α} (hx : P x) (ha : P a)
    (hitems : ∀ y ∈ items, P y) :
    preferred compare x (items.foldl (preferred compare) a)
      = (a :: items).foldl (preferred compare) x := by
  induction items generalizing a with
  | nil => rfl
  | cons b items ih =>
    have hb : P b := hitems b (by simp)
    rw [List.foldl_cons, ih (preferred_of ha hb) fun y hy => hitems y (by simp [hy]),
      List.foldl_cons, List.foldl_cons, List.foldl_cons, preferred_assoc h hx ha hb]

end Preferred

/-! ## The first of the best -/

/-- **The earliest of the best items**: the items before it are worse, and those behind it are not
better. -/
def IsFirstBest (compare : α → α → Ordering) (items : List α) (best : α) : Prop :=
  ∃ earlier later, items = earlier ++ best :: later ∧ (∀ x ∈ earlier, compare best x = .lt) ∧
    ∀ x ∈ later, compare best x ≠ .gt

namespace IsFirstBest

variable {compare : α → α → Ordering} {P : α → Prop} {items : List α} {best : α}

theorem singleton (compare : α → α → Ordering) (x : α) : IsFirstBest compare [x] x :=
  ⟨[], [], rfl, List.forall_mem_nil _, List.forall_mem_nil _⟩

theorem mem (hbest : IsFirstBest compare items best) : best ∈ items := by
  obtain ⟨earlier, later, rfl, -, -⟩ := hbest
  exact List.mem_append_right _ List.mem_cons_self

section
variable (h : TotalPreorderOn compare P) (hP : ∀ x ∈ items, P x)
include h hP

theorem le (hbest : IsFirstBest compare items best) {x : α} (hx : x ∈ items) :
    compare best x ≠ .gt := by
  obtain ⟨earlier, later, rfl, hearlier, hlater⟩ := hbest
  rcases List.mem_append.mp hx with hx | hx
  · exact TotalPreorderOn.ne_gt_of_lt (hearlier x hx)
  · rcases List.mem_cons.mp hx with rfl | hx
    · rw [h.refl (hP x (List.mem_append_right _ List.mem_cons_self))]
      decide
    · exact hlater x hx

/-- **One more item** becomes the first of the best when it is strictly better. -/
theorem concat {x : α} (hbest : IsFirstBest compare items best) (hx : P x) :
    IsFirstBest compare (items ++ [x]) (preferred compare best x) := by
  have hPbest : P best := hP best hbest.mem
  unfold preferred
  split_ifs with hc
  · refine ⟨items, [], rfl, fun y hy => ?_, List.forall_mem_nil _⟩
    exact h.lt_of_lt_of_ne_gt hx hPbest (hP y hy) hc (hbest.le h hP hy)
  · obtain ⟨earlier, later, rfl, hearlier, hlater⟩ := hbest
    refine ⟨earlier, later ++ [x], List.append_assoc _ _ _, hearlier, fun y hy => ?_⟩
    rcases List.mem_append.mp hy with hy | hy
    · exact hlater y hy
    · rw [List.mem_singleton.mp hy]
      exact (h.ne_gt_iff hPbest hx).mpr hc

end

end IsFirstBest

end Metaheuristics
