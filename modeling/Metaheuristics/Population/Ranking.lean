/-!
# Ranking

Sorting by a comparison, best first.  Equals keep their order.  The sorted part is held from worst
to best, so that the next item meets the worst one first and passes those that it is strictly better
than (`Ranking.sort`).

A machine may refuse to sort by a comparison that is no total preorder of the items.  It need not,
and nothing is known about when it does (`Sorting`).
-/

namespace Metaheuristics

/-- **A total preorder** of the items with the property `P`.  `gt` means worse. -/
structure TotalPreorderOn {α : Type} (compare : α → α → Ordering) (P : α → Prop) : Prop where
  swap : ∀ x y, P x → P y → compare y x = (compare x y).swap
  trans : ∀ x y z, P x → P y → P z → compare x y ≠ .gt → compare y z ≠ .gt → compare x z ≠ .gt

namespace Ranking

variable {α : Type} (compare : α → α → Ordering)

/-- A list that runs from worst to best, with one more item in its place: behind all items that it
is not strictly better than, seen from the best end. -/
def insertWorstFirst (x : α) : List α → List α
  | [] => [x]
  | y :: rest =>
    match compare x y with
    | .lt => y :: insertWorstFirst x rest
    | _ => x :: y :: rest

/-- **The items from best to worst**, equals in their order.  By a comparison that is no total
preorder there is no such arrangement; then this is one of many that a machine may come to, unless
it refuses. -/
def sort (items : List α) : List α :=
  (items.foldl (fun sorted x => insertWorstFirst compare x sorted) []).reverse

theorem insertWorstFirst_perm (x : α) : ∀ sorted : List α,
    (insertWorstFirst compare x sorted).Perm (x :: sorted)
  | [] => List.Perm.refl _
  | y :: rest => by
    unfold insertWorstFirst
    split
    · exact ((insertWorstFirst_perm x rest).cons y).trans (List.Perm.swap x y rest)
    · exact List.Perm.refl _

theorem foldl_insertWorstFirst_perm : ∀ items sorted : List α,
    (items.foldl (fun sorted x => insertWorstFirst compare x sorted) sorted).Perm
      (items ++ sorted)
  | [], sorted => List.Perm.refl sorted
  | x :: items, sorted => by
    refine (foldl_insertWorstFirst_perm items (insertWorstFirst compare x sorted)).trans ?_
    refine ((insertWorstFirst_perm compare x sorted).append_left items).trans ?_
    exact List.perm_middle

theorem sort_perm (items : List α) : (sort compare items).Perm items := by
  refine (List.reverse_perm _).trans ?_
  have h := foldl_insertWorstFirst_perm compare items []
  rwa [List.append_nil] at h

theorem length_sort (items : List α) : (sort compare items).length = items.length :=
  (sort_perm compare items).length_eq

/-- The comparison of some items by their places. -/
def byPlace (items : List α) (i j : Nat) : Ordering :=
  let compared := do
    let x ← items[i]?
    let y ← items[j]?
    return compare x y
  compared.getD .eq

end Ranking

instance decidableTotalPreorderOn (amount : Nat) (compare : Nat → Nat → Ordering) :
    Decidable (TotalPreorderOn compare (· < amount)) :=
  decidable_of_iff
    ((∀ i < amount, ∀ j < amount, compare j i = (compare i j).swap) ∧
      ∀ i < amount, ∀ j < amount, ∀ k < amount,
        compare i j ≠ .gt ∧ compare j k ≠ .gt → compare i k ≠ .gt)
    ⟨fun ⟨hswap, htrans⟩ => ⟨fun i j hi hj => hswap i hi j hj,
        fun i j k hi hj hk hij hjk => htrans i hi j hj k hk ⟨hij, hjk⟩⟩,
      fun h => ⟨fun i hi j hj => h.swap i j hi hj,
        fun i hi j hj k hk ⟨hij, hjk⟩ => h.trans i j k hi hj hk hij hjk⟩⟩

/-- **Which comparisons a machine refuses to sort by**, given how many items there are and how they
compare by their places. -/
structure Sorting where
  refuses : (amount : Nat) → (Nat → Nat → Ordering) → Bool
  /-- A total preorder is never refused. -/
  sorts : ∀ amount compare, TotalPreorderOn compare (· < amount) → refuses amount compare = false

namespace Sorting

/-- Sorting by whatever comparison there is. -/
def lenient : Sorting := ⟨fun _ _ => false, fun _ _ _ => rfl⟩

/-- Refusing whatever is no total preorder. -/
def strict : Sorting where
  refuses amount compare := !decide (TotalPreorderOn compare (· < amount))
  sorts _ _ h := by rw [decide_eq_true h]; rfl

/-- **The items from best to worst**, unless their comparison is refused. -/
def sort? {α : Type} (sorting : Sorting) (compare : α → α → Ordering) (items : List α) :
    Option (List α) :=
  if sorting.refuses items.length (Ranking.byPlace compare items) then none
  else some (Ranking.sort compare items)

end Sorting

end Metaheuristics
