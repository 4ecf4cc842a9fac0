/-!
# The elite

Each engine keeps the best few candidates it has seen.  `Elite.refresh?` folds a sorted batch of new
candidates into that list.  The two lists are walked once, with a cursor in each: a candidate that
is strictly better than the elite member it meets goes in front of it, and the walk ends with the
last member.  Of the candidates then left over, those are appended whose index in the batch is below
the capacity less the length reached so far, and the whole is cut to the capacity.  Every access is
checked.

`Elite.refresh` is the same along the two lists, without cursors.
-/

namespace Metaheuristics.Elite

variable {α : Type} (compare : α → α → Ordering)

/-- Whether a candidate goes in front of an elite member. -/
def beats (candidate member : α) : Bool := compare candidate member == .lt

/-! ## By cursors -/

/-- The list with one more item at an index, which must not be past its end. -/
def insert? (items : List α) (i : Nat) (x : α) : Option (List α) :=
  if i ≤ items.length then some (items.insertIdx i x) else none

/-- The items from one index to another one, which must be in order and not past the end. -/
def slice? (items : List α) (first stop : Nat) : Option (List α) :=
  if first ≤ stop ∧ stop ≤ items.length then some ((items.take stop).drop first) else none

/-- The items from one index on, up to a later one if it is later. -/
def between? (items : List α) (first stop : Nat) : Option (List α) :=
  if first < stop then slice? items first stop else some []

/-- The walk from the cursors `i` in the elite and `j` in the candidates: where the second one ends,
and the elite with what has been inserted.  A step moves past one entry of a list at least, so there
are at most as many as both lists have entries. -/
def walk? (candidates : List α) : (steps i j : Nat) → (elite : List α) → Option (Nat × List α)
  | 0, _, j, elite => some (j, elite)
  | steps + 1, i, j, elite =>
    if i = elite.length ∨ j = candidates.length then some (j, elite)
    else do
      let candidate ← candidates[j]?
      let member ← elite[i]?
      if beats compare candidate member then
        walk? candidates steps (i + 1) (j + 1) (← insert? elite i candidate)
      else walk? candidates steps (i + 1) j elite

/-- **The elite after a batch of candidates**, at most `capacity` of them.  Both lists run from best
to worst. -/
def refresh? (elite candidates : List α) (capacity : Nat) : Option (List α) := do
  let (j, merged) ← walk? compare candidates (elite.length + candidates.length) 0 0 elite
  let appended ← between? candidates j
    (min candidates.length (max j (capacity - merged.length)))
  return (merged ++ appended).take capacity

/-! ## Along the lists -/

/-- The elite with the candidates that beat one of its members merged in, and the candidates left
over when the walk has ended. -/
def merge : (elite candidates : List α) → List α × List α
  | [], candidates => ([], candidates)
  | member :: elite, candidates =>
    let better := candidates.takeWhile (beats compare · member)
    let (merged, left) := merge elite (candidates.dropWhile (beats compare · member))
    (better ++ member :: merged, left)

/-- **The elite after a batch of candidates**, which `refresh?` always comes to. -/
def refresh (elite candidates : List α) (capacity : Nat) : List α :=
  let (merged, left) := merge compare elite candidates
  let inserted := candidates.length - left.length
  (merged ++ left.take (capacity - merged.length - inserted)).take capacity

theorem length_refresh_le (elite candidates : List α) (capacity : Nat) :
    (refresh compare elite candidates capacity).length ≤ capacity := by
  simp only [refresh, List.length_take]
  exact Nat.min_le_left _ _

/-- The walk loses nothing: what it merges and what it leaves over is what it was given. -/
theorem merge_perm : ∀ elite candidates : List α,
    ((merge compare elite candidates).1 ++ (merge compare elite candidates).2).Perm
      (elite ++ candidates)
  | [], candidates => List.Perm.refl candidates
  | member :: elite, candidates => by
    have ih := merge_perm elite (candidates.dropWhile (beats compare · member))
    have split : candidates.takeWhile (beats compare · member)
        ++ candidates.dropWhile (beats compare · member) = candidates :=
      List.takeWhile_append_dropWhile
    simp only [merge, List.append_assoc, List.cons_append]
    refine List.perm_middle.trans (List.Perm.cons member ?_)
    refine (List.Perm.append_left _ ih).trans ?_
    refine (List.perm_append_comm_assoc _ _ _).trans ?_
    rw [split]

end Metaheuristics.Elite
