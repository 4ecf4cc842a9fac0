import Metaheuristics.Proofs.Population.StableSort
import Metaheuristics.Proofs.Runs.Safety

/-!
# Populations

A list is populated with `P` when it has items and all of them have `P` (`Populated`).  A sort keeps
that (`Populated.safe_sort`), so the best of a population can always be taken
(`Populated.safe_head`), and so does everything that is done item by item (`Populated.safe_mapM`).
-/

namespace Metaheuristics

variable {γ σ α β : Type}

/-- **Items with `P`**, at least one. -/
structure Populated (P : α → Prop) (items : List α) : Prop where
  nonempty : items ≠ []
  all : ∀ x ∈ items, P x

namespace Populated

variable {A : Violation → Prop} {P : α → Prop} {items : List α} {w : World γ σ}

/-- **A population is sorted safely** where its comparison may be sorted by. -/
theorem safe_sort {host : Host σ} {compare : α → α → Ordering} (h : Populated P items)
    (hsort : Run.Sortable A P compare) :
    Run.Safe A w (host.sort compare items) (Populated P) := by
  refine (Run.Safe.sort hsort h.all).mono fun sorted hsorted => ⟨fun hnil => ?_, fun x hx => ?_⟩
  · have hlength := Ranking.length_sort compare items
    rw [← hsorted, hnil] at hlength
    exact h.nonempty (List.eq_nil_of_length_eq_zero hlength.symm)
  · exact h.all x (Ranking.mem_sort.mp (hsorted ▸ hx))

theorem safe_head (h : Populated P items) (broken : Violation) :
    Run.Safe A w (Run.expect broken items.head?) P := by
  obtain ⟨x, rest, rfl⟩ := List.exists_cons_of_ne_nil h.nonempty
  exact Run.Safe.expect ⟨x, rfl, h.all x List.mem_cons_self⟩

theorem safe_mapM {Q : β → Prop} {f : α → Run γ σ β} (h : Populated P items)
    (hf : ∀ x ∈ items, P x → ∀ v, Run.Safe A v (f x) Q) :
    Run.Safe A w (items.mapM f) (Populated Q) := by
  refine Run.Safe.mono (Run.Safe.mapM (R := fun _ y => Q y) fun x hx v => hf x hx (h.all x hx) v)
    fun ys hys => ⟨fun hnil => ?_, fun y hy => ?_⟩
  · rw [hnil] at hys
    exact h.nonempty (List.forall₂_nil_right_iff.mp hys)
  · obtain ⟨x, -, hQ⟩ := exists_of_forall₂ hys hy
    exact hQ

end Populated

end Metaheuristics
