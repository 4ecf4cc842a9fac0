import Metaheuristics.Proofs.Bounds.Box
import Metaheuristics.Proofs.Model.Calls
import Metaheuristics.Proofs.Population.Merging
import Metaheuristics.Proofs.Search.Guarantees

/-!
# Confined models

A property of the caller's state that evaluations of positions in the box keep (`Model.Confined`) is
kept by whatever evaluates such positions only.  That all calls so far were given positions in the
box is such a property of a watched model (`Model.watched_confined`).
-/

namespace Metaheuristics

variable {γ σ V : Type}

/-- **Starting candidates in the box**, as many as are asked for and in whichever world. -/
def Model.StartsInside (m : Model γ σ V) : Prop :=
  ∀ amount w, ∀ x ∈ (m.initial amount w).1, InBox m.bounds x

/-- Candidates with their positions in the box. -/
def AllInBox (bounds : List Bound) (candidates : List (Candidate V)) : Prop :=
  ∀ c ∈ candidates, InBox bounds c.position

/-- **The callbacks keep `I`** of the caller's state, as long as they are given positions in the
box. -/
structure Model.Confined (I : σ → Prop) (m : Model γ σ V) : Prop extends m.Keeps I where
  initial : ∀ amount w, I w.state → I (m.initial amount w).2.state
  evaluate : ∀ x, InBox m.bounds x → ∀ s, I s → I (m.evaluate x s).2

theorem Model.confined_true (m : Model γ σ V) : m.Confined fun _ => True where
  flush _ _ := trivial
  observe _ _ _ _ := trivial
  initial _ _ _ := trivial
  evaluate _ _ _ _ := trivial

/-- **All calls were given positions in the box.** -/
def CallsInBox (bounds : List Bound) (calls : List (Call V)) : Prop :=
  ∀ c ∈ calls, ∀ x, c.position? = some x → InBox bounds x

theorem CallsInBox.append {bounds : List Bound} {calls : List (Call V)} {c : Call V}
    (h : CallsInBox bounds calls) (hc : ∀ x, c.position? = some x → InBox bounds x) :
    CallsInBox bounds (calls ++ [c]) := by
  intro d hd
  rcases List.mem_append.mp hd with hd | hd
  · exact h d hd
  · rw [List.mem_singleton.mp hd]
    exact hc

theorem Model.watched_confined (m : Model γ σ V) :
    m.watched.Confined fun s => CallsInBox m.bounds s.2 where
  flush _ hs := hs.append fun _ hx => by cases hx
  observe _ _ _ hs := hs.append fun _ hx => by cases hx
  initial _ _ hw := hw
  evaluate x hx s hs := by
    have hfeasible (answer : Option Bool) : CallsInBox m.bounds (s.2 ++ [.feasible x answer]) :=
      hs.append fun y hy => Option.some.inj hy ▸ hx
    rw [Model.watched_evaluate]
    split_ifs
    · exact (hfeasible _).append fun y hy => Option.some.inj hy ▸ hx
    · exact hfeasible _

namespace Model

variable {I : σ → Prop} {m : Model γ σ V}

theorem StartsInside.watched (h : m.StartsInside) : m.watched.StartsInside :=
  fun amount w => h amount ⟨w.random, w.state.1⟩

theorem ensures_startingPositions (hm : m.Confined I) (hinside : m.StartsInside) (amount : Nat) :
    Run.Ensures I (m.startingPositions amount) fun xs => ∀ x ∈ xs, InBox m.bounds x := by
  refine Run.Ensures.bind (P := fun xs => ∀ x ∈ xs, InBox m.bounds x)
    (Run.Ensures.lift fun w hw => ⟨hm.initial amount w hw, hinside amount w⟩) fun xs hxs => ?_
  exact Run.Ensures.ite (fun _ => Run.Ensures.violate _) fun _ =>
    Run.Ensures.ite (fun _ => Run.Ensures.violate _) fun _ =>
      Run.Ensures.ite (fun _ => Run.Ensures.violate _) fun _ => Run.Ensures.pure hxs

theorem ensures_tryCall_evaluate (hm : m.Confined I) {x : Position} (hx : InBox m.bounds x) :
    Run.Ensures (γ := γ) I (Run.tryCall (m.evaluate x)) fun _ => True :=
  Run.Ensures.tryCall fun s hs => ⟨hm.evaluate x hx s hs, fun _ _ => trivial⟩

theorem ensures_evaluateAll (hm : m.Confined I) {xs : List Position}
    (hxs : ∀ x ∈ xs, InBox m.bounds x) :
    Run.Ensures I (m.evaluateAll xs) (AllInBox m.bounds) := by
  refine Run.Ensures.mono (P := List.Forall₂ (fun x c => c.position = x) xs)
    (Run.Ensures.mapM fun x hx => ?_) fun cs hcs c hc => ?_
  · refine Run.Ensures.bind (ensures_tryCall_evaluate hm (hxs x hx)) fun fitness _ => ?_
    exact Run.Ensures.pure rfl
  · obtain ⟨x, hx, rfl⟩ := exists_of_forall₂ hcs hc
    exact hxs _ hx

theorem ensures_settle (hm : m.Confined I) {xs : List Position}
    (hxs : ∀ x ∈ xs, InBox m.bounds x) :
    Run.Ensures I (m.settle xs) (AllInBox m.bounds) := by
  refine Run.Ensures.bind (ensures_evaluateAll hm hxs) fun cs hcs => ?_
  refine Run.Ensures.pure fun c hc => ?_
  obtain ⟨c', hc', rfl⟩ := List.mem_map.mp hc
  exact hcs c' hc'

end Model

/-! ## Populations -/

section
variable {bounds : List Bound} {cs : List (Candidate V)}

theorem AllInBox.sort (h : AllInBox bounds cs) (compare : Candidate V → Candidate V → Ordering) :
    AllInBox bounds (Ranking.sort compare cs) := fun c hc => h c (Ranking.mem_sort.mp hc)

theorem AllInBox.take (h : AllInBox bounds cs) (k : Nat) : AllInBox bounds (cs.take k) :=
  fun c hc => h c (List.mem_of_mem_take hc)

theorem AllInBox.refresh {elite : List (Candidate V)} (helite : AllInBox bounds elite)
    (hcs : AllInBox bounds cs) (compare : Candidate V → Candidate V → Ordering) (capacity : Nat) :
    AllInBox bounds (Elite.refresh compare elite cs capacity) := fun c hc =>
  (Elite.mem_of_mem_refresh hc).elim (helite c) (hcs c)

end

end Metaheuristics
