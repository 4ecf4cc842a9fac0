import Metaheuristics.Proofs.Random.Indices
import Metaheuristics.Proofs.Runs.Guarantees

/-!
# Safe runs

A run is safe in a world when it has a result, with some property, or the objective reports an error,
or it breaks an agreement that may be broken (`Safe`).  Where `Run.Ensures` says what a run has done
if it has a result, this says how it may end.  The parts of a run that can break an agreement are
values that have to be there, draws that need something to choose from, and sorts; for the rest,
safety goes through every way in which runs are put together.
-/

namespace Metaheuristics.Run

variable {γ σ α β : Type}

/-- **The run breaks no agreements but those in `A`** in the world `w`: its result has `Q`, unless
the objective reports an error. -/
def Safe (A : Violation → Prop) (w : World γ σ) (x : Run γ σ α) (Q : α → Prop) : Prop :=
  (∃ a w', x.exec w = (.ok a, w') ∧ Q a) ∨
    (∃ error w', x.exec w = (.error (.evaluation error), w')) ∨
    ∃ broken w', A broken ∧ x.exec w = (.error (.violation broken), w')

/-- **A sort that is safe**: by a total preorder of the items with `P`, or where a machine may refuse
the comparison. -/
def Sortable (A : Violation → Prop) (P : α → Prop) (compare : α → α → Ordering) : Prop :=
  TotalPreorderOn compare P ∨ A .unorderedComparison

theorem Sortable.comap {A : Violation → Prop} {P : β → Prop} {compare : β → β → Ordering}
    (h : Sortable A P compare) (f : α → β) :
    Sortable A (fun x => P (f x)) fun x y => compare (f x) (f y) :=
  h.imp_left fun h => h.comap f

theorem Sortable.mono {A : Violation → Prop} {P Q : α → Prop} {compare : α → α → Ordering}
    (h : Sortable A P compare) (hQ : ∀ x, Q x → P x) : Sortable A Q compare :=
  h.imp_left fun h => h.mono hQ

/-- Where every agreement may be broken, every comparison may be sorted by. -/
theorem sortable_true {P : α → Prop} {compare : α → α → Ordering} :
    Sortable (fun _ => True) P compare := Or.inr trivial

namespace Safe

variable {A : Violation → Prop} {w : World γ σ} {P : α → Prop} {Q : β → Prop}

/-! ## Steps -/

theorem pure {a : α} (h : P a) : Safe A w (pure a) P := Or.inl ⟨a, w, rfl, h⟩

theorem expect {broken : Violation} {o : Option α} (h : ∃ a, o = some a ∧ P a) :
    Safe A w (expect broken o) P := by
  obtain ⟨a, rfl, ha⟩ := h
  exact pure ha

theorem draw {action : StateM γ α} (h : Random.Yields action P) : Safe A w (draw action) P :=
  Or.inl ⟨_, _, rfl, h w.random⟩

theorem tryDraw {action : ExceptT Violation (StateM γ) α}
    (h : Random.Yields action.run fun result => ∃ a, result = .ok a ∧ P a) :
    Safe A w (tryDraw action) P := by
  obtain ⟨a, ha, hP⟩ := h w.random
  refine Or.inl ⟨a, ⟨(action.run w.random).2, w.state⟩, ?_, hP⟩
  refine Prod.ext ?_ rfl
  show (action.run w.random).1.mapError _ = _
  rw [ha]
  rfl

theorem call (x : StateM σ α) : Safe A w (call x) fun _ => True := Or.inl ⟨_, _, rfl, trivial⟩

theorem tryCall (x : StateM σ (Except EvaluationError α)) :
    Safe A w (tryCall x) fun _ => True := by
  have hexec : (Run.tryCall x).exec w
      = ((x w.state).1.mapError .evaluation, ⟨w.random, (x w.state).2⟩) := rfl
  rcases hx : (x w.state).1 with error | a
  · exact Or.inr (Or.inl ⟨error, _, by rw [hexec, hx]; rfl⟩)
  · exact Or.inl ⟨a, _, by rw [hexec, hx]; rfl, trivial⟩

/-- **A safe sort** rearranges. -/
theorem sort {host : Host σ} {compare : α → α → Ordering} {items : List α}
    (hsort : Sortable A P compare) (hitems : ∀ x ∈ items, P x) :
    Safe A w (host.sort compare items) (· = Ranking.sort compare items) := by
  rcases hsorted : host.sorting.sort? compare items with _ | sorted
  · rcases hsort with hpreorder | hA
    · rw [Sorting.sort?_eq (hpreorder.mono hitems)] at hsorted
      cases hsorted
    · refine Or.inr (Or.inr ⟨_, w, hA, ?_⟩)
      unfold Host.sort
      rw [hsorted]
      rfl
  · exact expect ⟨sorted, hsorted, Sorting.eq_of_sort? hsorted⟩

theorem refresh {broken : Violation} (compare : α → α → Ordering) (elite candidates : List α)
    (capacity : Nat) :
    Safe A w (Run.expect broken (Elite.refresh? compare elite candidates capacity))
      (· = Elite.refresh compare elite candidates capacity) :=
  expect ⟨_, Elite.refresh?_eq compare elite candidates capacity, rfl⟩

/-! ## Sequences -/

theorem bind {x : Run γ σ α} {f : α → Run γ σ β} (hx : Safe A w x P)
    (hf : ∀ a v, P a → Safe A v (f a) Q) : Safe A w (x >>= f) Q := by
  unfold Safe
  rw [exec_bind]
  rcases hx with ⟨a, v, hx, ha⟩ | ⟨error, v, hx⟩ | ⟨broken, v, hA, hx⟩
  · rw [hx]
    exact hf a v ha
  · rw [hx]
    exact Or.inr (Or.inl ⟨error, v, rfl⟩)
  · rw [hx]
    exact Or.inr (Or.inr ⟨broken, v, hA, rfl⟩)

theorem require {check : Except SettingsError Unit} {f : Unit → Run γ σ β} (h : check = .ok ())
    (hf : Safe A w (f ()) Q) : Safe A w (require check >>= f) Q := by
  unfold Safe
  rw [exec_require h]
  exact hf

theorem get {k : World γ σ → Run γ σ β} (h : Safe A w (k w) Q) : Safe A w (get >>= k) Q := h

theorem of_ok {x : Run γ σ α} {a : α} {w' : World γ σ} (h : Safe A w x P)
    (hx : x.exec w = (.ok a, w')) : P a := by
  rcases h with ⟨b, v, hb, hP⟩ | ⟨error, v, hfail⟩ | ⟨broken, v, -, hfail⟩
  · obtain ⟨heq, -⟩ := Prod.mk.inj (hx.symm.trans hb)
    rwa [Except.ok.inj heq]
  · cases (Prod.mk.inj (hx.symm.trans hfail)).1
  · cases (Prod.mk.inj (hx.symm.trans hfail)).1

/-- A safe run has what its results have anyway. -/
theorem and {P' : α → Prop} {x : Run γ σ α} (hx : Safe A w x P)
    (h : ∀ a w', x.exec w = (.ok a, w') → P' a) : Safe A w x fun a => P a ∧ P' a := by
  rcases hx with ⟨a, v, hx, ha⟩ | hfail
  · exact Or.inl ⟨a, v, hx, ha, h a v hx⟩
  · exact Or.inr hfail

theorem mono {P' : α → Prop} {x : Run γ σ α} (hx : Safe A w x P) (h : ∀ a, P a → P' a) :
    Safe A w x P' := by
  rcases hx with ⟨a, v, hx, ha⟩ | hfail
  · exact Or.inl ⟨a, v, hx, h a ha⟩
  · exact Or.inr hfail

theorem ite {p : Prop} [Decidable p] {x y : Run γ σ α} (hx : p → Safe A w x P)
    (hy : ¬ p → Safe A w y P) : Safe A w (if p then x else y) P := by
  split
  · exact hx ‹_›
  · exact hy ‹_›

theorem mapM {R : α → β → Prop} {f : α → Run γ σ β} {as : List α}
    (hf : ∀ a ∈ as, ∀ v, Safe A v (f a) (R a)) : Safe A w (as.mapM f) (List.Forall₂ R as) := by
  induction as generalizing w with
  | nil => exact pure .nil
  | cons a as ih =>
    rw [List.mapM_cons]
    refine bind (hf a List.mem_cons_self w) fun b v hb => ?_
    refine bind (ih fun a ha => hf a (List.mem_cons_of_mem _ ha)) fun bs _ hbs => ?_
    exact pure (.cons hb hbs)

theorem foldlM {f : β → α → Run γ σ β} {as : List α} {b : β} (hb : Q b)
    (hf : ∀ b, ∀ a ∈ as, Q b → ∀ v, Safe A v (f b a) Q) : Safe A w (as.foldlM f b) Q := by
  induction as generalizing w b with
  | nil => exact pure hb
  | cons a as ih =>
    rw [List.foldlM_cons]
    refine bind (hf b a List.mem_cons_self hb w) fun b' _ hb' => ?_
    exact ih hb' fun b a ha => hf b a (List.mem_cons_of_mem _ ha)

end Safe

end Metaheuristics.Run
