import Metaheuristics.Proofs.Random.Words
import Metaheuristics.Proofs.Runs.Results

/-!
# Draws of runs

Of the world of a run only draws touch the source of randomness.  A run takes `n` words when it
leaves the source as they do, and its result and the state of the callbacks are read off them,
whether it has a result or fails (`Run.Takes`).  A run that is nothing but a draw cannot fail
(`Run.IsDraw`), so that the words of a sequence of such runs are those of its parts; behind them may
come what draws nothing and fails (`Run.Takes.bind`).
-/

namespace Metaheuristics

open Metaheuristics.Random

variable {γ σ α β : Type} [Source γ]

/-- **From one world to another `n` words have been drawn.** -/
def Draws (n : Nat) (w w' : World γ σ) : Prop := w'.random = (words n w.random).2

namespace Draws

variable {m n : Nat} {u v w : World γ σ}

theorem of_eq (h : w.random = v.random) : Draws 0 v w := h

theorem trans (h : Draws m u v) (h' : Draws n v w) : Draws (m + n) u w := by
  unfold Draws at h h' ⊢
  rw [h', h, words_add]

end Draws

namespace Run

/-! ## Runs that draw -/

/-- **A run that is nothing but a draw** of `n` words. -/
def IsDraw (n : Nat) (x : Run γ σ α) : Prop := ∃ action, Random.Takes n action ∧ x = draw action

namespace IsDraw

variable {m n : Nat} {x : Run γ σ α}

theorem draw {action : StateM γ α} (h : Random.Takes n action) :
    IsDraw (σ := σ) n (draw action) := ⟨action, h, rfl⟩

theorem pure (a : α) : IsDraw (γ := γ) (σ := σ) 0 (pure a) := ⟨_, .pure a, rfl⟩

theorem bind {f : α → Run γ σ β} (h : IsDraw m x) (hf : ∀ a, IsDraw n (f a)) :
    IsDraw (m + n) (x >>= f) := by
  obtain ⟨action, haction, rfl⟩ := h
  choose next hnext heq using hf
  exact ⟨action >>= next, haction.bind hnext, by rw [funext heq]; rfl⟩

theorem mapM {f : α → Run γ σ β} {as : List α} (hf : ∀ a ∈ as, IsDraw n (f a)) :
    IsDraw (as.length * n) (as.mapM f) := by
  induction as with
  | nil => rw [List.length_nil, Nat.zero_mul]; exact pure []
  | cons a as ih =>
    rw [List.mapM_cons, List.length_cons, Nat.succ_mul, Nat.add_comm]
    refine (hf a List.mem_cons_self).bind fun b => ?_
    exact (ih fun a ha => hf a (List.mem_cons_of_mem _ ha)).bind fun bs => pure (b :: bs)

end IsDraw

/-! ## Runs that take words -/

/-- **A run takes `n` words**, whatever comes of it: it leaves the source as they do, and the rest
is read off them. -/
def Takes (n : Nat) (x : Run γ σ α) : Prop :=
  ∃ read : List UInt64 → σ → Except Failure α × σ, ∀ w, x.exec w =
    ((read (words n w.random).1 w.state).1,
      ⟨(words n w.random).2, (read (words n w.random).1 w.state).2⟩)

namespace Takes

variable {m n : Nat} {x : Run γ σ α}

theorem draws {result : Except Failure α} {w w' : World γ σ} (h : Takes n x)
    (hx : x.exec w = (result, w')) : Draws n w w' := by
  obtain ⟨read, hread⟩ := h
  obtain rfl := (Prod.mk.inj ((hread w).symm.trans hx)).2
  rfl

theorem pure (a : α) : Takes (γ := γ) (σ := σ) 0 (pure a) :=
  ⟨fun _ state => (.ok a, state), fun _ => rfl⟩

theorem expect (broken : Violation) (o : Option α) :
    Takes (γ := γ) (σ := σ) 0 (expect broken o) := by
  obtain _ | a := o
  · exact ⟨fun _ state => (.error (.violation broken), state), fun _ => rfl⟩
  · exact pure a

theorem call (action : StateM σ α) : Takes (γ := γ) 0 (call action) :=
  ⟨fun _ state => (.ok (action state).1, (action state).2), fun _ => rfl⟩

theorem tryCall (action : StateM σ (Except EvaluationError α)) :
    Takes (γ := γ) 0 (tryCall action) :=
  ⟨fun _ state => ((action state).1.mapError .evaluation, (action state).2), fun _ => rfl⟩

/-- **What draws nothing** takes no further words, whether it is reached or not. -/
theorem bind {f : α → Run γ σ β} (h : Takes n x) (hf : ∀ a, Takes 0 (f a)) :
    Takes n (x >>= f) := by
  obtain ⟨read, hread⟩ := h
  choose next hnext using hf
  refine ⟨fun ws state =>
    ExceptT.bindCont (m := StateM σ) (next · []) (read ws state).1 (read ws state).2, fun w => ?_⟩
  rw [exec_bind, hread]
  dsimp only
  rcases (read (words n w.random).1 w.state).1 with failure | a
  · rfl
  · exact hnext a _

theorem mapM {f : α → Run γ σ β} (hf : ∀ a, Takes 0 (f a)) (as : List α) :
    Takes 0 (as.mapM f) := by
  induction as with
  | nil => exact pure []
  | cons a as ih =>
    rw [List.mapM_cons]
    exact (hf a).bind fun b => ih.bind fun bs => pure (b :: bs)

end Takes

theorem IsDraw.takes {n : Nat} {x : Run γ σ α} (h : IsDraw n x) : Takes n x := by
  obtain ⟨action, ⟨read, hread⟩, rfl⟩ := h
  refine ⟨fun ws state => (.ok (read ws), state), fun w => ?_⟩
  show (Except.ok (action w.random).1, World.mk (action w.random).2 w.state) = _
  rw [hread]

end Run

end Metaheuristics
