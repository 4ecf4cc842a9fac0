import Metaheuristics.Arithmetic
import Metaheuristics.Failure
import Metaheuristics.Population.Candidate
import Metaheuristics.Population.Ranking
import Metaheuristics.Stopping

/-!
# Runs and their world

A run changes two things: the state of its source of randomness, and the state that the callbacks of
the model share.  Both make up its `World`, which outlives a failure.  The `Host` says how the
caller's state is read: the time that has passed, and whether the run has been cancelled.  It also
stands for the machine, with its elementary functions and its way of sorting.
-/

namespace Metaheuristics

/-- **What a run changes.** -/
structure World (γ σ : Type) where
  random : γ
  state : σ

/-- **A computation of a run**, with its effects on the world, that may fail. -/
abbrev Run (γ σ α : Type) := ExceptT Failure (StateM (World γ σ)) α

namespace Run

variable {γ σ α : Type}

/-- A draw. -/
def draw (action : StateM γ α) : Run γ σ α := fun world =>
  let (a, random) := action world.random
  (.ok a, { world with random })

/-- A draw that may break an agreement. -/
def tryDraw (action : ExceptT Violation (StateM γ) α) : Run γ σ α := fun world =>
  let (result, random) := action.run world.random
  (result.mapError .violation, { world with random })

/-- A callback. -/
def call (action : StateM σ α) : Run γ σ α := fun world =>
  let (a, state) := action world.state
  (.ok a, { world with state })

/-- A callback that may report an error. -/
def tryCall (action : StateM σ (Except EvaluationError α)) : Run γ σ α := fun world =>
  let (result, state) := action world.state
  (result.mapError .evaluation, { world with state })

/-- A broken agreement. -/
def violate (broken : Violation) : Run γ σ α := throw (.violation broken)

/-- The value that has to be there. -/
def expect (broken : Violation) : Option α → Run γ σ α
  | some a => pure a
  | none => violate broken

/-- Settings that have to be in order. -/
def require (check : Except SettingsError Unit) : Run γ σ Unit :=
  match check with
  | .ok () => pure ()
  | .error error => throw (.settings error)

end Run

/-- **How the caller's state is read**, and what the machine has to offer. -/
structure Host (σ : Type) where
  elapsed : σ → Duration
  cancelled : σ → Bool
  math : Elementary
  sorting : Sorting := .lenient

/-- **Sorting**, best first, which fails where the machine refuses the comparison. -/
def Host.sort {γ σ α : Type} (host : Host σ) (compare : α → α → Ordering) (items : List α) :
    Run γ σ (List α) :=
  Run.expect .unorderedComparison (host.sorting.sort? compare items)

end Metaheuristics
