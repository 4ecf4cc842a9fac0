import Metaheuristics.Model.Basic

/-!
# The search loop

All engines share one loop.  At its head it looks for a reason to stop: a passed limit, an engine
that is not ready for another iteration, a cancelled run, in this order.  Otherwise the engine
explores a batch of candidates and absorbs it, the model releases what it holds for the iteration,
the tracker counts, the best fitness so far is recorded, and the observer of the model may end the
run.

The loop need not end by itself, so the number of times its head may be passed is given from
outside; a run that needs more has no outcome.
-/

namespace Metaheuristics

/-- **What the loop asks of an engine** with states in `S`, which explores batches in `B`. -/
structure Engine (γ σ V S B : Type) where
  /-- The state in which an iteration begins, unless the engine is through. -/
  enter : (iteration : Nat) → S → Option S
  /-- The batch of one iteration. -/
  explore : Tracker → S → Run γ σ B
  /-- The state with a batch taken in, and whether the batch holds a new best. -/
  absorb : S → B → Run γ σ (S × Bool)
  /-- The best fitness so far. -/
  best : S → Option V

/-- **The state of the loop.** -/
structure Progress (V S : Type) where
  tracker : Tracker
  engine : S
  /-- The best fitness after each iteration. -/
  history : Array V

/-- **The outcome of a run.** -/
structure Outcome (V : Type) where
  /-- The best candidates, best first. -/
  solutions : List (Candidate V)
  iterations : Nat
  reason : StopReason
  history : List V

/-- The best candidate of a run. -/
def Outcome.best {V : Type} (outcome : Outcome V) : Option (Candidate V) := outcome.solutions.head?

namespace Search

variable {γ σ V S B : Type} (host : Host σ) (model : Model γ σ V) (criteria : StopCriteria)
  (engine : Engine γ σ V S B)

/-- **The head of the loop**: a reason to stop, or the state in which the next iteration begins. -/
def verdict (progress : Progress V S) (state : σ) : Except StopReason S :=
  match progress.tracker.stopReason criteria (host.elapsed state) with
  | some reason => .error reason
  | none =>
    match engine.enter progress.tracker.iteration progress.engine with
    | none => .error .temperatureFloor
    | some s => if host.cancelled state then .error .cancelled else .ok s

/-- **The body of the loop**, and whether the observer ends the run. -/
def iterate (progress : Progress V S) (s : S) : Run γ σ (Progress V S × Bool) := do
  let batch ← engine.explore progress.tracker s
  let (s, better) ← engine.absorb s batch
  Run.call model.flush
  let tracker := progress.tracker.next better
  let history := progress.history.push (model.present (engine.best s))
  let stop ← Run.call (model.observe tracker (engine.best s))
  return (⟨tracker, s, history⟩, stop)

/-- **The loop**, whose head is passed at most `rounds` times. -/
def loop : (rounds : Nat) → Progress V S → Run γ σ (Option (StopReason × Progress V S))
  | 0, _ => return none
  | rounds + 1, progress => do
    match verdict host criteria engine progress (← get).state with
    | .error reason => return some (reason, progress)
    | .ok s =>
      let (progress, stop) ← iterate model engine progress s
      if stop then return some (.observer, progress) else loop rounds progress

/-- The loop from the start of an engine. -/
def run (rounds : Nat) (s : S) : Run γ σ (Option (StopReason × Progress V S)) :=
  loop host model criteria engine rounds ⟨.start .standard, s, #[]⟩

end Search

end Metaheuristics
