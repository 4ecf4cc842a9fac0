import Metaheuristics.Annealing.Settings
import Metaheuristics.Model.Basic

/-!
# Trials of a chain

The chain of trials that annealing consists of.  A trial disturbs a few coordinates of the current
point; the disturbed point becomes the current one when it is better, and otherwise with a
probability that falls with its distance and with the temperature (`tolerates`).  A point that could
not be evaluated counts as the worst there is.  The chain remembers its best point, and each new one
shrinks the step of the disturbances (`Chain.accept`).
-/

namespace Metaheuristics.Annealing

/-- A position of the chain, the fitness of which is always known. -/
structure Point (V : Type) where
  position : Position
  fitness : V
deriving Repr, DecidableEq

/-- The candidate at a point. -/
def Point.toCandidate {V : Type} (point : Point V) : Candidate V :=
  ⟨point.position, some point.fitness⟩

/-- **The state of a chain.** -/
structure Chain (V : Type) where
  current : Point V
  best : Point V
  /-- The size of a disturbance relative to the width of the bound. -/
  step : Float
  acceptedMoves : Nat
  /-- The accepted moves to a better point. -/
  improvingMoves : Nat

/-- What the trials of one iteration add up to. -/
structure Batch (V : Type) where
  chain : Chain V
  /-- The accepted points in the order of the trials. -/
  accepted : Array (Candidate V)
  /-- Whether one of them was a new best. -/
  better : Bool

variable {γ σ V : Type} [Random.Source γ]

/-! ## Disturbances -/

/-- A random factor of a disturbance. -/
def Disturbance.draw : Disturbance → StateM γ Float
  | forward => Random.unit
  | symmetric => Random.symmetric

/-- A position with one coordinate disturbed. -/
def disturb (settings : Settings) (bounds : List Bound) (step : Float) (position : Position)
    (index : Nat) : Run γ σ Position := do
  let factor ← Run.draw settings.disturbance.draw
  Run.expect .indexOutOfRange do
    let bound ← bounds[index]?
    let x ← position[index]?
    some (position.set index (bound.clamp (x + bound.scaledRange (step * factor))))

/-- **A position with some coordinates disturbed**, distinct and chosen at random. -/
def perturb (settings : Settings) (bounds : List Bound) (step : Float) (position : Position) :
    Run γ σ Position := do
  if position.length < settings.disturbanceAmount then Run.violate .oversizedSample
  else
    let indices ← Run.draw (Random.sample position.length settings.disturbanceAmount)
    indices.foldlM (disturb settings bounds step) position

/-! ## Acceptance -/

variable (model : Model γ σ V) (settings : Settings) (math : Elementary)

/-- Whether a point that is no improvement is accepted all the same. -/
def tolerates (temperature : Float) (current trial : V) : Run γ σ Bool := do
  let distance := model.distance current trial
  let r ← Run.draw Random.unit
  return r < math.exp (-distance / temperature)

/-- Whether a point is accepted. -/
def accepts (temperature : Float) (improving : Bool) (current trial : V) : Run γ σ Bool :=
  if improving then pure true else tolerates model math temperature current trial

/-- The chain after it has moved to a point, and whether the point is a new best.  A new best
shrinks the step. -/
def Chain.accept (chain : Chain V) (point : Point V) (improving : Bool) : Chain V × Bool :=
  let chain := { chain with
    current := point
    acceptedMoves := chain.acceptedMoves + 1
    improvingMoves := if improving then chain.improvingMoves + 1 else chain.improvingMoves }
  if model.isBetter (some point.fitness) (some chain.best.fitness) then
    ({ chain with best := point, step := chain.step * settings.stepDecay }, true)
  else (chain, false)

/-- The batch with one more accepted point. -/
def Batch.accept (batch : Batch V) (point : Point V) (improving : Bool) : Batch V :=
  let (chain, better) := batch.chain.accept model settings point improving
  ⟨chain, batch.accepted.push point.toCandidate, batch.better || better⟩

/-- **One trial.** -/
def trial (temperature : Float) (batch : Batch V) : Run γ σ (Batch V) := do
  let chain := batch.chain
  let position ← perturb settings model.bounds chain.step chain.current.position
  let fitness ← Run.tryCall (model.evaluate position)
  let point : Point V := ⟨position, model.present fitness⟩
  let improving := model.isBetter (some point.fitness) (some chain.current.fitness)
  let accepted ← accepts model math temperature improving chain.current.fitness point.fitness
  return if accepted then batch.accept model settings point improving else batch

/-- A number of trials. -/
def trials (temperature : Float) : (amount : Nat) → Batch V → Run γ σ (Batch V)
  | 0, batch => return batch
  | amount + 1, batch => do
    trials temperature amount (← trial model settings math temperature batch)

end Metaheuristics.Annealing
