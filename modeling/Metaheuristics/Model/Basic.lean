import Metaheuristics.Bound
import Metaheuristics.Fitness.Order
import Metaheuristics.Population.Ranking
import Metaheuristics.Tracker
import Metaheuristics.World

/-!
# Models

What an engine knows of a problem: the bounds of the decision variables, the order of fitness, and a
handful of callbacks on a shared state `σ`.  `Model.ofObjective` is the model with nothing but an
objective, in which every position is feasible and starting candidates are uniform.

A position reaches the objective only when it is known to be feasible (`Model.evaluate`).  Starting
candidates are checked before anything is evaluated (`Model.startingPositions`).
-/

namespace Metaheuristics

/-- **A black box to be optimised.**  `γ` is the source of randomness, `σ` the state of the
callbacks, `V` the fitness. -/
structure Model (γ σ V : Type) where
  order : FitnessOrder V
  bounds : List Bound
  /-- The fitness of a feasible position, absent where it has none. -/
  objective : Position → StateM σ (Except EvaluationError (Option V))
  /-- The number of decision variables, which has to be the number of bounds. -/
  dimension : Nat
  /-- As many starting candidates as asked for, each as long as the dimension. -/
  initial : Nat → StateM (World γ σ) (List Position)
  /-- Whether a position is feasible, where that is known. -/
  feasible : Position → StateM σ (Option Bool)
  compare : Option V → Option V → Ordering
  /-- The fitness that stands in for an absent one. -/
  worst : V
  /-- How far two fitness values are apart, for the acceptance of worse ones. -/
  distance : V → V → Float
  /-- Called once in each iteration. -/
  flush : StateM σ Unit
  /-- Called at the end of each iteration with the best fitness so far.  `true` ends the run. -/
  observe : Tracker → Option V → StateM σ Bool

namespace Model

variable {γ σ V : Type}

/-- Uniform positions. -/
def uniform [Random.Source γ] (bounds : List Bound) (amount : Nat) : StateM γ (List Position) :=
  (List.range amount).mapM fun _ => bounds.mapM Bound.sample

/-- **The model with nothing but an objective.** -/
def ofObjective [Random.Source γ] (order : FitnessOrder V) (bounds : List Bound)
    (objective : Position → StateM σ (Except EvaluationError (Option V))) : Model γ σ V where
  order := order
  bounds := bounds
  objective := objective
  dimension := bounds.length
  initial amount world :=
    let (positions, random) := uniform bounds amount world.random
    (positions, { world with random })
  feasible _ := pure (some true)
  compare := compareOptional order.compare
  worst := order.worst
  distance := order.distance
  flush := pure ()
  observe _ _ := pure false

variable (model : Model γ σ V)

/-- **The fitness of a position.**  The objective sees only positions that are known to be feasible.
-/
def evaluate (position : Position) : StateM σ (Except EvaluationError (Option V)) := do
  match ← model.feasible position with
  | some true => model.objective position
  | _ => return .ok none

/-- Whether a fitness is strictly better than another one. -/
def isBetter (x y : Option V) : Bool := model.compare x y == .lt

/-- A fitness with the worst one in place of an absent one. -/
def present (fitness : Option V) : V := fitness.getD model.worst

/-- A candidate with the worst fitness in place of an absent one. -/
def complete (candidate : Candidate V) : Candidate V :=
  { candidate with fitness := some (model.present candidate.fitness) }

/-- The comparison of candidates by fitness. -/
def compareCandidates (x y : Candidate V) : Ordering := model.compare x.fitness y.fitness

/-- The candidates of some positions, in their order, up to the first evaluation that fails. -/
def evaluateAll (positions : List Position) : Run γ σ (List (Candidate V)) :=
  positions.mapM fun position => do
    let fitness ← Run.tryCall (model.evaluate position)
    return ⟨position, fitness⟩

/-- The candidates of some positions, with the worst fitness in place of an absent one. -/
def settle (positions : List Position) : Run γ σ (List (Candidate V)) := do
  let candidates ← model.evaluateAll positions
  return candidates.map model.complete

/-- **Starting candidates**, unless the model breaks its agreements about them. -/
def startingPositions (amount : Nat) : Run γ σ (List Position) := do
  let positions ← model.initial amount
  if positions.length ≠ amount then Run.violate .wrongAmount
  else if model.dimension ≠ model.bounds.length then Run.violate .wrongDimension
  else if positions.any (·.length ≠ model.dimension) then Run.violate .wrongLength
  else return positions

end Model

end Metaheuristics
