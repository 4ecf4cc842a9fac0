import Metaheuristics.Annealing.Cooling
import Metaheuristics.Annealing.Trial
import Metaheuristics.Population.Elite
import Metaheuristics.Search

/-!
# Runs of annealing

Simulated annealing.  A chain of trials starts at the best starting candidate.  In each iteration
the chain makes a fixed number of trials at one temperature of the cooling schedule, and the points
it accepted are folded into the elite, which is the outcome.  The run is through when the
temperature has come down to its floor.
-/

namespace Metaheuristics.Annealing

/-- **The state of annealing.** -/
structure State (V : Type) where
  chain : Chain V
  elite : List (Candidate V)
  cooling : Cooling
  /-- The temperature of the last iteration. -/
  temperature : Float

/-- **The outcome of annealing.** -/
structure Outcome (V : Type) extends Metaheuristics.Outcome V where
  finalTemperature : Float
  finalStep : Float
  acceptedMoves : Nat
  improvingMoves : Nat

variable {γ σ V : Type} [Random.Source γ] (model : Model γ σ V) (settings : Settings)
  (host : Host σ)

/-- The candidates at the start. -/
def populate : Run γ σ (List (Candidate V)) := do
  model.settle (← model.startingPositions settings.initialAmount)

/-- The chain that begins at the best of some candidates. -/
def gather (candidates : List (Candidate V)) : Run γ σ (State V) := do
  let ranked ← host.sort model.compareCandidates candidates
  let leader ← Run.expect .emptyPopulation ranked.head?
  let point : Point V := ⟨leader.position, model.present leader.fitness⟩
  return {
    chain := ⟨point, point, settings.step, 0, 0⟩
    elite := ranked.take settings.solutionAmount
    cooling := .start settings.initialTemperature settings.gradient
    temperature := settings.initialTemperature }

/-- **The chain at the start.** -/
def start : Run γ σ (State V) := do
  gather model settings host (← populate model settings)

/-- The state at the temperature of an iteration, unless that has come down to its floor. -/
def cool (iteration : Nat) (state : State V) : Option (State V) :=
  let (temperature, cooling) := state.cooling.temperature iteration
  if temperature ≤ settings.finalTemperature then none
  else some { state with temperature, cooling }

/-- **The trials of one iteration.** -/
def explore (math : Elementary) (state : State V) : Run γ σ (Batch V) :=
  trials model settings math state.temperature settings.markovLength ⟨state.chain, #[], false⟩

/-- **The state after the trials**, and whether one of them was a new best. -/
def absorb (state : State V) (batch : Batch V) : Run γ σ (State V × Bool) := do
  let ranked ← host.sort model.compareCandidates batch.accepted.toList
  let elite ← Run.expect .indexOutOfRange (Elite.refresh? model.compareCandidates state.elite
    (ranked.take settings.solutionAmount) settings.solutionAmount)
  return ({ state with chain := batch.chain, elite }, batch.better)

/-- Annealing as an engine. -/
def engine : Engine γ σ V (State V) (Batch V) where
  enter := cool settings
  explore _ state := explore model settings host.math state
  absorb := absorb model settings host
  best state := some state.chain.best.fitness

/-- The outcome of a search that has ended. -/
def outcome (reason : StopReason) (progress : Progress V (State V)) : Outcome V where
  solutions := progress.engine.elite
  iterations := progress.tracker.iteration
  reason := reason
  history := progress.history.toList
  finalTemperature := progress.engine.temperature
  finalStep := progress.engine.chain.step
  acceptedMoves := progress.engine.chain.acceptedMoves
  improvingMoves := progress.engine.chain.improvingMoves

/-- **A run of annealing.** -/
def run (rounds : Nat) : Run γ σ (Option (Outcome V)) := do
  Run.require settings.check
  Run.require (settings.checkDimension model.dimension)
  let state ← start model settings host
  let result ← Search.run host model settings.criteria (engine model settings host) rounds state
  return result.map fun (reason, progress) => outcome reason progress

end Metaheuristics.Annealing
