import Metaheuristics.Multiverse.Passage
import Metaheuristics.Population.Elite
import Metaheuristics.Search

/-!
# Runs of a multiverse

Multi-verse optimisation.  A universe is a candidate, and an infeasible one counts as the worst
there is.  In each iteration the scores of the universes become white-hole rates, all universes are
transformed, evaluated and sorted, best first, and the best ones are folded into the elite, which is
the outcome.
-/

namespace Metaheuristics.Multiverse

/-- **The state of a multiverse.** -/
structure State (V : Type) where
  /-- The universes, best first. -/
  universes : List (Candidate V)
  /-- The best universe there has been. -/
  best : Candidate V
  elite : List (Candidate V)

variable {γ σ V : Type} [Random.Source γ] (model : Model γ σ V) (settings : Settings)
  (host : Host σ)

/-- The score of a universe, the least there is for an absent fitness. -/
def score (u : Candidate V) : Float :=
  match u.fitness with
  | some fitness => model.order.score fitness
  | none => -Arithmetic.infinity

/-- What the moves from a state have in common, at some progress of the run. -/
def passage (math : Elementary) (progress : Float) (state : State V) : Passage V where
  universes := state.universes
  rates := settings.normalization.normalize (state.universes.map (score model))
  wormholeProbability := settings.wormholeProbability progress
  travelDistance := travelDistance math progress

/-- The universes at the starting candidates. -/
def populate : Run γ σ (List (Candidate V)) := do
  model.settle (← model.startingPositions settings.universeAmount)

/-- The multiverse that begins with some universes. -/
def gather (universes : List (Candidate V)) : Run γ σ (State V) := do
  let universes ← host.sort model.compareCandidates universes
  let best ← Run.expect .emptyPopulation universes.head?
  return ⟨universes, best, universes.take settings.solutionAmount⟩

/-- **The multiverse at the start.** -/
def start : Run γ σ (State V) := do
  gather model settings host (← populate model settings)

/-- **The next generation of universes** at some progress of the run, in the order of the present
one. -/
def explore (math : Elementary) (progress : Float) (state : State V) :
    Run γ σ (List (Candidate V)) := do
  let passage := passage model settings math progress state
  let positions ← state.universes.zipIdx.mapM fun (u, i) =>
    transformAt settings math model.bounds passage state.best.position u i
  model.settle positions

/-- **The multiverse with its next generation**, and whether that holds a new best universe. -/
def absorb (state : State V) (universes : List (Candidate V)) : Run γ σ (State V × Bool) := do
  let universes ← host.sort model.compareCandidates universes
  let leader ← Run.expect .emptyPopulation universes.head?
  let better := model.isBetter leader.fitness state.best.fitness
  let best := if better then leader else state.best
  let elite ← Run.expect .indexOutOfRange (Elite.refresh? model.compareCandidates state.elite
    (universes.take settings.solutionAmount) settings.solutionAmount)
  return (⟨universes, best, elite⟩, better)

/-- The multiverse as an engine.  The progress of the run is read off when an iteration begins. -/
def engine : Engine γ σ V (State V) (List (Candidate V)) where
  enter _ state := some state
  explore tracker state := do
    let elapsed := host.elapsed (← get).state
    explore model settings host.math (tracker.progress settings.criteria elapsed) state
  absorb := absorb model settings host
  best state := state.best.fitness

/-- The outcome of a search that has ended. -/
def outcome (reason : StopReason) (progress : Progress V (State V)) : Outcome V :=
  ⟨progress.engine.elite, progress.tracker.iteration, reason, progress.history.toList⟩

/-- **A run of a multiverse.** -/
def run (rounds : Nat) : Run γ σ (Option (Outcome V)) := do
  Run.require settings.check
  let state ← start model settings host
  let result ← Search.run host model settings.criteria (engine model settings host) rounds state
  return result.map fun (reason, progress) => outcome reason progress

end Metaheuristics.Multiverse
