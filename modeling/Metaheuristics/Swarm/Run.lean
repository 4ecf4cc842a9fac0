import Metaheuristics.Population.Elite
import Metaheuristics.Search
import Metaheuristics.Swarm.Particle

/-!
# Runs of a swarm

Particle swarm optimisation.  The particles start at the model's starting candidates with random
velocities.  In each iteration all of them move, then all are evaluated and sorted, best first; a
leader strictly better than the best state of the swarm becomes that state, and the best particles
are folded into the elite, which is the outcome.
-/

namespace Metaheuristics.Swarm

/-- **The state of a swarm.** -/
structure State (V : Type) where
  /-- The particles, best first. -/
  particles : List (Particle V)
  /-- The best state any particle has been in. -/
  best : Candidate V
  elite : List (Candidate V)

variable {γ σ V : Type} [Random.Source γ] (model : Model γ σ V) (settings : Settings)
  (host : Host σ)

/-- The comparison of particles by their present fitness. -/
def compareParticles (p q : Particle V) : Ordering := model.compare p.fitness q.fitness

/-- The best particles' states, as many as there are solutions. -/
def leaders (particles : List (Particle V)) : List (Candidate V) :=
  (particles.take settings.solutionAmount).map (·.snapshot)

/-- A random velocity component at the start. -/
def initialVelocity : Run γ σ Float := do
  let r ← Run.draw Random.unit
  return (2.0 * r - 1.0) * settings.initialVelocity

/-- A particle at a starting candidate. -/
def launch (candidate : Candidate V) : Run γ σ (Particle V) := do
  let velocity ← (List.range model.dimension).mapM fun _ => initialVelocity settings
  match Particle.ofState candidate.position velocity candidate.fitness with
  | .ok particle => return particle
  | .error broken => Run.violate broken

/-- The particles at the starting candidates, in the order of the candidates. -/
def populate : Run γ σ (List (Particle V)) := do
  let positions ← model.startingPositions settings.particleAmount
  let candidates ← model.evaluateAll positions
  candidates.mapM (launch model settings)

/-- The swarm that begins with some particles. -/
def gather (particles : List (Particle V)) : Run γ σ (State V) := do
  let particles ← host.sort (compareParticles model) particles
  let leader ← Run.expect .emptyPopulation particles.head?
  return ⟨particles, leader.snapshot, leaders settings particles⟩

/-- **The swarm at the start.** -/
def start : Run γ σ (State V) := do
  gather model settings host (← populate model settings)

/-- A particle evaluated where it is now. -/
def appraise (p : Particle V) : Run γ σ (Particle V) := do
  let fitness ← Run.tryCall (model.evaluate p.position)
  return p.record model.compare fitness

/-- **The particles after one more move**, evaluated where they are now, in the order in which they
have moved. -/
def explore (state : State V) : Run γ σ (List (Particle V)) := do
  let moved ← state.particles.mapM (·.move settings model.bounds state.best.position)
  moved.mapM (appraise model)

/-- **The swarm with its particles after a move**, and whether the move found a new best state. -/
def absorb (state : State V) (particles : List (Particle V)) : Run γ σ (State V × Bool) := do
  let particles ← host.sort (compareParticles model) particles
  let leader ← Run.expect .emptyPopulation particles.head?
  let better := model.isBetter leader.fitness state.best.fitness
  let best := if better then leader.snapshot else state.best
  let elite ← Run.expect .indexOutOfRange (Elite.refresh? model.compareCandidates state.elite
    (leaders settings particles) settings.solutionAmount)
  return (⟨particles, best, elite⟩, better)

/-- The swarm as an engine. -/
def engine : Engine γ σ V (State V) (List (Particle V)) where
  enter _ state := some state
  explore _ state := explore model settings state
  absorb := absorb model settings host
  best state := state.best.fitness

/-- The outcome of a search that has ended. -/
def outcome (reason : StopReason) (progress : Progress V (State V)) : Outcome V :=
  ⟨progress.engine.elite, progress.tracker.iteration, reason, progress.history.toList⟩

/-- **A run of a swarm.** -/
def run (rounds : Nat) : Run γ σ (Option (Outcome V)) := do
  Run.require settings.check
  let state ← start model settings host
  let result ← Search.run host model settings.criteria (engine model settings host) rounds state
  return result.map fun (reason, progress) => outcome reason progress

end Metaheuristics.Swarm
