import Metaheuristics.Model.Basic
import Metaheuristics.Swarm.Settings

/-!
# Particles

A particle has a position with its fitness, a velocity, and a memory of the best state it has been
in.  In a move each coordinate is steered by the particle's inertia, by its own best position and by
the best position of the swarm; the velocity is limited and the position kept within its bounds
(`Axis.move`).  The memory changes only for a strictly better fitness (`Particle.record`).
-/

namespace Metaheuristics.Swarm

/-- **A particle.** -/
structure Particle (V : Type) where
  fitness : Option V
  position : Position
  velocity : List Float
  /-- The best state so far. -/
  best : Candidate V
deriving Repr, DecidableEq

namespace Particle

variable {V : Type}

/-- A particle whose first state is its best one. -/
def ofState (position : Position) (velocity : List Float) (fitness : Option V) :
    Except Violation (Particle V) :=
  if position.length = velocity.length then .ok ⟨fitness, position, velocity, ⟨position, fitness⟩⟩
  else .error .unequalLengths

/-- The number of coordinates. -/
def size (p : Particle V) : Nat := p.position.length

/-- The present state. -/
def snapshot (p : Particle V) : Candidate V := ⟨p.position, p.fitness⟩

/-- The particle with its present state as its best one. -/
def adopt (p : Particle V) : Particle V := { p with best := p.snapshot }

/-- **The particle with the fitness of its position**, which it adopts if it is strictly better than
its best state. -/
def record (compare : Option V → Option V → Ordering) (p : Particle V) (fitness : Option V) :
    Particle V :=
  let p := { p with fitness }
  if compare p.fitness p.best.fitness == .lt then p.adopt else p

end Particle

/-! ## Moves -/

/-- One coordinate of a particle, with what steers it. -/
structure Axis where
  bound : Bound
  position : Float
  velocity : Float
  /-- The coordinate of the particle's best position. -/
  own : Float
  /-- The coordinate of the best position of the swarm. -/
  shared : Float

namespace Axis

/-- The coordinates of a particle, unless one of the lists is shorter than the position. -/
def ofLists : (bounds : List Bound) → (position velocity own shared : List Float) →
    Option (List Axis)
  | _, [], _, _, _ => some []
  | b :: bounds, x :: position, v :: velocity, p :: own, g :: shared =>
    (ofLists bounds position velocity own shared).map (⟨b, x, v, p, g⟩ :: ·)
  | _, _, _, _, _ => none

/-- The velocity before it is limited. -/
def steer (settings : Settings) (axis : Axis) (r₁ r₂ : Float) : Float :=
  settings.inertia * axis.velocity
    + settings.cognitiveFactor * r₁ * (axis.own - axis.position)
    + settings.socialFactor * r₂ * (axis.shared - axis.position)

/-- A velocity within the limit in both directions.  Opposite infinite pulls cancel. -/
def limit? (settings : Settings) (velocity : Float) : Option Float :=
  if velocity.isNaN then some 0.0
  else Arithmetic.clamp? (-settings.maxVelocity) settings.maxVelocity velocity

/-- **The new position and velocity of a coordinate.** -/
def move {γ σ : Type} [Random.Source γ] (settings : Settings) (axis : Axis) :
    Run γ σ (Float × Float) := do
  let r₁ ← Run.draw Random.unit
  let r₂ ← Run.draw Random.unit
  let velocity ← Run.expect .invertedLimits (limit? settings (axis.steer settings r₁ r₂))
  return (axis.bound.clamp (axis.position + velocity), velocity)

end Axis

/-- **A particle after its move.**  Its fitness is still that of the position it left. -/
def Particle.move {γ σ V : Type} [Random.Source γ] (settings : Settings) (bounds : List Bound)
    (shared : Position) (p : Particle V) : Run γ σ (Particle V) := do
  let axes ← Run.expect .indexOutOfRange
    (Axis.ofLists bounds p.position p.velocity p.best.position shared)
  let moved ← axes.mapM (Axis.move settings)
  return { p with position := moved.map (·.1), velocity := moved.map (·.2) }

end Metaheuristics.Swarm
