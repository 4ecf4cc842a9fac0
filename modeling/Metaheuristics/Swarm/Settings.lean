import Metaheuristics.Settings
import Metaheuristics.Stopping

/-!
# Settings of a swarm
-/

namespace Metaheuristics.Swarm

/-- **How a swarm is run.** -/
structure Settings where
  /-- The size of the swarm. -/
  particleAmount : Nat
  /-- The most solutions of a run. -/
  solutionAmount : Nat
  /-- The part of its velocity that a particle keeps. -/
  inertia : Float
  /-- The pull of a particle's own best position. -/
  cognitiveFactor : Float
  /-- The pull of the best position of the swarm. -/
  socialFactor : Float
  /-- The largest velocity in either direction. -/
  maxVelocity : Float
  /-- The largest velocity at the start. -/
  initialVelocity : Float
  criteria : StopCriteria
  /-- Whether particles may be evaluated side by side.  Runs are modelled as they are without that
  feature, which evaluate one particle after the other and do not read this.  Side by side, later
  particles may be evaluated although an earlier one fails, and which error is reported is open. -/
  parallel : Bool
  seed : Option UInt64
deriving Repr, DecidableEq

namespace Settings

def standard : Settings where
  particleAmount := 100
  solutionAmount := 1
  inertia := 0.4
  cognitiveFactor := 2.0
  socialFactor := 2.0
  maxVelocity := 10000.0
  initialVelocity := 1.0
  criteria := .standard
  parallel := false
  seed := none

instance : Inhabited Settings := ⟨standard⟩

/-- **The first fault of the settings**, if they have one. -/
def check (s : Settings) : Except SettingsError Unit := do
  Parameter.particleAmount.checkCount s.particleAmount
  Parameter.solutionAmount.checkCount s.solutionAmount
  Requirement.finite.check .inertia s.inertia
  Requirement.finiteNonNegative.check .cognitiveFactor s.cognitiveFactor
  Requirement.finiteNonNegative.check .socialFactor s.socialFactor
  Requirement.positive.check .maxVelocity s.maxVelocity
  Requirement.positiveFinite.check .initialVelocity s.initialVelocity

end Settings

end Metaheuristics.Swarm
