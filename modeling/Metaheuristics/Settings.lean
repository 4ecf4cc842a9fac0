import Metaheuristics.Decimal.Layout

/-!
# Requirements on settings

The settings of an engine are counts and numbers, and each has a range in which the engine is
defined.  A range is a `Requirement`, a named setting is a `Parameter`, and a setting outside its
range is a `SettingsError`, whose `message` says which range was missed and by what.
`Requirement.check` and `Parameter.checkCount` are the two checks that the engines are configured
with.
-/

namespace Metaheuristics

/-- The settings that have a range of their own. -/
inductive Parameter where
  | particleAmount
  | universeAmount
  | initialAmount
  | solutionAmount
  | inertia
  | cognitiveFactor
  | socialFactor
  | maxVelocity
  | initialVelocity
  | initialTemperature
  | finalTemperature
  | gradient
  | markovLength
  | step
  | stepDecay
  | disturbanceAmount
  | tournamentSize
  | boltzmannTemperature
deriving Repr, DecidableEq

/-- The name of a setting in messages. -/
def Parameter.name : Parameter → String
  | .particleAmount => "particle_amount"
  | .universeAmount => "universe_amount"
  | .initialAmount => "initial_amount"
  | .solutionAmount => "solution_amount"
  | .inertia => "inertia weight"
  | .cognitiveFactor => "c1"
  | .socialFactor => "c2"
  | .maxVelocity => "max_velocity"
  | .initialVelocity => "initial_velocity"
  | .initialTemperature => "initial_temperature"
  | .finalTemperature => "final_temperature"
  | .gradient => "gradient"
  | .markovLength => "markov_length"
  | .step => "step"
  | .stepDecay => "step_decay"
  | .disturbanceAmount => "disturbance_amount"
  | .tournamentSize => "tournament size"
  | .boltzmannTemperature => "boltzmann temperature"

/-- The ranges of numeric settings. -/
inductive Requirement where
  | finite
  | finiteNonNegative
  | positive
  | positiveFinite
  | nonNegative
  | openUnit
  | halfOpenUnit
deriving Repr, DecidableEq

namespace Requirement

/-- The words for a range. -/
def text : Requirement → String
  | finite => "finite"
  | finiteNonNegative => "finite and non-negative"
  | positive => "positive"
  | positiveFinite => "positive and finite"
  | nonNegative => "non-negative"
  | openUnit => "in (0, 1)"
  | halfOpenUnit => "in (0, 1]"

/-- Whether a value lies in the range.  A value that is not a number lies in none. -/
def holds : Requirement → Float → Bool
  | finite, x => x.isFinite
  | finiteNonNegative, x => 0.0 ≤ x && x.isFinite
  | positive, x => 0.0 < x
  | positiveFinite, x => 0.0 < x && x.isFinite
  | nonNegative, x => 0.0 ≤ x
  | openUnit, x => 0.0 < x && x < 1.0
  | halfOpenUnit, x => 0.0 < x && x ≤ 1.0

end Requirement

/-- **What can be wrong with settings.** -/
inductive SettingsError where
  | zero (parameter : Parameter)
  | outOfRange (parameter : Parameter) (requirement : Requirement) (got : Float)
  /-- The temperature at which annealing stops is not below the one at which it starts. -/
  | floorNotBelowStart
  /-- A wormhole probability is not a probability. -/
  | wormholesOutOfRange (least most : Float)
  /-- The wormhole probability would fall during the run. -/
  | wormholesInverted (least most : Float)
  /-- More dimensions are to be disturbed than there are. -/
  | disturbanceExceedsDimension (amount dimension : Nat)
deriving DecidableEq

/-- A value as it is quoted in a message. -/
def quoteValue (x : Float) : String := Decimal.Layout.message.render x

/-- The text of a settings error. -/
def SettingsError.message : SettingsError → String
  | zero parameter => parameter.name ++ " must be at least 1"
  | outOfRange parameter requirement got =>
    parameter.name ++ " must be " ++ requirement.text ++ ", got " ++ quoteValue got
  | floorNotBelowStart => "final_temperature must be less than initial_temperature"
  | wormholesOutOfRange least most =>
    "wep bounds must be in [0, 1], got [" ++ quoteValue least ++ ", " ++ quoteValue most ++ "]"
  | wormholesInverted least most =>
    "min_wep must not exceed max_wep, got " ++ quoteValue least ++ " > " ++ quoteValue most
  | disturbanceExceedsDimension amount dimension =>
    "disturbance_amount " ++ toString amount ++ " exceeds the model dimension "
      ++ toString dimension

/-! ## Checks -/

/-- Refuses a count of zero. -/
def Parameter.checkCount (parameter : Parameter) (count : Nat) : Except SettingsError Unit :=
  if count = 0 then .error (.zero parameter) else .ok ()

/-- Refuses a value outside the range. -/
def Requirement.check (requirement : Requirement) (parameter : Parameter) (x : Float) :
    Except SettingsError Unit :=
  if requirement.holds x then .ok () else .error (.outOfRange parameter requirement x)

end Metaheuristics
