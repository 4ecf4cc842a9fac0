import Metaheuristics.Settings
import Metaheuristics.Stopping

/-!
# Settings of annealing
-/

namespace Metaheuristics.Annealing

/-- In which direction a coordinate is disturbed. -/
inductive Disturbance where
  /-- Upwards only. -/
  | forward
  /-- Up or down. -/
  | symmetric
deriving Repr, DecidableEq, Inhabited

/-- The name of a disturbance. -/
def Disturbance.name : Disturbance → String
  | forward => "Forward"
  | symmetric => "Symmetric"

/-- **How annealing is run.** -/
structure Settings where
  initialTemperature : Float
  /-- The run ends at this temperature. -/
  finalTemperature : Float
  /-- The factor between one temperature and the next. -/
  gradient : Float
  /-- The number of trials at each temperature. -/
  markovLength : Nat
  /-- The size of a disturbance relative to the width of the bound. -/
  step : Float
  /-- The factor by which the step shrinks with each new best. -/
  stepDecay : Float
  /-- The number of coordinates disturbed in a trial. -/
  disturbanceAmount : Nat
  disturbance : Disturbance
  /-- The number of starting candidates, the best of which starts the chain. -/
  initialAmount : Nat
  /-- The most solutions of a run. -/
  solutionAmount : Nat
  criteria : StopCriteria
  seed : Option UInt64
deriving Repr, DecidableEq

namespace Settings

def standard : Settings where
  initialTemperature := 100.0
  finalTemperature := 1.0
  gradient := 0.98
  markovLength := 100
  step := 0.5
  stepDecay := 0.99
  disturbanceAmount := 1
  disturbance := .forward
  initialAmount := 1
  solutionAmount := 1
  criteria := .standard
  seed := none

instance : Inhabited Settings := ⟨standard⟩

/-- **The first fault of the settings**, if they have one. -/
def check (s : Settings) : Except SettingsError Unit := do
  Requirement.positiveFinite.check .initialTemperature s.initialTemperature
  Requirement.nonNegative.check .finalTemperature s.finalTemperature
  if s.initialTemperature ≤ s.finalTemperature then throw .floorNotBelowStart
  Requirement.openUnit.check .gradient s.gradient
  Parameter.markovLength.checkCount s.markovLength
  Requirement.positiveFinite.check .step s.step
  Requirement.halfOpenUnit.check .stepDecay s.stepDecay
  Parameter.disturbanceAmount.checkCount s.disturbanceAmount
  Parameter.initialAmount.checkCount s.initialAmount
  Parameter.solutionAmount.checkCount s.solutionAmount

/-- Refuses to disturb more coordinates than there are. -/
def checkDimension (s : Settings) (dimension : Nat) : Except SettingsError Unit :=
  if dimension < s.disturbanceAmount then
    .error (.disturbanceExceedsDimension s.disturbanceAmount dimension)
  else .ok ()

end Settings

end Metaheuristics.Annealing
