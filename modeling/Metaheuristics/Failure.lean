import Metaheuristics.Settings

/-!
# Failures of a run

A run fails for one of three reasons: its settings are refused, the objective reports an error, or
the model or the caller breaks an agreement.  Each is a type of its own, and `Failure.message` is
the text of all of them.  An infeasible candidate is no failure; it carries an absent fitness.
-/

namespace Metaheuristics

/-- An error reported by the objective.  It ends the run. -/
structure EvaluationError where
  reason : String
deriving Repr, DecidableEq

/-- The text of an evaluation error. -/
def EvaluationError.message (error : EvaluationError) : String :=
  "objective evaluation failed: " ++ error.reason

/-- **A broken agreement** between the library and its caller. -/
inductive Violation where
  /-- A selection from no weights at all. -/
  | emptyWeights
  /-- A weighted sum with a negative weight, or one that is not finite. -/
  | inadmissibleWeights
  /-- A particle with more or fewer velocities than coordinates. -/
  | unequalLengths
  /-- A model that gives more or fewer starting candidates than asked for. -/
  | wrongAmount
  /-- A model that states another dimension than it has bounds. -/
  | wrongDimension
  /-- A starting candidate with more or fewer coordinates than the dimension. -/
  | wrongLength
  /-- An index past the end of a list. -/
  | indexOutOfRange
  /-- The best of no candidates. -/
  | emptyPopulation
  /-- More distinct indices than there are. -/
  | oversizedSample
  /-- Clamping between limits that are out of order. -/
  | invertedLimits
  /-- Sorting by a comparison that is no total preorder of the items. -/
  | unorderedComparison
deriving Repr, DecidableEq

/-- The text of a violation. -/
def Violation.message : Violation → String
  | emptyWeights => "cannot select from empty weights"
  | inadmissibleWeights => "weights must be finite and non-negative"
  | unequalLengths => "position and velocity must have the same length"
  | wrongAmount => "initial_solutions must return the requested amount"
  | wrongDimension => "model dimension must equal the number of bounds"
  | wrongLength => "candidate length must equal the model dimension"
  | indexOutOfRange => "index out of range"
  | emptyPopulation => "no candidate to choose from"
  | oversizedSample => "sample larger than the population"
  | invertedLimits => "lower limit must not exceed the upper limit"
  | unorderedComparison =>
    "user-provided comparison function does not correctly implement a total order"

/-- **Why a run has no outcome.** -/
inductive Failure where
  | settings (error : SettingsError)
  | evaluation (error : EvaluationError)
  | violation (broken : Violation)
deriving DecidableEq

/-- The text of a failure. -/
def Failure.message : Failure → String
  | .settings error => "invalid configuration: " ++ error.message
  | .evaluation error => error.message
  | .violation broken => broken.message

end Metaheuristics
