import Metaheuristics.Arithmetic
import Metaheuristics.Stopping

/-!
# The progress of a run

A tracker counts iterations and the iterations in a row that found nothing better, and says which
limit has been passed and how much of the budget is spent.  For methods that work with a linear
relaxation it also records the objectives of the relaxation and of the incumbent, and keeps the
lower and upper bound that follow from them.  All these objectives are minimised, and a comparison
with something that is not a number fails, so such a value never becomes a best one.
-/

namespace Metaheuristics

/-- From when on an improvement counts as slow. -/
structure Thresholds where
  /-- The least first step of the relaxation. -/
  relaxationStep : Float
  /-- The first step of the relaxation relative to its objective. -/
  relativeStep : Float
  /-- After how many slow incumbents the search is slow. -/
  slowCount : Nat
deriving Repr, DecidableEq

/-- A step of 100, or a hundredth of the objective; slow after five incumbents. -/
def Thresholds.standard : Thresholds := ⟨100.0, 0.01, 5⟩

/-- **The progress of one run.** -/
structure Tracker where
  thresholds : Thresholds
  iteration : Nat
  /-- Iterations in a row without a new best. -/
  notBetter : Nat
  /-- Improvements of the relaxation below this step are slow.  Infinite until the first one. -/
  slowStep : Float
  slowRelaxations : Nat
  slowIncumbents : Nat
  lastRelaxation : Float
  lastIncumbent : Float
  best : Float
  bestRelaxation : Float
  bestDual : Float
  lowerBound : Float
  /-- The first incumbent. -/
  upperBound : Option Float
deriving Repr, DecidableEq

/-- A priced column: the executor it belongs to and its reduced cost. -/
structure Column (κ : Type) where
  executor : κ
  reducedCost : Float
deriving Repr, DecidableEq

namespace Tracker

/-- **The start of a run.** -/
def start (thresholds : Thresholds) : Tracker where
  thresholds := thresholds
  iteration := 0
  notBetter := 0
  slowStep := Arithmetic.infinity
  slowRelaxations := 0
  slowIncumbents := 0
  lastRelaxation := Arithmetic.largest
  lastIncumbent := Arithmetic.largest
  best := Arithmetic.largest
  bestRelaxation := Arithmetic.largest
  bestDual := -Arithmetic.largest
  lowerBound := 0.0
  upperBound := none

instance : Inhabited Tracker := ⟨start .standard⟩

/-! ## Counting -/

def increment (t : Tracker) : Tracker := { t with iteration := t.iteration + 1 }

/-- One iteration back, and not below zero. -/
def decrement (t : Tracker) : Tracker := { t with iteration := t.iteration - 1 }

/-- **The end of an iteration.**  A new best ends the stagnation. -/
def next (t : Tracker) (better : Bool) : Tracker :=
  { t with
    iteration := t.iteration + 1
    notBetter := if better then 0 else t.notBetter + 1 }

/-- **The first limit that has been passed**, of iterations, stagnation and time in this order. -/
def stopReason (t : Tracker) (criteria : StopCriteria) (elapsed : Duration) : Option StopReason :=
  if criteria.iterationLimit.any (· < t.iteration) then some .iterationLimit
  else if criteria.stagnationLimit.any (· < t.notBetter) then some .stagnationLimit
  else if criteria.timeLimit.any (·.nanoseconds < elapsed.nanoseconds) then some .timeLimit
  else none

/-- The fraction of the budget that is spent: the larger of the spent fractions of time and of
iterations, an absent limit counting as zero and a limit of zero as spent. -/
def progress (t : Tracker) (criteria : StopCriteria) (elapsed : Duration) : Float :=
  let byTime := match criteria.timeLimit with
    | none => 0.0
    | some limit => if limit.nanoseconds = 0 then 1.0 else elapsed.toFloat / limit.toFloat
  let byIteration := match criteria.iterationLimit with
    | none => 0.0
    | some limit => if limit = 0 then 1.0 else Float.ofNat t.iteration / Float.ofNat limit
  Arithmetic.clamp 0.0 1.0 Arithmetic.zero_le_one (Arithmetic.maximum byTime byIteration)

/-! ## Bounds -/

/-- Whether the incumbents have been improving slowly for long enough. -/
def isSlow (t : Tracker) : Bool := t.thresholds.slowCount ≤ t.slowIncumbents

/-- **How close the incumbent is to the proven optimum**: the root of `(lower + 1) / (best + 1)`, or
the part of the upper bound that has been gained, where that is more, and at most one. -/
def optimalRate (t : Tracker) : Float :=
  let byBounds := ((t.lowerBound + 1.0) / (t.best + 1.0)).sqrt
  let rate := match t.upperBound with
    | none => byBounds
    | some upper => Arithmetic.maximum byBounds ((upper - t.best) / upper)
  Arithmetic.minimum rate 1.0

/-- The lower bound drawn down to a value that lies below it. -/
def lowerTo (t : Tracker) (value : Float) : Tracker :=
  if value < t.lowerBound then { t with lowerBound := value } else t

/-- The bookkeeping of slow improvements for a new objective of the relaxation. -/
def noteRelaxation (t : Tracker) (objective : Float) : Tracker :=
  if t.slowStep.isInf then
    { t with
      slowStep := Arithmetic.maximum t.thresholds.relaxationStep
        (objective * t.thresholds.relativeStep)
      lastRelaxation := objective }
  else if t.lastRelaxation - objective < t.slowStep ∨
      (t.best - objective) / t.bestRelaxation < 1.0 then
    { t with slowRelaxations := t.slowRelaxations + 1, lastRelaxation := objective }
  else { t with slowRelaxations := 0, lastRelaxation := objective }

/-- **A new objective of the relaxation**, and whether it is the best so far. -/
def refreshRelaxation (t : Tracker) (objective : Float) : Bool × Tracker :=
  let t := t.noteRelaxation objective
  if objective < t.bestRelaxation then
    (true, { t with bestRelaxation := objective }.lowerTo objective)
  else (false, t)

/-- The bookkeeping of slow improvements for a new incumbent, and the upper bound. -/
def noteIncumbent (t : Tracker) (objective : Float) : Tracker :=
  let slow := (t.lastIncumbent - objective).abs < 0.01 ∨ (t.best - objective) / t.best < 0.01
  { t with
    slowIncumbents := if slow then t.slowIncumbents + 1 else 0
    lastIncumbent := objective
    upperBound := t.upperBound.or (some objective) }

/-- **A new incumbent**, and whether it is the best so far. -/
def refreshIncumbent (t : Tracker) (objective : Float) : Bool × Tracker :=
  let t := t.noteIncumbent objective
  if objective < t.best then (true, { t with best := objective }.lowerTo objective)
  else (false, t)

section Columns

variable {κ : Type} [DecidableEq κ]

/-- The least costs with one more column taken into account. -/
def recordCost (column : Column κ) : List (κ × Float) → List (κ × Float)
  | [] => [(column.executor, column.reducedCost)]
  | (executor, cost) :: costs =>
    if executor = column.executor then
      (executor, Arithmetic.minimum cost column.reducedCost) :: costs
    else (executor, cost) :: recordCost column costs

/-- The least reduced cost of each executor, in the order in which the executors come up. -/
def leastCosts (columns : List (Column κ)) : List (κ × Float) :=
  columns.foldl (fun costs column => recordCost column costs) []

/-- The dual bound of priced columns: the last objective of the relaxation and the least reduced
cost of each executor. -/
def dualBound (t : Tracker) (columns : List (Column κ)) : Float :=
  t.lastRelaxation + Arithmetic.sum ((leastCosts columns).map Prod.snd)

/-- **Freshly priced columns.**  Their dual bound is kept when it lies strictly between the best
dual bound and the best incumbent, and then lifts the lower bound if it is higher. -/
def refreshLowerBound (t : Tracker) (columns : List (Column κ)) : Tracker :=
  let dual := t.dualBound columns
  if t.bestDual < dual ∧ dual < t.best then
    { t with
      bestDual := dual
      lowerBound := if t.lowerBound < dual then dual else t.lowerBound }
  else t

end Columns

/-- Halves the step below which the relaxation improves slowly. -/
def halveStep (t : Tracker) : Tracker := { t with slowStep := t.slowStep / 2.0 }

end Tracker

end Metaheuristics
