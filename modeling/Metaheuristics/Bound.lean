import Metaheuristics.Arithmetic
import Metaheuristics.Decimal.Layout
import Metaheuristics.Random.Draw

/-!
# Bounds

The closed interval a coordinate lives in.  Both ends are finite and in order, which the type
records, so that clamping is defined.  The width `upper - lower` may still overflow; `interpolate`
and `scaledRange` then work on the two ends separately.
-/

namespace Metaheuristics

/-- **A closed interval** with finite ends. -/
structure Bound where
  lower : Float
  upper : Float
  lower_finite : lower.isFinite = true
  upper_finite : upper.isFinite = true
  ordered : lower ≤ upper

/-- Why two numbers are no bound. -/
inductive BoundError where
  | inverted (lower upper : Float)
  | notFinite (lower upper : Float)
deriving DecidableEq

/-- The text of a bound error. -/
def BoundError.message : BoundError → String
  | inverted lower upper =>
    "InvertedBound: lower bound must not exceed upper. lower = " ++ text lower ++ ", upper = "
      ++ text upper
  | notFinite lower upper =>
    "NonFiniteBound: bounds must be finite numbers. lower = " ++ text lower ++ ", upper = "
      ++ text upper
where
  text (x : Float) : String := Decimal.Layout.message.render x

namespace Bound

/-- The bound with the given ends.  An end that is not finite is reported before the order of the
ends is looked at. -/
def ofLimits (lower upper : Float) : Except BoundError Bound :=
  if h : lower.isFinite = true ∧ upper.isFinite = true then
    if ordered : lower ≤ upper then .ok ⟨lower, upper, h.1, h.2, ordered⟩
    else .error (.inverted lower upper)
  else .error (.notFinite lower upper)

/-- The width of the interval, which may be infinite. -/
def range (b : Bound) : Float := b.upper - b.lower

/-- Whether a value lies in the interval. -/
def contains (b : Bound) (x : Float) : Bool := b.lower ≤ x && x ≤ b.upper

/-- **The value moved into the interval.**  What is not a number goes to the lower end. -/
def clamp (b : Bound) (x : Float) : Float :=
  if x.isNaN then b.lower else Arithmetic.clamp b.lower b.upper b.ordered x

/-- The point at the fraction `t` of the way from the lower to the upper end. -/
def interpolate (b : Bound) (t : Float) : Float :=
  if b.range.isFinite then b.lower + b.range * t else b.lower * (1.0 - t) + b.upper * t

/-- The width times a factor. -/
def scaledRange (b : Bound) (factor : Float) : Float :=
  if b.range.isFinite then b.range * factor else b.upper * factor - b.lower * factor

/-- A uniform value of the interval.  A single point needs no draw. -/
def sample {γ : Type} [Random.Source γ] (b : Bound) : StateM γ Float := do
  if b.lower == b.upper then return b.lower
  else return b.clamp (b.interpolate (← Random.unit))

/-- The text of a bound. -/
def description (b : Bound) : String :=
  "Bound \x7b lower: " ++ Decimal.Layout.inspection.render b.lower ++ ", upper: "
    ++ Decimal.Layout.inspection.render b.upper ++ " \x7d"

end Bound

end Metaheuristics
