import Metaheuristics.Failure
import Metaheuristics.Fitness.Order

/-!
# Orders of fitness vectors

Two ways to rank several objectives at once.  `Lexicographic` compares component by component and
lets the first difference decide; `WeightedSum` compares the sums of the weighted components.
Vectors of different lengths are compared as far as both go.
-/

namespace Metaheuristics

/-! ## The first difference decides -/

/-- The lexicographic order of vectors with `objectives` components. -/
structure Lexicographic where
  direction : Direction
  objectives : Nat
deriving Repr, DecidableEq

namespace Lexicographic

/-- The comparison at the first place where the two vectors differ. -/
def compare (direction : Direction) : List Float → List Float → Ordering
  | x :: xs, y :: ys => (direction.compare x y).then (compare direction xs ys)
  | _, _ => .eq

/-- The order itself.  Its score is that of the first component, and zero for an empty vector; its
distance is the sum of the distances of the components. -/
def order (ranking : Lexicographic) : FitnessOrder (List Float) where
  compare := compare ranking.direction
  worst := List.replicate ranking.objectives ranking.direction.worst
  score value := (value.head?.map ranking.direction.score).getD 0.0
  distance x y := Arithmetic.sum (List.zipWith (fun a b => (a - b).abs) x y)
  description := "Lexicographic \x7b category: " ++ ranking.direction.name ++ ", objectives: "
    ++ toString ranking.objectives ++ " \x7d"

end Lexicographic

/-! ## The weighted sum decides -/

/-- A weight that a sum may have. -/
def isAdmissibleWeight (weight : Float) : Bool := weight.isFinite && 0.0 ≤ weight

/-- The order by weighted sums.  No weight is negative, infinite or not a number. -/
structure WeightedSum where
  direction : Direction
  weights : List Float
  admissible : ∀ weight ∈ weights, isAdmissibleWeight weight = true

namespace WeightedSum

/-- The order with these weights, unless one of them is inadmissible. -/
def ofWeights (direction : Direction) (weights : List Float) : Except Violation WeightedSum :=
  if h : ∀ weight ∈ weights, isAdmissibleWeight weight = true then .ok ⟨direction, weights, h⟩
  else .error .inadmissibleWeights

/-- The weighted sum of a vector. -/
def scalarize (ranking : WeightedSum) (value : List Float) : Float :=
  Arithmetic.sum (List.zipWith (· * ·) ranking.weights value)

/-- The order itself. -/
def order (ranking : WeightedSum) : FitnessOrder (List Float) where
  compare x y := ranking.direction.compare (ranking.scalarize x) (ranking.scalarize y)
  worst := List.replicate ranking.weights.length ranking.direction.worst
  score value := ranking.direction.score (ranking.scalarize value)
  distance x y := (ranking.scalarize x - ranking.scalarize y).abs
  description := "WeightedSum \x7b category: " ++ ranking.direction.name ++ ", weights: ["
    ++ ", ".intercalate (ranking.weights.map Decimal.Layout.inspection.render) ++ "] \x7d"

end WeightedSum

end Metaheuristics
