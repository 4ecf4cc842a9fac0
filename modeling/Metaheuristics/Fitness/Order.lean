import Metaheuristics.Arithmetic

/-!
# Orders of fitness

A fitness order says which of two fitness values is better.  It is a total preorder: ties are
allowed, and every value has its place, also one that is not a number, which ranks after all numbers
in either direction (`Direction.compare`).  The fitness of a candidate that could not be evaluated
is absent, and absent fitness ranks after every present one (`compareOptional`).  Throughout, `lt`
means better.
-/

namespace Metaheuristics

/-- **An order of fitness values** in `V`. -/
structure FitnessOrder (V : Type) where
  /-- `lt` when the left value is the better one. -/
  compare : V → V → Ordering
  /-- A value that no value is worse than. -/
  worst : V
  /-- The value as a number that is larger the better the value is. -/
  score : V → Float
  /-- How far two values are apart. -/
  distance : V → V → Float
  /-- The text that stands for the order. -/
  description : String

/-- A comparison carried over to values that may be absent.  Absent ones are last and equal. -/
def compareOptional {V : Type} (compare : V → V → Ordering) : Option V → Option V → Ordering
  | none, none => .eq
  | none, some _ => .gt
  | some _, none => .lt
  | some x, some y => compare x y

/-! ## Scalar fitness -/

/-- Whether small or large values are better. -/
inductive Direction where
  | minimize
  | maximize
deriving Repr, DecidableEq, Inhabited

namespace Direction

/-- The name of a direction in texts. -/
def name : Direction → String
  | minimize => "Minimize"
  | maximize => "Maximize"

/-- The infinity that is worst. -/
def worst : Direction → Float
  | minimize => Arithmetic.infinity
  | maximize => -Arithmetic.infinity

/-- The comparison by size. -/
def compareNumbers (x y : Float) : Ordering :=
  if x < y then .lt else if y < x then .gt else .eq

/-- **The comparison of two scalars.**  What is not a number is worse than every number and ties
with itself; numbers compare by size. -/
def compare (direction : Direction) (x y : Float) : Ordering :=
  match x.isNaN, y.isNaN with
  | true, true => .eq
  | true, false => .gt
  | false, true => .lt
  | false, false =>
    match direction with
    | minimize => compareNumbers x y
    | maximize => (compareNumbers x y).swap

/-- The scalar as a larger-is-better number. -/
def score : Direction → Float → Float
  | minimize, x => -x
  | maximize, x => x

/-- **The order of scalars** in a direction. -/
def order (direction : Direction) : FitnessOrder Float where
  compare := direction.compare
  worst := direction.worst
  score := direction.score
  distance x y := (x - y).abs
  description := direction.name

end Direction

end Metaheuristics
