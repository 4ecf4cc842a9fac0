import Metaheuristics.Failure
import Metaheuristics.Population.Candidate

/-!
# Formulas

Objectives and constraints written as formulas over the coordinates of a position.  A formula has a
value, or is absent at a position, or fails there with a reason.  Operands are evaluated from left
to right, and the first one without a value decides; of a choice only the branch that applies is
evaluated.
-/

namespace Metaheuristics

/-- The operations on two numbers. -/
inductive Operation where
  | add
  | subtract
  | multiply
  | divide
deriving Repr, DecidableEq

def Operation.apply : Operation → Float → Float → Float
  | add, x, y => x + y
  | subtract, x, y => x - y
  | multiply, x, y => x * y
  | divide, x, y => x / y

/-- The functions of one number. -/
inductive UnaryFunction where
  | negate
  | absolute
  | squareRoot
  | floor
deriving Repr, DecidableEq

def UnaryFunction.apply : UnaryFunction → Float → Float
  | negate, x => -x
  | absolute, x => x.abs
  | squareRoot, x => x.sqrt
  | floor, x => x.floor

/-- The comparisons of two numbers. -/
inductive Relation where
  | less
  | lessOrEqual
deriving Repr, DecidableEq

def Relation.holds : Relation → Float → Float → Bool
  | less, x, y => x < y
  | lessOrEqual, x, y => x ≤ y

/-- **An expression over a position.** -/
inductive Formula where
  | constant (value : Float)
  /-- A coordinate, absent beyond the end of the position. -/
  | coordinate (index : Nat)
  | sum
  | sumOfSquares
  | sumOfAbsolutes
  | binary (operation : Operation) (left right : Formula)
  | unary (function : UnaryFunction) (operand : Formula)
  /-- One of two formulas, by the comparison of two others. -/
  | choice (relation : Relation) (left right holds otherwise : Formula)
  | absent
  | fail (reason : String)
deriving Repr

/-- Why a formula has no value. -/
inductive Interruption where
  | absent
  | failed (reason : String)
deriving Repr, DecidableEq

namespace Formula

/-- The sum of a function of the coordinates, from positive zero on. -/
def total (f : Float → Float) (position : Position) : Float :=
  position.foldl (fun sum x => sum + f x) 0.0

/-- **The value of a formula at a position.** -/
def eval (position : Position) : Formula → Except Interruption Float
  | constant value => .ok value
  | coordinate index =>
    match position[index]? with
    | some x => .ok x
    | none => .error .absent
  | sum => .ok (total id position)
  | sumOfSquares => .ok (total (fun x => x * x) position)
  | sumOfAbsolutes => .ok (total Float.abs position)
  | binary operation left right => do
    let x ← eval position left
    let y ← eval position right
    return operation.apply x y
  | unary function operand => do
    let x ← eval position operand
    return function.apply x
  | choice relation left right holds otherwise => do
    let x ← eval position left
    let y ← eval position right
    if relation.holds x y then eval position holds else eval position otherwise
  | absent => .error .absent
  | fail reason => .error (.failed reason)

/-- The values of several formulas, up to the first one without a value.  An absent one makes the
whole absent. -/
def evalAll (formulas : List Formula) (position : Position) :
    Except EvaluationError (Option (List Float)) :=
  match formulas.mapM (eval position) with
  | .ok values => .ok (some values)
  | .error .absent => .ok none
  | .error (.failed reason) => .error ⟨reason⟩

end Formula

/-- A comparison of two formulas. -/
structure Comparison where
  relation : Relation
  left : Formula
  right : Formula
deriving Repr

/-- Whether a comparison holds, absent where one of its sides has no value. -/
def Comparison.check (comparison : Comparison) (position : Position) : Option Bool :=
  match comparison.left.eval position, comparison.right.eval position with
  | .ok x, .ok y => some (comparison.relation.holds x y)
  | _, _ => none

end Metaheuristics
