/-!
# Arithmetic on binary64

The conventions the engines share for the numbers they compute with: from where a sum starts, which
operand a maximum keeps when one of the two is not a number, and what clamping leaves alone.  Only
`+ - * /`, negation, absolute value, square root and the comparisons are used directly.  The two
elementary functions that the engines need besides are fields of the record `Elementary`, so a
statement that rests on a law of `exp` or `pow` can name the law as a hypothesis on the record.
-/

namespace Metaheuristics

namespace Arithmetic

/-! ## Constants -/

/-- Positive infinity. -/
def infinity : Float := 1.0 / 0.0

/-- The value that is not a number. -/
def notANumber : Float := 0.0 / 0.0

/-- The largest finite value, `(2 - 2⁻⁵²) · 2¹⁰²³`. -/
def largest : Float := Float.ofBits 0x7fefffffffffffff

/-! ## Sums and extrema -/

/-- **Sum from left to right.**  The start is negative zero, the neutral element of addition, so the
sum of a single value is that value, sign of zero included. -/
def sum (values : List Float) : Float :=
  values.foldl (· + ·) (-0.0)

/-- The larger of two values.  An operand that is not a number gives way to the other one, and of
two equal operands the right one is taken, which shows where they are zeros of different signs. -/
def maximum (x y : Float) : Float :=
  if y.isNaN then x else if y < x then x else y

/-- The smaller of two values, with the conventions of `maximum`. -/
def minimum (x y : Float) : Float :=
  if y.isNaN then x else if x < y then x else y

/-! ## Clamping -/

/-- The value moved to the nearest end of `[lower, upper]` when it lies outside.  The ends have to be
in order.  What is neither below `lower` nor above `upper` is left alone, also a value that is not a
number. -/
def clamp (lower upper : Float) (_ : lower ≤ upper) (x : Float) : Float :=
  if x < lower then lower else if upper < x then upper else x

/-- Clamping between limits that may be out of order, in which case there is no answer. -/
def clamp? (lower upper x : Float) : Option Float :=
  if h : lower ≤ upper then some (clamp lower upper h x) else none

theorem zero_le_one : (0.0 : Float) ≤ 1.0 := by decide

end Arithmetic

/-- **The elementary functions a run computes with**: the exponential, and the power of two
non-negative numbers. -/
structure Elementary where
  exp : Float → Float
  pow : Float → Float → Float

/-- The functions of the machine. -/
def Elementary.native : Elementary := ⟨Float.exp, Float.pow⟩

end Metaheuristics
