/-!
# The shortest decimal of a binary64 value

A positive finite value is `mantissa · 2 ^ exponent`.  The decimals that read back to it are those
between the midpoints to its two neighbours, the midpoints included when the mantissa is even.
`shortest` finds the fewest digits with which such a decimal can be written and, of the decimals
with that many digits, the one nearest to the value; of two equally near ones it takes the larger.

Everything is exact arithmetic on `Nat`: the value and the two midpoints are written over one common
denominator, and for one, two, … seventeen digits the two neighbours of the value on the decimal
grid are tested.
-/

namespace Metaheuristics.Decimal

/-- **A decimal numeral** `0.d₁d₂d₃… · 10 ^ point`, with `d₁` and the last digit not zero. -/
structure Numeral where
  digits : List Char
  point : Int
deriving Repr, DecidableEq

/-- **A positive binary value.**  `value / unit` is the value itself, `low / unit` and `high / unit`
are the ends of the interval of the reals that round to it. -/
structure Interval where
  unit : Nat
  value : Nat
  low : Nat
  high : Nat
  /-- Whether the ends themselves round to the value. -/
  closed : Bool
deriving Repr, DecidableEq

namespace Interval

/-- The interval of `mantissa · 2 ^ exponent`.  Below a power of two the neighbours are half as far
away as above it, which `narrow` says. -/
def ofBinary (mantissa : Nat) (exponent : Int) (narrow : Bool) : Interval :=
  let quarter := exponent - 2
  let scale := Nat.pow 2 quarter.toNat
  { unit := Nat.pow 2 (-quarter).toNat
    value := 4 * mantissa * scale
    low := (4 * mantissa - if narrow then 1 else 2) * scale
    high := (4 * mantissa + 2) * scale
    closed := mantissa % 2 == 0 }

/-- The number of values of the stored fraction, and the mantissa of a power of two. -/
def fractions : Nat := 4503599627370496

/-- The interval of a positive finite value, given by its bits without the sign. -/
def ofBits (bits : Nat) : Interval :=
  let fraction := bits % fractions
  match bits / fractions with
  | 0 => ofBinary fraction (-1074) false
  | biased + 1 => ofBinary (fractions + fraction) (biased - 1074) (fraction == 0 && biased != 0)

/-- The `k` with `10 ^ (k - 1) ≤ value < 10 ^ k`. -/
def magnitude (i : Interval) : Int :=
  if i.unit ≤ i.value then (Nat.toDigits 10 (i.value / i.unit)).length
  else 1 - (Nat.toDigits 10 ((i.unit - 1) / i.value)).length

/-- The nearest multiple of `10 ^ place` that rounds to the value, if one of the two multiples next
to the value does. -/
def onGrid? (i : Interval) (place : Int) : Option Nat :=
  let up := Nat.pow 10 place.toNat * i.unit
  let down := Nat.pow 10 (-place).toNat
  let below := i.value * down / up
  let above := below + 1
  let readsBack (n : Nat) : Bool :=
    if i.closed then i.low * down ≤ n * up && n * up ≤ i.high * down
    else i.low * down < n * up && n * up < i.high * down
  match readsBack below, readsBack above with
  | true, true =>
    if i.value * down - below * up < above * up - i.value * down then some below else some above
  | true, false => some below
  | false, true => some above
  | false, false => none

/-- The first hit among the grids with `digits`, `digits + 1`, … significant digits. -/
def search (i : Interval) (magnitude : Int) : (tries digits : Nat) → Numeral
  | 0, digits => numeral (magnitude - digits) (i.value / i.unit)
  | tries + 1, digits =>
    match i.onGrid? (magnitude - digits) with
    | some n => numeral (magnitude - digits) n
    | none => search i magnitude tries (digits + 1)
where
  /-- The numeral of `n · 10 ^ place`, without trailing zeros. -/
  numeral (place : Int) (n : Nat) : Numeral :=
    let digits := Nat.toDigits 10 n
    ⟨(digits.reverse.dropWhile (· == '0')).reverse, place + digits.length⟩

end Interval

/-- **The shortest numeral that reads back** to the positive finite value with these bits. -/
def shortest (bits : Nat) : Numeral :=
  let interval := Interval.ofBits bits
  interval.search interval.magnitude 17 1

end Metaheuristics.Decimal
