import Metaheuristics.Random.Source

/-!
# Draws

What the engines draw from a source: a number of the unit interval, a number between minus one and
one, an index below a bound, and several distinct indices.  `unit` and `symmetric` take one 64-bit
word each; `below` takes one 32-bit word, and a second one where the first leaves the rounding open.
-/

namespace Metaheuristics.Random

variable {γ : Type} [Source γ]

/-! ## Numbers -/

/-- **A number in `[0, 1)`**, a multiple of `2⁻⁵³`. -/
def unit : StateM γ Float := do
  let word ← Source.word64
  return (word >>> 11).toFloat / 9007199254740992.0

/-- **A number in `[-1, 1)`**, a multiple of `2⁻⁵¹`. -/
def symmetric : StateM γ Float := do
  let word ← Source.word64
  return (word >>> 12).toFloat / 4503599627370496.0 * 2.0 + -1.0

/-! ## Indices -/

/-- **An index below `n`.**  The word is read as a fraction of `2 ^ 32` and multiplied by `n`; the
whole part is the answer.  Where the fractional part is so large that more digits of the fraction
could carry over, a second word gives them.  `n` counts modulo `2 ^ 32`, where zero stands for the
full range. -/
def below (n : Nat) : StateM γ Nat := do
  let range := n % UInt32.size
  let word ← Source.word32
  if range = 0 then
    return word.toNat
  else
    let product := word.toNat * range
    let whole := product / UInt32.size
    let fraction := product % UInt32.size
    if UInt32.size - range < fraction then
      let more ← Source.word32
      return if UInt32.size ≤ fraction + more.toNat * range / UInt32.size then whole + 1 else whole
    else
      return whole

/-- Distinct indices, one for each upper end `j` in `ends`: an index up to `j` is drawn and
recorded, and where it is recorded already, the earlier record is changed to `j`. -/
def sampleSparse : (ends recorded : List Nat) → StateM γ (List Nat)
  | [], recorded => return recorded
  | j :: ends, recorded => do
    let t ← below (j + 1)
    sampleSparse ends (recorded.replace t j ++ [t])

/-- The first `amount` entries of a pool that is shuffled only as far as needed: the next entry
changes places with a drawn one. -/
def sampleDense : (amount : Nat) → (pool : List Nat) → StateM γ (List Nat)
  | 0, _ => return []
  | _, [] => return []
  | amount + 1, x :: rest => do
    match ← below (rest.length + 1) with
    | 0 => return x :: (← sampleDense amount rest)
    | j + 1 => return rest.getD j x :: (← sampleDense amount (rest.set j x))

/-- Whether `amount` indices below `length` are so many that shuffling a pool is the better way, for
lengths below 500 000.  Longer pools are slower to set up, so their balance is another one. -/
def isDense (length amount : Nat) : Bool :=
  let n := Float32.ofNat amount
  if amount < 163 then
    11 < amount && decide (Float32.ofNat length < (10.0 + 1.6 * n) * n)
  else decide (Float32.ofNat length < 270.0 * n)

/-- **`amount` distinct indices below `length`**, in the order in which they are found, for
`amount ≤ length`.  The words are drawn as they are for lengths below 500 000 and for amounts that
are dense or below 163.  Of more indices that are sparse, each is usually drawn until it is a new
one, which takes a number of words that nothing bounds; here `sampleSparse` finds those too.  That
the indices are distinct and below `length` does not depend on the way. -/
def sample (length amount : Nat) : StateM γ (List Nat) :=
  if isDense length amount then sampleDense amount (List.range length)
  else sampleSparse (List.range' (length - amount) amount) []

end Metaheuristics.Random
