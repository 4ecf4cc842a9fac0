/-!
# Sources of random words

A source of randomness is a state from which words of 64 and of 32 bits can be taken.  Two small
sources are given here: `SplitMix`, a counter with a mixing function, and `Tape`, a fixed sequence
of words that starts again when it is used up.  Both take the upper half of a 64-bit word where 32
bits are asked for.
-/

namespace Metaheuristics.Random

/-- **A source of random words** with states in `γ`. -/
class Source (γ : Type) where
  word64 : StateM γ UInt64
  word32 : StateM γ UInt32

/-- The upper half of the next word. -/
def upperHalf {γ : Type} (next : StateM γ UInt64) : StateM γ UInt32 := fun g =>
  let (word, g) := next g
  ((word >>> 32).toUInt32, g)

/-! ## A mixed counter -/

/-- A counter in steps of the golden ratio, read through a mixing function. -/
structure SplitMix where
  state : UInt64
deriving Repr, DecidableEq

namespace SplitMix

/-- The mixing function: a bijection that spreads every bit over the word. -/
def mix (z : UInt64) : UInt64 :=
  let z := (z ^^^ (z >>> 30)) * 0xbf58476d1ce4e5b9
  let z := (z ^^^ (z >>> 27)) * 0x94d049bb133111eb
  z ^^^ (z >>> 31)

def next : StateM SplitMix UInt64 := fun g =>
  let state := g.state + 0x9e3779b97f4a7c15
  (mix state, ⟨state⟩)

instance : Source SplitMix := ⟨next, upperHalf next⟩

end SplitMix

/-! ## A tape -/

/-- A sequence of words that is read over and over. -/
structure Tape where
  words : Array UInt64
  /-- How many words have been read. -/
  position : Nat
deriving Repr, DecidableEq

namespace Tape

/-- A tape that has not been read yet. -/
def ofArray (words : Array UInt64) : Tape := ⟨words, 0⟩

def next : StateM Tape UInt64 := fun tape =>
  (tape.words.getD (tape.position % tape.words.size) 0, ⟨tape.words, tape.position + 1⟩)

instance : Source Tape := ⟨next, upperHalf next⟩

end Tape

end Metaheuristics.Random
