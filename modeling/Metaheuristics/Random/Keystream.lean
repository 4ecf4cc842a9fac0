import Metaheuristics.Random.Source

/-!
# The seeded keystream

The generator behind a seed: the keystream of the ChaCha cipher with twelve rounds and a zero nonce.
The key is eight words of a small generator started at the seed.  The stream is the concatenation of
blocks 0, 1, 2, …, each of sixteen 32-bit words; a word of 64 bits is two of them, the low half
first, also where one block ends and the next begins.
-/

namespace Metaheuristics.Random

/-- A row of the cipher's square of words. -/
structure Row where
  a : UInt32
  b : UInt32
  c : UInt32
  d : UInt32
deriving Repr, DecidableEq

namespace Row

def zipWith (f : UInt32 → UInt32 → UInt32) (x y : Row) : Row :=
  ⟨f x.a y.a, f x.b y.b, f x.c y.c, f x.d y.d⟩

/-- The row turned by one place to the left. -/
def turn (x : Row) : Row := ⟨x.b, x.c, x.d, x.a⟩

/-- Sum of the words, modulo `2 ^ 32`. -/
def add : Row → Row → Row := zipWith (· + ·)

/-- The sum modulo two of the words, each rotated to the left by `bits` (`0 < bits < 32`). -/
def xorRotated (bits : UInt32) : Row → Row → Row :=
  zipWith fun x y => let z := x ^^^ y; (z <<< bits) ||| (z >>> (32 - bits))

def toList (x : Row) : List UInt32 := [x.a, x.b, x.c, x.d]

end Row

/-- The square of sixteen words the cipher works on. -/
structure Block where
  first : Row
  second : Row
  third : Row
  fourth : Row
deriving Repr, DecidableEq

namespace Block

/-- The quarter round on all four columns at once. -/
def columns (x : Block) : Block :=
  let a := x.first.add x.second
  let d := x.fourth.xorRotated 16 a
  let c := x.third.add d
  let b := x.second.xorRotated 12 c
  let a := a.add b
  let d := d.xorRotated 8 a
  let c := c.add d
  let b := b.xorRotated 7 c
  ⟨a, b, c, d⟩

/-- The quarter round on all four diagonals: the rows are turned so that the diagonals become
columns, and turned back afterwards. -/
def diagonals (x : Block) : Block :=
  let y := columns ⟨x.first, x.second.turn, x.third.turn.turn, x.fourth.turn.turn.turn⟩
  ⟨y.first, y.second.turn.turn.turn, y.third.turn.turn, y.fourth.turn⟩

/-- Two rounds. -/
def doubleRound (x : Block) : Block := x.columns.diagonals

/-- The sum of two squares, word by word. -/
def add (x y : Block) : Block :=
  ⟨x.first.add y.first, x.second.add y.second, x.third.add y.third, x.fourth.add y.fourth⟩

/-- The output of the cipher for an input square: twelve rounds, then the input is added. -/
def encrypt (x : Block) : Block := (Nat.repeat doubleRound 6 x).add x

/-- All words but the first. -/
def tail (x : Block) : List UInt32 :=
  x.first.b :: x.first.c :: x.first.d :: (x.second.toList ++ x.third.toList ++ x.fourth.toList)

end Block

/-- **A position in the keystream**: the key as two rows, the number of the next block, and what is
left of the current one. -/
structure Keystream where
  lowKey : Row
  highKey : Row
  counter : UInt64
  pending : List UInt32
deriving Repr, DecidableEq

namespace Keystream

/-! ## The key of a seed -/

/-- The next state of the small generator that spreads a seed over the key. -/
def advance (state : UInt64) : UInt64 :=
  state * 6364136223846793005 + 11634580027462260723

/-- The word a state stands for: its upper bits folded and rotated by its topmost five. -/
def keyWord (state : UInt64) : UInt32 :=
  let x := (((state >>> 18) ^^^ state) >>> 27).toUInt32
  let bits := (state >>> 59).toUInt32
  (x >>> bits) ||| (x <<< ((32 - bits) % 32))

/-- Four words of a key and the state after them. -/
def keyRow (state : UInt64) : Row × UInt64 :=
  let s1 := advance state
  let s2 := advance s1
  let s3 := advance s2
  let s4 := advance s3
  (⟨keyWord s1, keyWord s2, keyWord s3, keyWord s4⟩, s4)

/-- The start of the keystream that belongs to a seed. -/
def ofSeed (seed : UInt64) : Keystream :=
  let (low, state) := keyRow seed
  ⟨low, (keyRow state).1, 0, []⟩

/-! ## The words -/

/-- The block with the number `counter`. -/
def block (low high : Row) (counter : UInt64) : Block :=
  Block.encrypt
    ⟨⟨0x61707865, 0x3320646e, 0x79622d32, 0x6b206574⟩, low, high,
      ⟨counter.toUInt32, (counter >>> 32).toUInt32, 0, 0⟩⟩

def next32 : StateM Keystream UInt32 := fun s =>
  match s.pending with
  | word :: rest => (word, { s with pending := rest })
  | [] =>
    let fresh := block s.lowKey s.highKey s.counter
    (fresh.first.a, { s with counter := s.counter + 1, pending := fresh.tail })

def next64 : StateM Keystream UInt64 := fun s =>
  let (low, s) := next32 s
  let (high, s) := next32 s
  ((high.toUInt64 <<< 32) ||| low.toUInt64, s)

instance : Source Keystream := ⟨next64, next32⟩

end Keystream

end Metaheuristics.Random
