import Metaheuristics.Arithmetic

/-!
# White-hole rates

The scores of a population, larger ones being better, turned into rates between zero and one.
Scores are taken relative to the least finite one, and a score that is not finite counts as the
least.  Where the relative scores cannot be put in proportion, because they are all equal or
overflow, all rates are equal.
-/

namespace Metaheuristics.Multiverse

/-- **What the rates are relative to.** -/
inductive Normalization where
  /-- The sum of the relative scores: the rates sum to one. -/
  | sum
  /-- The largest relative score: the best rate is one and the worst zero. -/
  | minMax
deriving Repr, DecidableEq, Inhabited

namespace Normalization

/-- The name of a normalization. -/
def name : Normalization → String
  | sum => "Sum"
  | minMax => "MinMax"

/-- The rates where all scores count the same. -/
def flat : Normalization → (amount : Nat) → List Float
  | sum, n => List.replicate n (1.0 / Float.ofNat n)
  | minMax, n => List.replicate n 1.0

/-- The least finite score, infinite where there is none. -/
def leastFinite (scores : List Float) : Float :=
  (scores.filter (·.isFinite)).foldl Arithmetic.minimum Arithmetic.infinity

/-- The scores relative to the least finite one. -/
def shift (least : Float) (scores : List Float) : List Float :=
  scores.map fun s => if s.isFinite then s - least else 0.0

/-- What the relative scores are divided by. -/
def scale : Normalization → List Float → Float
  | sum, shifted => Arithmetic.sum shifted
  | minMax, shifted => shifted.foldl Arithmetic.maximum 0.0

/-- **The rates of some scores**, one for each. -/
def normalize (normalization : Normalization) (scores : List Float) : List Float :=
  let least := leastFinite scores
  if least.isFinite then
    let shifted := shift least scores
    let scale := normalization.scale shifted
    if 0.0 < scale && scale.isFinite then shifted.map (· / scale)
    else normalization.flat scores.length
  else normalization.flat scores.length

theorem length_flat (normalization : Normalization) (amount : Nat) :
    (normalization.flat amount).length = amount := by
  cases normalization <;> exact List.length_replicate

theorem length_normalize (normalization : Normalization) (scores : List Float) :
    (normalization.normalize scores).length = scores.length := by
  simp only [normalize]
  split
  · split
    · simp only [shift, List.length_map]
    · exact length_flat normalization scores.length
  · exact length_flat normalization scores.length

end Normalization

end Metaheuristics.Multiverse
