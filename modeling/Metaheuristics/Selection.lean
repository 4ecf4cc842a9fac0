import Metaheuristics.Arithmetic
import Metaheuristics.Failure
import Metaheuristics.Random.Draw

/-!
# Selection by weight

Drawing an index from a list of weights, of which larger ones are preferred.  A weight that is
negative or not finite counts as zero (`counted`).  There are four strategies: the wheel, whose
chances are proportional to the weights; the deterministic choice of the heaviest; the heaviest of a
few uniform draws; and the wheel over the exponentials of the weights.
-/

namespace Metaheuristics

/-- **How an index is drawn.** -/
inductive Selection where
  | roulette
  | rank
  | tournament (size : Nat)
  | boltzmann (temperature : Float)
deriving Repr, DecidableEq, Inhabited

namespace Selection

variable {γ : Type} [Random.Source γ]

/-- The name of a strategy. -/
def name : Selection → String
  | roulette => "Roulette"
  | rank => "Rank"
  | tournament _ => "Tournament"
  | boltzmann _ => "Boltzmann"

/-- Refuses tournaments of nobody and temperatures that are not positive and finite. -/
def check : Selection → Except SettingsError Unit
  | tournament size => Parameter.tournamentSize.checkCount size
  | boltzmann temperature => Requirement.positiveFinite.check .boltzmannTemperature temperature
  | roulette => .ok ()
  | rank => .ok ()

/-- What a weight counts as. -/
def counted (weight : Float) : Float :=
  if weight.isFinite && 0.0 < weight then weight else 0.0

/-! ## The wheel -/

/-- The first index at which the running total exceeds the threshold. -/
def stopOnWheel (threshold : Float) : (total : Float) → List Float → Option Nat
  | _, [] => none
  | total, weight :: weights =>
    if threshold < total + weight then some 0
    else (stopOnWheel threshold (total + weight) weights).map (· + 1)

/-- The last index of a positive weight. -/
def lastPositive : List Float → Option Nat
  | [] => none
  | weight :: weights =>
    match lastPositive weights with
    | some i => some (i + 1)
    | none => if 0.0 < weight then some 0 else none

/-- **The wheel.**  A single weight is taken without a draw.  Where the weights have no positive
finite total, the draw is uniform.  Where rounding lets the wheel run out, the last positive weight
is taken. -/
def spin (weights : List Float) : StateM γ Nat := do
  let weights := weights.map counted
  if weights.length = 1 then return 0
  else
    let total := Arithmetic.sum weights
    if 0.0 < total && total.isFinite then
      let threshold := (← Random.unit) * total
      match stopOnWheel threshold 0.0 weights with
      | some i => return i
      | none => return (lastPositive weights).getD (weights.length - 1)
    else Random.below weights.length

/-! ## The heaviest -/

/-- The weight at an index, which must be one of theirs. -/
def weightAt (weights : List Float) (i : Nat) : Except Violation Float :=
  match weights[i]? with
  | some weight => .ok weight
  | none => .error .indexOutOfRange

/-- The better one of two indices, given the weight at the second one: that one if it is heavier. -/
def heavier (weights : List Float) (best i : Nat) (weight : Float) : Except Violation Nat := do
  return if (← weightAt weights best) < weight then i else best

/-- The first index of the largest weight, given the best one up to `index` and the weights from
there on. -/
def heaviestFrom (weights : List Float) (best : Nat) :
    (index : Nat) → (rest : List Float) → Except Violation Nat
  | _, [] => .ok best
  | index, weight :: rest => do
    heaviestFrom weights (← heavier weights best index weight) (index + 1) rest

/-- **The first index of the largest weight.** -/
def heaviest (weights : List Float) : Except Violation Nat :=
  let weights := weights.map counted
  heaviestFrom weights 0 1 (weights.drop 1)

/-- The heaviest of `rounds` more draws and the one in hand, the earlier of equals. -/
def contest (weights : List Float) : (rounds best : Nat) → ExceptT Violation (StateM γ) Nat
  | 0, best => return best
  | rounds + 1, best => do
    let i ← Random.below (γ := γ) weights.length
    contest weights rounds (← heavier weights best i (← weightAt weights i))

/-! ## The choice -/

/-- The weights of the wheel at a temperature.  The largest one is one, so that nothing overflows.
-/
def heated (math : Elementary) (temperature : Float) (weights : List Float) : List Float :=
  let weights := weights.map counted
  let most := weights.foldl Arithmetic.maximum 0.0
  weights.map fun weight => math.exp ((weight - most) / temperature)

/-- **An index of the weights**, which must not be empty. -/
def select (math : Elementary) (selection : Selection) (weights : List Float) :
    ExceptT Violation (StateM γ) Nat := do
  if weights.isEmpty then throw .emptyWeights
  else
    match selection with
    | roulette => spin (γ := γ) weights
    | rank => heaviest weights
    | tournament size =>
      let first ← Random.below (γ := γ) weights.length
      contest (weights.map counted) (size - 1) first
    | boltzmann temperature =>
      if Requirement.positiveFinite.holds temperature then
        spin (γ := γ) (heated math temperature weights)
      else heaviest weights

end Selection

end Metaheuristics
