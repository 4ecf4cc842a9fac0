import Metaheuristics.Multiverse.Rates
import Metaheuristics.Selection
import Metaheuristics.Stopping

/-!
# Settings of a multiverse

Besides the fixed settings, the two quantities that follow the progress of a run: the probability of
a wormhole, which rises linearly, and the distance travelled through one, which falls.
-/

namespace Metaheuristics.Multiverse

/-- **How a multiverse is run.** -/
structure Settings where
  /-- The number of universes. -/
  universeAmount : Nat
  /-- The most solutions of a run. -/
  solutionAmount : Nat
  /-- The probability of a wormhole at the start. -/
  leastWormholes : Float
  /-- The probability of a wormhole at the end. -/
  mostWormholes : Float
  /-- How white holes are chosen by rate. -/
  selection : Selection
  /-- How scores become rates. -/
  normalization : Normalization
  criteria : StopCriteria
  /-- Whether universes may be evaluated side by side.  Runs are modelled as they are without that
  feature, which evaluate one universe after the other and do not read this.  Side by side, later
  universes may be evaluated although an earlier one fails, and which error is reported is open. -/
  parallel : Bool
  seed : Option UInt64
deriving Repr, DecidableEq

/-- **The distance travelled through a wormhole**, relative to the bounds: `1 - progress ^ (1/6)`.
-/
def travelDistance (math : Elementary) (progress : Float) : Float :=
  1.0 - math.pow progress (1.0 / 6.0)

namespace Settings

def standard : Settings where
  universeAmount := 100
  solutionAmount := 1
  leastWormholes := 0.2
  mostWormholes := 1.0
  selection := .roulette
  normalization := .sum
  criteria := .standard
  parallel := false
  seed := none

instance : Inhabited Settings := ⟨standard⟩

/-- **The probability of a wormhole** at some progress. -/
def wormholeProbability (s : Settings) (progress : Float) : Float :=
  s.leastWormholes + (s.mostWormholes - s.leastWormholes) * progress

/-- Whether a number is a probability. -/
def isProbability (x : Float) : Bool := 0.0 ≤ x && x ≤ 1.0

/-- Refuses wormhole probabilities that are none, or that would fall. -/
def checkWormholes (s : Settings) : Except SettingsError Unit :=
  if !(isProbability s.leastWormholes && isProbability s.mostWormholes) then
    .error (.wormholesOutOfRange s.leastWormholes s.mostWormholes)
  else if s.mostWormholes < s.leastWormholes then
    .error (.wormholesInverted s.leastWormholes s.mostWormholes)
  else .ok ()

/-- **The first fault of the settings**, if they have one. -/
def check (s : Settings) : Except SettingsError Unit := do
  Parameter.universeAmount.checkCount s.universeAmount
  Parameter.solutionAmount.checkCount s.solutionAmount
  s.checkWormholes
  s.selection.check

end Settings

end Metaheuristics.Multiverse
