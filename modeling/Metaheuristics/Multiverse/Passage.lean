import Metaheuristics.Model.Basic
import Metaheuristics.Multiverse.Settings

/-!
# Passages between universes

How the next generation of universes comes about.  Every coordinate of every universe may be
replaced twice: by the same coordinate of another universe that a white hole leads to, the more
likely the higher the rate of the universe is, and by a point near the best universe that a wormhole
leads to, the more likely the further the run has come.  In the end the coordinate is moved into its
bound (`Axis.move`).
-/

namespace Metaheuristics.Multiverse

/-- One coordinate of a universe. -/
structure Axis where
  index : Nat
  bound : Bound
  position : Float
  /-- The coordinate of the best universe. -/
  best : Float

/-- The coordinates of a universe, numbered from `index` on, unless one of the lists is shorter than
the position. -/
def Axis.ofLists : (index : Nat) → (bounds : List Bound) → (position best : List Float) →
    Option (List Axis)
  | _, _, [], _ => some []
  | i, b :: bounds, x :: position, g :: best =>
    (ofLists (i + 1) bounds position best).map (⟨i, b, x, g⟩ :: ·)
  | _, _, _, _ => none

/-- **What the moves of one iteration have in common.** -/
structure Passage (V : Type) where
  universes : List (Candidate V)
  /-- The white-hole rates of the universes. -/
  rates : List Float
  wormholeProbability : Float
  travelDistance : Float

variable {γ σ V : Type} [Random.Source γ] (settings : Settings) (math : Elementary)

/-- The coordinate of the universe that a white hole leads to. -/
def whiteHole (passage : Passage V) (axis : Axis) : Run γ σ Float := do
  let i ← Run.tryDraw (settings.selection.select math passage.rates)
  Run.expect .indexOutOfRange do
    let source ← passage.universes[i]?
    source.position[axis.index]?

/-- A point that a wormhole leads to: the best coordinate and a part of a random point of the bound,
added or taken away by the toss of a coin. -/
def wormhole (passage : Passage V) (axis : Axis) : Run γ σ Float := do
  let forward := (← Run.draw Random.unit) < 0.5
  let offset := passage.travelDistance * axis.bound.interpolate (← Run.draw Random.unit)
  return if forward then axis.best + offset else axis.best - offset

/-- The coordinate that a universe with the given rate passes on: its own one, or where a white hole
opens, that of another universe. -/
def Axis.inherit (passage : Passage V) (rate : Float) (axis : Axis) : Run γ σ Float := do
  let inflation ← Run.draw Random.unit
  if inflation < rate then whiteHole settings math passage axis else return axis.position

/-- The coordinate after a wormhole, where one exists. -/
def Axis.travel (passage : Passage V) (inherited : Float) (axis : Axis) : Run γ σ Float := do
  let existence ← Run.draw Random.unit
  if existence < passage.wormholeProbability then wormhole passage axis else return inherited

/-- **The new value of a coordinate** of a universe with the given rate. -/
def Axis.move (passage : Passage V) (rate : Float) (axis : Axis) : Run γ σ Float := do
  let inherited ← axis.inherit settings math passage rate
  let value ← axis.travel passage inherited
  return axis.bound.clamp value

/-- **The new position of a universe.** -/
def transform (bounds : List Bound) (passage : Passage V) (best : Position) (u : Candidate V)
    (rate : Float) : Run γ σ Position := do
  let axes ← Run.expect .indexOutOfRange (Axis.ofLists 0 bounds u.position best)
  axes.mapM (Axis.move settings math passage rate)

/-- The new position of the universe with the number `i`, at its rate. -/
def transformAt (bounds : List Bound) (passage : Passage V) (best : Position) (u : Candidate V)
    (i : Nat) : Run γ σ Position := do
  let rate ← Run.expect .indexOutOfRange passage.rates[i]?
  transform settings math bounds passage best u rate

end Metaheuristics.Multiverse
