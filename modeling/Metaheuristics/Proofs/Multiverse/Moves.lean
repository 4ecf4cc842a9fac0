import Metaheuristics.Multiverse.Passage
import Metaheuristics.Proofs.Bounds.Box
import Metaheuristics.Proofs.Runs.Guarantees

/-!
# Moves of universes

Whatever a white hole or a wormhole leads to, the new position of a universe lies in the box
(`ensures_transform`).  A move calls nothing of the caller's.
-/

namespace Metaheuristics.Multiverse

variable {γ σ V : Type} {I : σ → Prop} {settings : Settings} {math : Elementary}

theorem Axis.bounds_of_ofLists {i : Nat} {bounds : List Bound} {position best : List Float}
    {axes : List Axis} (h : ofLists i bounds position best = some axes) :
    axes.map (·.bound) = bounds.take position.length := by
  induction position generalizing i bounds best axes with
  | nil =>
    obtain rfl : [] = axes := by simpa [ofLists] using h
    rfl
  | cons x position ih =>
    obtain _ | ⟨b, bounds⟩ := bounds
    · cases h
    obtain _ | ⟨g, best⟩ := best
    · cases h
    obtain ⟨rest, hrest, rfl⟩ := Option.map_eq_some_iff.mp h
    exact congrArg (b :: ·) (ih hrest)

/-- The axis at an index has the bound and the coordinate at that index. -/
theorem Axis.getElem?_of_ofLists {i : Nat} {bounds : List Bound} {position best : List Float}
    {axes : List Axis} (h : ofLists i bounds position best = some axes) {d : Nat} {axis : Axis}
    (hd : axes[d]? = some axis) :
    axis.index = i + d ∧ bounds[d]? = some axis.bound ∧ position[d]? = some axis.position := by
  induction position generalizing i bounds best axes d with
  | nil =>
    obtain rfl : [] = axes := by simpa [ofLists] using h
    cases hd
  | cons x position ih =>
    obtain _ | ⟨b, bounds⟩ := bounds
    · cases h
    obtain _ | ⟨g, best⟩ := best
    · cases h
    obtain ⟨rest, hrest, rfl⟩ := Option.map_eq_some_iff.mp h
    obtain _ | d := d
    · obtain rfl := Option.some.inj hd
      exact ⟨rfl, rfl, rfl⟩
    · obtain ⟨hindex, hbound, hposition⟩ := ih hrest hd
      exact ⟨by rw [hindex]; omega, hbound, hposition⟩

variable [Random.Source γ]

theorem ensures_whiteHole (passage : Passage V) (axis : Axis) :
    Run.Ensures (γ := γ) I (whiteHole settings math passage axis) fun _ => True := by
  refine Run.Ensures.bind
    (Run.Ensures.tryDraw (settings.selection.select math passage.rates)) fun i _ => ?_
  exact Run.Ensures.expect fun _ _ => trivial

theorem ensures_wormhole (passage : Passage V) (axis : Axis) :
    Run.Ensures (γ := γ) I (wormhole passage axis) fun _ => True := by
  refine Run.Ensures.bind (Run.Ensures.draw _) fun r₁ _ => ?_
  refine Run.Ensures.bind (Run.Ensures.draw _) fun r₂ _ => ?_
  exact Run.Ensures.pure trivial

theorem Axis.ensures_move (passage : Passage V) (rate : Float) (axis : Axis) :
    Run.Ensures (γ := γ) I (axis.move settings math passage rate) axis.bound.Holds := by
  refine Run.Ensures.bind (P := fun _ => True) ?_ fun inherited _ => ?_
  · refine Run.Ensures.bind (Run.Ensures.draw _) fun inflation _ => ?_
    exact Run.Ensures.ite (fun _ => ensures_whiteHole passage axis)
      fun _ => Run.Ensures.pure trivial
  refine Run.Ensures.bind (P := fun _ => True) ?_ fun value _ => ?_
  · refine Run.Ensures.bind (Run.Ensures.draw _) fun existence _ => ?_
    exact Run.Ensures.ite (fun _ => ensures_wormhole passage axis)
      fun _ => Run.Ensures.pure trivial
  exact Run.Ensures.pure (axis.bound.clamp_holds value)

/-- **A universe moves into the box.** -/
theorem ensures_transform (bounds : List Bound) (passage : Passage V) (best : Position)
    (u : Candidate V) (rate : Float) :
    Run.Ensures (γ := γ) I (transform settings math bounds passage best u rate)
      (InBox (bounds.take u.position.length)) := by
  refine Run.Ensures.bind (Run.Ensures.expect fun axes haxes => haxes) fun axes haxes => ?_
  refine Run.Ensures.mono (Run.Ensures.mapM fun axis _ => Axis.ensures_move passage rate axis)
    fun y hy => ?_
  rw [← Axis.bounds_of_ofLists haxes]
  exact List.forall₂_map_left_iff.mpr hy

theorem ensures_transformAt (bounds : List Bound) (passage : Passage V) (best : Position)
    (u : Candidate V) (i : Nat) :
    Run.Ensures (γ := γ) I (transformAt settings math bounds passage best u i)
      (InBox (bounds.take u.position.length)) :=
  Run.Ensures.bind (P := fun _ => True) (Run.Ensures.expect fun _ _ => trivial) fun rate _ =>
    ensures_transform bounds passage best u rate

end Metaheuristics.Multiverse
