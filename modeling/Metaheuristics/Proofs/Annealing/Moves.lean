import Metaheuristics.Annealing.Trial
import Metaheuristics.Proofs.Bounds.Box
import Metaheuristics.Proofs.Runs.Guarantees

/-!
# Moves of a chain

A disturbance changes coordinates of a position one after the other, and each one to a point of its
bound, so it does not lead out of the box (`ensures_perturb`).  Neither a disturbance nor the test
for acceptance calls anything of the caller's.
-/

namespace Metaheuristics.Annealing

variable {γ σ V : Type} [Random.Source γ] {I : σ → Prop} {settings : Settings}

theorem inBox_set {bounds : List Bound} {x : Position} (hx : InBox bounds x) {i : Nat} {b : Bound}
    (hb : bounds[i]? = some b) {v : Float} (hv : b.Holds v) : InBox bounds (x.set i v) := by
  induction hx generalizing i with
  | nil => cases hb
  | cons hxb hrest ih =>
    obtain _ | i := i
    · obtain rfl := Option.some.inj hb
      exact .cons hv hrest
    · exact .cons hxb (ih hb)

theorem ensures_disturb (bounds : List Bound) (step : Float) (x : Position) (i : Nat) :
    Run.Ensures (γ := γ) I (disturb settings bounds step x i)
      fun y => InBox bounds x → InBox bounds y := by
  refine Run.Ensures.bind (Run.Ensures.draw _) fun factor _ => ?_
  refine Run.Ensures.expect fun y hy hx => ?_
  obtain ⟨b, hb, hy⟩ := Option.bind_eq_some_iff.mp hy
  obtain ⟨v, -, hy⟩ := Option.bind_eq_some_iff.mp hy
  obtain rfl := Option.some.inj hy
  exact inBox_set hx hb (b.clamp_holds _)

/-- **A disturbance stays in the box.** -/
theorem ensures_perturb (bounds : List Bound) (step : Float) (x : Position) :
    Run.Ensures (γ := γ) I (perturb settings bounds step x)
      fun y => InBox bounds x → InBox bounds y := by
  refine Run.Ensures.ite (fun _ => Run.Ensures.violate _) fun _ => ?_
  refine Run.Ensures.bind (Run.Ensures.draw _) fun indices _ => ?_
  refine Run.Ensures.foldlM id fun y i _ hy => ?_
  exact Run.Ensures.mono (ensures_disturb bounds step y i) fun z hz hx => hz (hy hx)

theorem ensures_accepts (m : Model γ σ V) (math : Elementary) (temperature : Float)
    (improving : Bool) (current point : V) :
    Run.Ensures I (accepts m math temperature improving current point)
      fun accepted => improving = true → accepted = true := by
  refine Run.Ensures.ite (fun _ => Run.Ensures.pure fun _ => rfl) fun hnot => ?_
  refine Run.Ensures.bind (Run.Ensures.draw _) fun r _ => ?_
  exact Run.Ensures.pure fun himproving => absurd himproving hnot

end Metaheuristics.Annealing
