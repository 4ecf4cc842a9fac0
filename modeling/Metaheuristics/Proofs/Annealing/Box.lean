import Metaheuristics.Proofs.Annealing.Moves
import Metaheuristics.Proofs.Annealing.Steps
import Metaheuristics.Proofs.Bounds.Confinement

/-!
# A chain in its box

A disturbance touches some coordinates only, so that a trial is in the box is due to the point it
starts from.  The chain starts in the box and moves to points it has tried, so every trial keeps
`Batch.Inside` (`ensures_trial`), and an iteration keeps `State.Inside`.  Hence a run evaluates
nothing outside the box and has no solution outside it (`ensures_run`).
-/

namespace Metaheuristics.Annealing

variable {γ σ V : Type} {I : σ → Prop} {m : Model γ σ V} {settings : Settings} {math : Elementary}
  {host : Host σ}

/-- **A batch in the box**, with its current point and all points it has accepted. -/
structure Batch.Inside (bounds : List Bound) (b : Batch V) : Prop where
  current : InBox bounds b.chain.current.position
  accepted : AllInBox bounds b.accepted.toList

/-- **A chain in the box**, with its current point and its elite. -/
structure State.Inside (bounds : List Bound) (s : State V) : Prop where
  current : InBox bounds s.chain.current.position
  elite : AllInBox bounds s.elite

theorem Batch.Inside.accept {bounds : List Bound} {b : Batch V} (h : b.Inside bounds)
    {point : Point V} (hpoint : InBox bounds point.position) (improving : Bool) :
    (b.accept m settings point improving).Inside bounds := by
  obtain ⟨haccepted, hcurrent, -⟩ := Batch.accept_eq m settings b point improving
  refine ⟨?_, fun c hc => ?_⟩
  · rwa [hcurrent]
  · rw [haccepted, Array.toList_push] at hc
    rcases List.mem_append.mp hc with hc | hc
    · exact h.accepted c hc
    · rw [List.mem_singleton.mp hc]
      exact hpoint

theorem ensures_gather {cs : List (Candidate V)} (hcs : AllInBox m.bounds cs) :
    Run.Ensures (γ := γ) I (gather m settings host cs) (State.Inside m.bounds) := by
  have hranked := hcs.sort m.compareCandidates
  refine Run.Ensures.bind (Run.Ensures.sort host _ cs) ?_
  rintro _ rfl
  refine Run.Ensures.bind (Run.Ensures.expect fun leader hleader => hleader)
    fun leader hleader => ?_
  exact Run.Ensures.pure ⟨hranked leader (List.mem_of_mem_head? hleader), hranked.take _⟩

theorem ensures_absorb {s : State V} (hs : s.Inside m.bounds) {b : Batch V}
    (hb : b.Inside m.bounds) :
    Run.Ensures (γ := γ) I (absorb m settings host s b) fun (s', _) => s'.Inside m.bounds := by
  refine Run.Ensures.bind (Run.Ensures.sort host _ _) ?_
  rintro _ rfl
  refine Run.Ensures.bind (Run.Ensures.refresh _ _ _ _) ?_
  rintro _ rfl
  exact Run.Ensures.pure ⟨hb.current, hs.elite.refresh ((hb.accepted.sort _).take _) _ _⟩

theorem ensures_start (hm : m.Confined I) (hinside : m.StartsInside) :
    Run.Ensures I (start m settings host) (State.Inside m.bounds) := by
  refine Run.Ensures.bind (P := AllInBox m.bounds) ?_ fun cs hcs => ensures_gather hcs
  exact Run.Ensures.bind (Model.ensures_startingPositions hm hinside _) fun xs hxs =>
    Model.ensures_settle hm hxs

variable [Random.Source γ]

theorem ensures_trial (hm : m.Confined I) (temperature : Float) {b : Batch V}
    (hb : b.Inside m.bounds) :
    Run.Ensures I (trial m settings math temperature b) (Batch.Inside m.bounds) := by
  refine Run.Ensures.bind (ensures_perturb m.bounds b.chain.step b.chain.current.position)
    fun x hx => ?_
  have hx : InBox m.bounds x := hx hb.current
  refine Run.Ensures.bind (Model.ensures_tryCall_evaluate hm hx) fun fitness _ => ?_
  refine Run.Ensures.bind (ensures_accepts m math temperature _ _ _) fun accepted _ => ?_
  refine Run.Ensures.pure ?_
  cases accepted
  · exact hb
  · exact hb.accept hx _

theorem ensures_trials (hm : m.Confined I) (temperature : Float) (amount : Nat) {b : Batch V}
    (hb : b.Inside m.bounds) :
    Run.Ensures I (trials m settings math temperature amount b) (Batch.Inside m.bounds) := by
  induction amount generalizing b with
  | zero => exact Run.Ensures.pure hb
  | succ amount ih =>
    exact Run.Ensures.bind (ensures_trial hm temperature hb) fun b' hb' => ih hb'

theorem engine_keeps (hm : m.Confined I) :
    (engine m settings host).Keeps I (State.Inside m.bounds) (Batch.Inside m.bounds) where
  enter _ _ _ henter hs := by
    obtain ⟨hchain, helite⟩ := cool_eq_some henter
    exact ⟨hchain ▸ hs.current, helite ▸ hs.elite⟩
  explore _ _ hs := ensures_trials hm _ _ ⟨hs.current, fun _ hc => by cases hc⟩
  absorb _ _ hs hb := ensures_absorb hs hb

/-- **A run of annealing** keeps what evaluations in the box keep, and its solutions are in the box.
-/
theorem ensures_run (hm : m.Confined I) (hinside : m.StartsInside) (host : Host σ) (rounds : Nat) :
    Run.Ensures I (run m settings host rounds)
      fun result => ∀ o, result = some o → AllInBox m.bounds o.solutions := by
  refine Run.Ensures.bind (Run.Ensures.require _) fun _ _ => ?_
  refine Run.Ensures.bind (Run.Ensures.require _) fun _ _ => ?_
  refine Run.Ensures.bind (ensures_start hm hinside) fun s hs => ?_
  exact Search.ensures_result hm.toKeeps (engine_keeps hm) rounds hs fun _ _ hp => hp.elite

end Metaheuristics.Annealing
