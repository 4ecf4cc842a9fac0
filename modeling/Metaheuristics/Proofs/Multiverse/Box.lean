import Metaheuristics.Proofs.Bounds.Confinement
import Metaheuristics.Proofs.Multiverse.Moves
import Metaheuristics.Multiverse.Run

/-!
# A multiverse in its box

Universes stay in the box: whichever coordinates a universe takes over, all of them are moved into
their bounds before it is evaluated, so an iteration keeps `State.Inside`.  Hence a run evaluates
nothing outside the box and has no solution outside it (`ensures_run`).
-/

namespace Metaheuristics.Multiverse

variable {γ σ V : Type} {I : σ → Prop} {m : Model γ σ V} {settings : Settings}
  {host : Host σ}

/-- **A multiverse in the box**, with its universes and its elite. -/
structure State.Inside (bounds : List Bound) (s : State V) : Prop where
  universes : AllInBox bounds s.universes
  elite : AllInBox bounds s.elite

theorem ensures_gather {us : List (Candidate V)} (hus : AllInBox m.bounds us) :
    Run.Ensures (γ := γ) I (gather m settings host us) (State.Inside m.bounds) := by
  refine Run.Ensures.bind (Run.Ensures.sort host _ us) fun sorted hsorted => ?_
  have hinside : AllInBox m.bounds sorted := hsorted ▸ hus.sort _
  refine Run.Ensures.bind (P := fun _ => True) (Run.Ensures.expect fun _ _ => trivial)
    fun best _ => ?_
  exact Run.Ensures.pure ⟨hinside, hinside.take _⟩

theorem ensures_absorb {s : State V} (hs : s.Inside m.bounds) {us : List (Candidate V)}
    (hus : AllInBox m.bounds us) :
    Run.Ensures (γ := γ) I (absorb m settings host s us) fun (s', _) => s'.Inside m.bounds := by
  refine Run.Ensures.bind (Run.Ensures.sort host _ us) fun sorted hsorted => ?_
  have hinside : AllInBox m.bounds sorted := hsorted ▸ hus.sort _
  refine Run.Ensures.bind (P := fun _ => True) (Run.Ensures.expect fun _ _ => trivial)
    fun leader _ => ?_
  refine Run.Ensures.bind (Run.Ensures.refresh _ _ _ _) fun elite helite => ?_
  exact Run.Ensures.pure ⟨hinside, helite ▸ hs.elite.refresh (hinside.take _) _ _⟩

theorem ensures_start (hm : m.Confined I) (hinside : m.StartsInside) :
    Run.Ensures I (start m settings host) (State.Inside m.bounds) := by
  refine Run.Ensures.bind (P := AllInBox m.bounds) ?_ fun us hus => ensures_gather hus
  exact Run.Ensures.bind (Model.ensures_startingPositions hm hinside _) fun xs hxs =>
    Model.ensures_settle hm hxs

variable [Random.Source γ]

theorem ensures_explore (hm : m.Confined I) (math : Elementary) (progress : Float) {s : State V}
    (hs : s.Inside m.bounds) :
    Run.Ensures I (explore m settings math progress s) (AllInBox m.bounds) := by
  refine Run.Ensures.bind (Run.Ensures.mapM fun pair _ => ensures_transformAt m.bounds
    (passage m settings math progress s) s.best.position pair.1 pair.2) fun xs hxs => ?_
  refine Model.ensures_settle hm fun x hx => ?_
  obtain ⟨⟨u, i⟩, hu, hbox⟩ := exists_of_forall₂ hxs hx
  rwa [(hs.universes u (List.fst_mem_of_mem_zipIdx hu)).take_length] at hbox

theorem engine_keeps (hm : m.Confined I) (host : Host σ) :
    (engine m settings host).Keeps I (State.Inside m.bounds) (AllInBox m.bounds) where
  enter _ _ _ henter hs := Option.some.inj henter ▸ hs
  explore _ _ hs := Run.Ensures.get fun _ => ensures_explore hm _ _ hs
  absorb _ _ hs hus := ensures_absorb hs hus

/-- **A run of a multiverse** keeps what evaluations in the box keep, and its solutions are in the
box. -/
theorem ensures_run (hm : m.Confined I) (hinside : m.StartsInside) (host : Host σ) (rounds : Nat) :
    Run.Ensures I (run m settings host rounds)
      fun result => ∀ o, result = some o → AllInBox m.bounds o.solutions := by
  refine Run.Ensures.bind (Run.Ensures.require _) fun _ _ => ?_
  refine Run.Ensures.bind (ensures_start hm hinside) fun s hs => ?_
  exact Search.ensures_result hm.toKeeps (engine_keeps hm host) rounds hs fun _ _ hp => hp.elite

end Metaheuristics.Multiverse
