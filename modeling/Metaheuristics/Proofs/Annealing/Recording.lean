import Metaheuristics.Proofs.Annealing.Steps
import Metaheuristics.Proofs.Annealing.Translation
import Metaheuristics.Proofs.Search.Recording

/-!
# The record of annealing

The run of annealing with a record of its starting candidates and of all points it has accepted, in
their order (`recordedRun`), is the run itself with more of it told (`translates_recordedRun`).
The elite it ends with is the top of the record (`tracks_recordedRun`).
-/

namespace Metaheuristics.Annealing

variable {γ σ V : Type} [Random.Source γ]

/-- The points that the trials of a batch have accepted. -/
def Batch.moves (b : Batch V) : List (Candidate V) := b.accepted.toList

/-- **A run of annealing with its record.** -/
def recordedRun (m : Model γ σ V) (settings : Settings) (host : Host σ) (rounds : Nat) :
    Run γ σ (Option (Outcome V × List (Candidate V))) := do
  Run.require settings.check
  Run.require (settings.checkDimension m.dimension)
  let candidates ← populate m settings
  let state ← gather m settings host candidates
  let result ← Search.run host m settings.criteria
    ((engine m settings host).recorded Batch.moves) rounds (state, candidates)
  return result.map fun (reason, progress) =>
    (outcome reason (progress.map id Prod.fst), progress.engine.2)

variable {m : Model γ σ V} {settings : Settings} {host : Host σ} {rounds : Nat} {w w' : World γ σ}

theorem translates_recordedRun :
    Run.Translates id (Option.map Prod.fst) (recordedRun m settings host rounds)
      (run m settings host rounds) := by
  refine Run.Translates.bind_id (Run.Translates.refl _) fun _ => ?_
  refine Run.Translates.bind_id (Run.Translates.refl _) fun _ => ?_
  exact Search.run_recorded_from (populate m settings) (gather m settings host)
    id outcome rounds

/-- **The elite is the top of the record**, with as many starting candidates as solutions. -/
theorem tracks_recordedRun {o : Outcome V} {all : List (Candidate V)}
    (hlen : settings.solutionAmount ≤ settings.initialAmount)
    (h : (recordedRun m settings host rounds).exec w = (.ok (some (o, all)), w')) :
    Elite.Tracks m.compareCandidates settings.solutionAmount all o.solutions := by
  obtain ⟨_, _, -, h⟩ := Run.bind_eq_ok.mp h
  obtain ⟨_, _, -, h⟩ := Run.bind_eq_ok.mp h
  obtain ⟨candidates, v, hcandidates, h⟩ := Run.bind_eq_ok.mp h
  obtain ⟨s, v', hs, h⟩ := Run.bind_eq_ok.mp h
  obtain ⟨stop, reason, p, hp, heq⟩ := Search.reaches_of_result h
  obtain ⟨rfl, rfl⟩ := Prod.mk.inj heq
  refine Search.tracks_recorded State.elite ?_ ?_ ?_ ?_ hp
  · intro k s s' henter
    exact (cool_eq_some henter).2
  · intro s b s' better v v' habsorb
    obtain ⟨-, rfl, -⟩ := absorb_eq_ok habsorb
    rfl
  · rwa [length_of_populate hcandidates]
  · obtain ⟨leader, -, rfl, -⟩ := gather_eq_ok hs
    rfl

end Metaheuristics.Annealing
