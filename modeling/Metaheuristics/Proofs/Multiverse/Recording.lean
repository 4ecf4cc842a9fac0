import Metaheuristics.Proofs.Multiverse.Steps
import Metaheuristics.Proofs.Multiverse.Translation
import Metaheuristics.Proofs.Search.Recording

/-!
# The record of a multiverse

The run of a multiverse with a record of all universes there have been, in the order in which they
were evaluated (`recordedRun`), is the run itself with more of it told
(`translates_recordedRun`).  The elite it ends with is the top of the record (`tracks_recordedRun`).
-/

namespace Metaheuristics.Multiverse

variable {γ σ V : Type} [Random.Source γ]

/-- **A run of a multiverse with its record.** -/
def recordedRun (m : Model γ σ V) (settings : Settings) (host : Host σ) (rounds : Nat) :
    Run γ σ (Option (Outcome V × List (Candidate V))) := do
  Run.require settings.check
  let universes ← populate m settings
  let state ← gather m settings host universes
  let result ← Search.run host m settings.criteria ((engine m settings host).recorded id) rounds
    (state, universes)
  return result.map fun (reason, progress) =>
    (outcome reason (progress.map id Prod.fst), progress.engine.2)

variable {m : Model γ σ V} {settings : Settings} {host : Host σ} {rounds : Nat} {w w' : World γ σ}

theorem translates_recordedRun :
    Run.Translates id (Option.map Prod.fst) (recordedRun m settings host rounds)
      (run m settings host rounds) := by
  refine Run.Translates.bind_id (Run.Translates.refl _) fun _ => ?_
  exact Search.run_recorded_from (populate m settings) (gather m settings host)
    id outcome rounds

/-- **The elite is the top of the record**, for a multiverse with as many universes as solutions. -/
theorem tracks_recordedRun {o : Outcome V} {all : List (Candidate V)}
    (hlen : settings.solutionAmount ≤ settings.universeAmount)
    (h : (recordedRun m settings host rounds).exec w = (.ok (some (o, all)), w')) :
    Elite.Tracks m.compareCandidates settings.solutionAmount all o.solutions := by
  obtain ⟨_, _, -, h⟩ := Run.bind_eq_ok.mp h
  obtain ⟨universes, v, huniverses, h⟩ := Run.bind_eq_ok.mp h
  obtain ⟨s, v', hs, h⟩ := Run.bind_eq_ok.mp h
  obtain ⟨stop, reason, p, hp, heq⟩ := Search.reaches_of_result h
  obtain ⟨rfl, rfl⟩ := Prod.mk.inj heq
  refine Search.tracks_recorded State.elite ?_ ?_ ?_ ?_ hp
  · intro k s s' henter
    rw [Option.some.inj henter]
  · intro s universes s' better v v' habsorb
    obtain ⟨leader, -, -, rfl, -⟩ := absorb_eq_ok habsorb
    rfl
  · rwa [length_of_populate huniverses]
  · obtain ⟨best, -, rfl, -⟩ := gather_eq_ok hs
    rfl

end Metaheuristics.Multiverse
