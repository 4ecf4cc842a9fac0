import Metaheuristics.Proofs.Search.Recording
import Metaheuristics.Proofs.Swarm.Steps
import Metaheuristics.Proofs.Swarm.Translation

/-!
# The record of a swarm

The run of a swarm with a record of all states its particles have been in, in the order in which
they were evaluated (`recordedRun`), is the run itself with more of it told
(`translates_recordedRun`).  The elite it ends with is the top of the record (`tracks_recordedRun`).
-/

namespace Metaheuristics.Swarm

variable {γ σ V : Type} [Random.Source γ]

/-- **A run of a swarm with its record.** -/
def recordedRun (m : Model γ σ V) (settings : Settings) (host : Host σ) (rounds : Nat) :
    Run γ σ (Option (Outcome V × List (Candidate V))) := do
  Run.require settings.check
  let particles ← populate m settings
  let state ← gather m settings host particles
  let result ← Search.run host m settings.criteria
    ((engine m settings host).recorded (List.map Particle.snapshot)) rounds
    (state, particles.map Particle.snapshot)
  return result.map fun (reason, progress) =>
    (outcome reason (progress.map id Prod.fst), progress.engine.2)

variable {m : Model γ σ V} {settings : Settings} {host : Host σ} {rounds : Nat} {w w' : World γ σ}

theorem translates_recordedRun :
    Run.Translates id (Option.map Prod.fst) (recordedRun m settings host rounds)
      (run m settings host rounds) := by
  refine Run.Translates.bind_id (Run.Translates.refl _) fun _ => ?_
  exact Search.run_recorded_from (populate m settings) (gather m settings host)
    (List.map Particle.snapshot) outcome rounds

/-- **The elite is the top of the record**, for a swarm with as many particles as solutions. -/
theorem tracks_recordedRun {o : Outcome V} {all : List (Candidate V)}
    (hlen : settings.solutionAmount ≤ settings.particleAmount)
    (h : (recordedRun m settings host rounds).exec w = (.ok (some (o, all)), w')) :
    Elite.Tracks m.compareCandidates settings.solutionAmount all o.solutions := by
  obtain ⟨_, _, -, h⟩ := Run.bind_eq_ok.mp h
  obtain ⟨particles, v, hparticles, h⟩ := Run.bind_eq_ok.mp h
  obtain ⟨s, v', hs, h⟩ := Run.bind_eq_ok.mp h
  obtain ⟨stop, reason, p, hp, heq⟩ := Search.reaches_of_result h
  obtain ⟨rfl, rfl⟩ := Prod.mk.inj heq
  refine Search.tracks_recorded State.elite ?_ ?_ ?_ ?_ hp
  · intro k s s' henter
    rw [Option.some.inj henter]
  · intro s particles s' better v v' habsorb
    obtain ⟨leader, -, -, rfl, -⟩ := absorb_eq_ok habsorb
    rw [leaders_rank]
  · rwa [List.length_map, length_of_populate hparticles]
  · obtain ⟨leader, -, rfl, -⟩ := gather_eq_ok hs
    exact leaders_rank particles

end Metaheuristics.Swarm
