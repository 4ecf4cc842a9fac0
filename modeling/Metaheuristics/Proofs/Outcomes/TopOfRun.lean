import Metaheuristics.Model.Problem
import Metaheuristics.Proofs.Annealing.Recording
import Metaheuristics.Proofs.Fitness.Preorder
import Metaheuristics.Proofs.Multiverse.Recording
import Metaheuristics.Proofs.Swarm.Recording

/-!
# The solutions of a run are its best candidates

Each engine keeps an elite of a fixed capacity and folds only the best few of every iteration into
it.  Nothing is lost by that: at the end the elite is what a stable sort of all candidates of the
run, cut once to the capacity, would be (`solutions_isTop`).
-/

namespace Metaheuristics

variable {γ σ V : Type}

/-- **The model can rank some candidates**: on the fitness they have, its comparison is a total
preorder. -/
def Model.Ranks (m : Model γ σ V) (candidates : List (Candidate V)) : Prop :=
  TotalPreorderOn m.compare fun fitness => ∃ c ∈ candidates, c.fitness = fitness

theorem Model.Ranks.candidates {m : Model γ σ V} {candidates : List (Candidate V)}
    (h : m.Ranks candidates) : TotalPreorderOn m.compareCandidates (· ∈ candidates) :=
  (TotalPreorderOn.comap h Candidate.fitness).mono fun c hc => ⟨c, hc, rfl⟩

/-- **The solutions of a run are the top of all its candidates**, in the order in which they were
evaluated, when the run starts with at least as many candidates as solutions are asked for. -/
theorem solutions_isTop [Random.Source γ] (m : Model γ σ V) (host : Host σ) (rounds : Nat)
    (w w' : World γ σ) :
    (∀ (settings : Swarm.Settings) (o : Outcome V),
      settings.solutionAmount ≤ settings.particleAmount →
      (Swarm.run m settings host rounds).exec w = (.ok (some o), w') →
      ∃ all, (Swarm.recordedRun m settings host rounds).exec w = (.ok (some (o, all)), w') ∧
        (m.Ranks all →
          Elite.IsTop m.compareCandidates settings.solutionAmount all o.solutions)) ∧
    (∀ (settings : Multiverse.Settings) (o : Outcome V),
      settings.solutionAmount ≤ settings.universeAmount →
      (Multiverse.run m settings host rounds).exec w = (.ok (some o), w') →
      ∃ all, (Multiverse.recordedRun m settings host rounds).exec w = (.ok (some (o, all)), w') ∧
        (m.Ranks all →
          Elite.IsTop m.compareCandidates settings.solutionAmount all o.solutions)) ∧
    ∀ (settings : Annealing.Settings) (o : Annealing.Outcome V),
      settings.solutionAmount ≤ settings.initialAmount →
      (Annealing.run m settings host rounds).exec w = (.ok (some o), w') →
      ∃ all, (Annealing.recordedRun m settings host rounds).exec w = (.ok (some (o, all)), w') ∧
        (m.Ranks all →
          Elite.IsTop m.compareCandidates settings.solutionAmount all o.solutions) := by
  refine ⟨fun settings o hlen h => ?_, fun settings o hlen h => ?_, fun settings o hlen h => ?_⟩
  · obtain ⟨all, hall⟩ := Search.exists_record Swarm.translates_recordedRun h
    exact ⟨all, hall, fun hranks => (Swarm.tracks_recordedRun hlen hall).isTop hranks.candidates⟩
  · obtain ⟨all, hall⟩ := Search.exists_record Multiverse.translates_recordedRun h
    exact ⟨all, hall, fun hranks =>
      (Multiverse.tracks_recordedRun hlen hall).isTop hranks.candidates⟩
  · obtain ⟨all, hall⟩ := Search.exists_record Annealing.translates_recordedRun h
    exact ⟨all, hall, fun hranks =>
      (Annealing.tracks_recordedRun hlen hall).isTop hranks.candidates⟩

/-! ## A problem on the unit interval -/

namespace Interval

/-- The unit interval. -/
def bound : Bound := ⟨0.0, 1.0, by decide, by decide, by decide⟩

/-- The distance from one half, in the left three quarters of the unit interval. -/
def problem : Problem Random.SplitMix Unit Float :=
  (Problem.ofObjective Direction.minimize.order [bound] fun x =>
    pure (.ok (x.head?.map fun a => (a - 0.5).abs))).withConstraint
    ⟨"left", fun x => pure (x.head?.map fun a => a ≤ 0.75)⟩

/-- The problem's model. -/
def model : Model Random.SplitMix Unit Float := problem.toModel

theorem model_ranks (candidates : List (Candidate Float)) : model.Ranks candidates :=
  (Direction.totalPreorder_optional .minimize).mono fun _ _ => trivial

/-- A host at which time stands still, with a stand-in for the elementary functions. -/
def host : Host Unit :=
  ⟨fun _ => ⟨0⟩, fun _ => false, ⟨fun _ => 0.5, fun _ _ => 0.5⟩, .lenient⟩

/-- The world in which the examples begin. -/
def world : World Random.SplitMix Unit := ⟨⟨2024⟩, ()⟩

/-- Two iterations and no more. -/
def criteria : StopCriteria := StopCriteria.unlimited.withIterationLimit 1

/-- A small swarm. -/
def swarm : Swarm.Settings :=
  { Swarm.Settings.standard with particleAmount := 3, solutionAmount := 2, criteria := criteria }

/-- A small multiverse. -/
def multiverse : Multiverse.Settings :=
  { Multiverse.Settings.standard with
    universeAmount := 3
    solutionAmount := 2
    criteria := criteria }

/-- A short annealing. -/
def annealing : Annealing.Settings :=
  { Annealing.Settings.standard with
    markovLength := 3
    initialAmount := 2
    solutionAmount := 2
    criteria := criteria }

theorem swarm_outcome :
    ∃ o w', (Swarm.run model swarm host 3).exec world = (.ok (some o), w') ∧
      0 < o.iterations :=
  Run.exists_outcome (by decide +kernel)

theorem multiverse_outcome :
    ∃ o w', (Multiverse.run model multiverse host 3).exec world = (.ok (some o), w') ∧
      0 < o.iterations :=
  Run.exists_outcome (by decide +kernel)

theorem annealing_outcome :
    ∃ o w', (Annealing.run model annealing host 3).exec world = (.ok (some o), w') ∧
      0 < o.iterations :=
  Run.exists_outcome (by decide +kernel)

end Interval

/-- The solutions of three runs on the unit interval. -/
theorem solutions_isTop_interval :
    (∃ o w' all, (Swarm.run Interval.model Interval.swarm Interval.host 3).exec Interval.world
        = (.ok (some o), w') ∧
      (Swarm.recordedRun Interval.model Interval.swarm Interval.host 3).exec Interval.world
        = (.ok (some (o, all)), w') ∧
      Elite.IsTop Interval.model.compareCandidates 2 all o.solutions) ∧
    (∃ o w' all,
      (Multiverse.run Interval.model Interval.multiverse Interval.host 3).exec Interval.world
        = (.ok (some o), w') ∧
      (Multiverse.recordedRun Interval.model Interval.multiverse Interval.host 3).exec
        Interval.world = (.ok (some (o, all)), w') ∧
      Elite.IsTop Interval.model.compareCandidates 2 all o.solutions) ∧
    ∃ o w' all,
      (Annealing.run Interval.model Interval.annealing Interval.host 3).exec Interval.world
        = (.ok (some o), w') ∧
      (Annealing.recordedRun Interval.model Interval.annealing Interval.host 3).exec
        Interval.world = (.ok (some (o, all)), w') ∧
      Elite.IsTop Interval.model.compareCandidates 2 all o.solutions := by
  obtain ⟨o₁, w₁, h₁, -⟩ := Interval.swarm_outcome
  obtain ⟨o₂, w₂, h₂, -⟩ := Interval.multiverse_outcome
  obtain ⟨o₃, w₃, h₃, -⟩ := Interval.annealing_outcome
  obtain ⟨all₁, ha₁, ht₁⟩ := (solutions_isTop Interval.model Interval.host 3 Interval.world
    w₁).1 Interval.swarm o₁ (by decide) h₁
  obtain ⟨all₂, ha₂, ht₂⟩ := (solutions_isTop Interval.model Interval.host 3 Interval.world
    w₂).2.1 Interval.multiverse o₂ (by decide) h₂
  obtain ⟨all₃, ha₃, ht₃⟩ := (solutions_isTop Interval.model Interval.host 3 Interval.world
    w₃).2.2 Interval.annealing o₃ (by decide) h₃
  exact ⟨⟨o₁, w₁, all₁, h₁, ha₁, ht₁ (Interval.model_ranks all₁)⟩,
    ⟨o₂, w₂, all₂, h₂, ha₂, ht₂ (Interval.model_ranks all₂)⟩,
    ⟨o₃, w₃, all₃, h₃, ha₃, ht₃ (Interval.model_ranks all₃)⟩⟩

end Metaheuristics
