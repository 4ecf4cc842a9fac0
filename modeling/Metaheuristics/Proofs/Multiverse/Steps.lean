import Metaheuristics.Multiverse.Run
import Metaheuristics.Proofs.Model.Results
import Metaheuristics.Proofs.Population.Merging
import Metaheuristics.Proofs.Search.Reach

/-!
# Steps of a multiverse

What the parts of a multiverse's run yield: the universes and the state at the start, the state
after an iteration, and the outcome (`length_of_populate`, `gather_eq_ok`, `absorb_eq_ok`,
`visits_of_run`).
-/

namespace Metaheuristics.Multiverse

variable {γ σ V : Type} {m : Model γ σ V} {settings : Settings} {host : Host σ} {w w' : World γ σ}

/-- **The universes from best to worst.** -/
def rank (m : Model γ σ V) (universes : List (Candidate V)) : List (Candidate V) :=
  Ranking.sort m.compareCandidates universes

theorem gather_eq_ok {universes : List (Candidate V)} {s : State V}
    (h : (gather m settings host universes).exec w = (.ok s, w')) :
    ∃ best, (rank m universes).head? = some best ∧
      s = ⟨rank m universes, best, (rank m universes).take settings.solutionAmount⟩ ∧ w = w' := by
  obtain ⟨sorted, v, hsorted, h⟩ := Run.bind_eq_ok.mp h
  obtain ⟨rfl, rfl⟩ := Run.sort_eq_ok hsorted
  obtain ⟨best, v', hbest, h⟩ := Run.bind_eq_ok.mp h
  obtain ⟨hhead, rfl⟩ := Run.expect_eq_ok.mp hbest
  obtain ⟨rfl, rfl⟩ := Run.pure_eq_ok.mp h
  exact ⟨best, hhead, rfl, rfl⟩

theorem absorb_eq_ok {s s' : State V} {universes : List (Candidate V)} {better : Bool}
    (h : (absorb m settings host s universes).exec w = (.ok (s', better), w')) :
    ∃ leader, (rank m universes).head? = some leader ∧
      better = m.isBetter leader.fitness s.best.fitness ∧
      s' = ⟨rank m universes, if better then leader else s.best,
        Elite.refresh m.compareCandidates s.elite ((rank m universes).take settings.solutionAmount)
          settings.solutionAmount⟩ ∧ w = w' := by
  obtain ⟨sorted, v, hsorted, h⟩ := Run.bind_eq_ok.mp h
  obtain ⟨rfl, rfl⟩ := Run.sort_eq_ok hsorted
  obtain ⟨leader, v', hleader, h⟩ := Run.bind_eq_ok.mp h
  obtain ⟨hhead, rfl⟩ := Run.expect_eq_ok.mp hleader
  obtain ⟨elite, v'', helite, h⟩ := Run.bind_eq_ok.mp h
  obtain ⟨rfl, rfl⟩ := Run.refresh_eq_ok helite
  obtain ⟨heq, rfl⟩ := Run.pure_eq_ok.mp h
  obtain ⟨rfl, rfl⟩ := Prod.mk.inj heq
  exact ⟨leader, hhead, rfl, rfl, rfl⟩

theorem length_of_populate {universes : List (Candidate V)}
    (h : (populate m settings).exec w = (.ok universes, w')) :
    universes.length = settings.universeAmount := by
  obtain ⟨positions, v, hpositions, h⟩ := Run.bind_eq_ok.mp h
  rw [Model.length_of_settle h, (Model.startingPositions_eq_ok hpositions).2.1]

variable [Random.Source γ]

/-- **The positions of the loop in a run** that begins in the world `w`. -/
def Visits (m : Model γ σ V) (settings : Settings) (host : Host σ) (w : World γ σ) (stop : Bool)
    (p : Progress V (State V)) (v : World γ σ) : Prop :=
  settings.check = .ok () ∧ ∃ s v₀, (start m settings host).exec w = (.ok s, v₀) ∧
    Search.Reaches host m settings.criteria (engine m settings host) (Search.begin s) v₀ stop p v

/-- **The outcome of a run** is read off the position of the loop that it ends at. -/
theorem visits_of_run {rounds : Nat} {o : Outcome V}
    (h : (run m settings host rounds).exec w = (.ok (some o), w')) :
    ∃ stop reason p, Visits m settings host w stop p w' ∧ o = outcome reason p := by
  obtain ⟨_, _, hrequire, h⟩ := Run.bind_eq_ok.mp h
  obtain ⟨hcheck, rfl⟩ := Run.require_eq_ok.mp hrequire
  obtain ⟨s, v, hs, h⟩ := Run.bind_eq_ok.mp h
  obtain ⟨stop, reason, p, hp, rfl⟩ := Search.reaches_of_result h
  exact ⟨stop, reason, p, ⟨hcheck, s, v, hs, hp⟩, rfl⟩

end Metaheuristics.Multiverse
