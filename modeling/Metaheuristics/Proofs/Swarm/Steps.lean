import Metaheuristics.Proofs.Model.Results
import Metaheuristics.Proofs.Population.Merging
import Metaheuristics.Proofs.Search.Reach
import Metaheuristics.Swarm.Run

/-!
# Steps of a swarm

What the parts of a swarm's run yield: the particles and the state at the start, the state after a
move, and the outcome (`length_of_populate`, `gather_eq_ok`, `mapM_appraise_eq_ok`, `absorb_eq_ok`,
`visits_of_run`).
-/

namespace Metaheuristics.Swarm

variable {γ σ V : Type} {m : Model γ σ V} {settings : Settings} {host : Host σ} {w w' : World γ σ}

/-! ## Ranking -/

/-- **The particles from best to worst.** -/
def rank (m : Model γ σ V) (particles : List (Particle V)) : List (Particle V) :=
  Ranking.sort (compareParticles m) particles

theorem sort_snapshots (particles : List (Particle V)) :
    Ranking.sort m.compareCandidates (particles.map (·.snapshot))
      = (rank m particles).map (·.snapshot) := Ranking.sort_map (fun _ _ => rfl) particles

/-- The leaders are the top of the particles' present states. -/
theorem leaders_rank (particles : List (Particle V)) :
    leaders settings (rank m particles)
      = (Ranking.sort m.compareCandidates (particles.map (·.snapshot))).take
        settings.solutionAmount := by
  rw [leaders, sort_snapshots, List.map_take]

theorem head?_sort_snapshots {particles : List (Particle V)} {leader : Particle V}
    (h : (rank m particles).head? = some leader) :
    (Ranking.sort m.compareCandidates (particles.map (·.snapshot))).head?
      = some leader.snapshot := by
  rw [sort_snapshots, List.head?_map, h]
  rfl

/-! ## Appraisals -/

/-- A record leaves a particle where it is and as fast as it is. -/
theorem Particle.record_eq (compare : Option V → Option V → Ordering) (p : Particle V)
    (fitness : Option V) : (p.record compare fitness).snapshot = ⟨p.position, fitness⟩ ∧
      (p.record compare fitness).velocity = p.velocity := by
  unfold Particle.record
  simp only
  split_ifs <;> exact ⟨rfl, rfl⟩

theorem appraise_eq_ok {p q : Particle V} (h : (appraise m p).exec w = (.ok q, w')) :
    ∃ fitness, (Run.tryCall (m.evaluate p.position)).exec w = (.ok fitness, w') ∧
      q = p.record m.compare fitness := by
  obtain ⟨fitness, v, hfitness, h⟩ := Run.bind_eq_ok.mp h
  obtain ⟨rfl, rfl⟩ := Run.pure_eq_ok.mp h
  exact ⟨fitness, hfitness, rfl⟩

theorem mapM_appraise_eq_ok {ps qs : List (Particle V)}
    (h : (ps.mapM (appraise m)).exec w = (.ok qs, w')) :
    (m.evaluateAll (ps.map (·.position))).exec w = (.ok (qs.map (·.snapshot)), w') := by
  induction ps generalizing w qs with
  | nil =>
    obtain ⟨rfl, rfl⟩ := Run.pure_eq_ok.mp h
    rfl
  | cons p ps ih =>
    obtain ⟨q, v, qs', hq, hqs, rfl⟩ := Run.mapM_cons_eq_ok.mp h
    obtain ⟨fitness, hfitness, rfl⟩ := appraise_eq_ok hq
    refine Run.mapM_cons_eq_ok.mpr ⟨⟨p.position, fitness⟩, v, _, ?_, ih hqs, ?_⟩
    · exact Run.bind_eq_ok.mpr ⟨fitness, v, hfitness, rfl⟩
    · rw [List.map_cons, (p.record_eq m.compare fitness).1]

/-! ## Runs -/

theorem gather_eq_ok {particles : List (Particle V)} {s : State V}
    (h : (gather m settings host particles).exec w = (.ok s, w')) :
    ∃ leader, (rank m particles).head? = some leader ∧
      s = ⟨rank m particles, leader.snapshot, leaders settings (rank m particles)⟩ ∧ w = w' := by
  obtain ⟨sorted, v, hsorted, h⟩ := Run.bind_eq_ok.mp h
  obtain ⟨rfl, rfl⟩ := Run.sort_eq_ok hsorted
  obtain ⟨leader, v', hleader, h⟩ := Run.bind_eq_ok.mp h
  obtain ⟨hhead, rfl⟩ := Run.expect_eq_ok.mp hleader
  obtain ⟨rfl, rfl⟩ := Run.pure_eq_ok.mp h
  exact ⟨leader, hhead, rfl, rfl⟩

theorem absorb_eq_ok {s s' : State V} {particles : List (Particle V)} {better : Bool}
    (h : (absorb m settings host s particles).exec w = (.ok (s', better), w')) :
    ∃ leader, (rank m particles).head? = some leader ∧
      better = m.isBetter leader.fitness s.best.fitness ∧
      s' = ⟨rank m particles, if better then leader.snapshot else s.best,
        Elite.refresh m.compareCandidates s.elite (leaders settings (rank m particles))
          settings.solutionAmount⟩ ∧ w = w' := by
  obtain ⟨sorted, v, hsorted, h⟩ := Run.bind_eq_ok.mp h
  obtain ⟨rfl, rfl⟩ := Run.sort_eq_ok hsorted
  obtain ⟨leader, v', hleader, h⟩ := Run.bind_eq_ok.mp h
  obtain ⟨hhead, rfl⟩ := Run.expect_eq_ok.mp hleader
  obtain ⟨elite, v'', helite, h⟩ := Run.bind_eq_ok.mp h
  obtain ⟨rfl, rfl⟩ := Run.refresh_eq_ok helite
  obtain ⟨heq, rfl⟩ := Run.pure_eq_ok.mp h
  obtain ⟨rfl, rfl⟩ := Prod.mk.inj heq
  exact ⟨leader, hhead, rfl, rfl, rfl⟩

variable [Random.Source γ]

theorem length_of_populate {particles : List (Particle V)}
    (h : (populate m settings).exec w = (.ok particles, w')) :
    particles.length = settings.particleAmount := by
  obtain ⟨positions, v, hpositions, h⟩ := Run.bind_eq_ok.mp h
  obtain ⟨cs, v', hcs, h⟩ := Run.bind_eq_ok.mp h
  rw [Run.length_of_mapM h, ← (Model.startingPositions_eq_ok hpositions).2.1,
    ← Model.evaluateAll_eq_ok hcs, List.length_map]

/-- **The positions of the loop in a run** that begins in the world `w`. -/
def Visits (m : Model γ σ V) (settings : Settings) (host : Host σ) (w : World γ σ) (stop : Bool)
    (p : Progress V (State V)) (v : World γ σ) : Prop :=
  settings.check = .ok () ∧ ∃ s v₀, (start m settings host).exec w = (.ok s, v₀) ∧
    Search.Reaches host m settings.criteria (engine m settings host) (Search.begin s) v₀ stop p v

/-- **The outcome of a run** is read off the position of the loop that it ends at. -/
theorem visits_of_run {rounds : Nat} {o : Outcome V}
    (h : (run m settings host rounds).exec w = (.ok (some o), w')) :
    ∃ stop reason p, Visits m settings host w stop p w' ∧ o = outcome reason p := by
  obtain ⟨_, _, hrequire, h⟩ := Run.bind_eq_ok.mp h
  obtain ⟨hcheck, rfl⟩ := Run.require_eq_ok.mp hrequire
  obtain ⟨s, v, hs, h⟩ := Run.bind_eq_ok.mp h
  obtain ⟨stop, reason, p, hp, rfl⟩ := Search.reaches_of_result h
  exact ⟨stop, reason, p, ⟨hcheck, s, v, hs, hp⟩, rfl⟩

end Metaheuristics.Swarm
