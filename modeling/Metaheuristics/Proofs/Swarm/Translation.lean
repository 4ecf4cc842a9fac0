import Metaheuristics.Proofs.Population.Merging
import Metaheuristics.Proofs.Search.Translation
import Metaheuristics.Proofs.Swarm.Steps

/-!
# Translations of swarms

The run of a swarm on a translated model is the translation of its run (`translates_run`).
-/

namespace Metaheuristics.Swarm

variable {γ σ τ V U : Type}

/-- A particle with its fitness read through `f`. -/
def Particle.map (f : V → U) (p : Particle V) : Particle U :=
  ⟨p.fitness.map f, p.position, p.velocity, p.best.map f⟩

/-- A swarm with its fitness read through `f`. -/
def State.map (f : V → U) (s : State V) : State U :=
  ⟨s.particles.map (Particle.map f), s.best.map f, s.elite.map (Candidate.map f)⟩

theorem Particle.map_id (p : Particle V) : p.map id = p := by
  rw [Particle.map, Option.map_id_apply, Candidate.map_id]

theorem State.map_id (s : State V) : s.map id = s := by
  rw [State.map, Candidate.map_id, Candidate.map_map_id, funext Particle.map_id, List.map_id']

variable {view : σ → τ} {f : V → U} {m : Model γ σ V} {n : Model γ τ U} {host : Host σ}
  {host' : Host τ} (settings : Settings)

/-! ## Populations -/

theorem Particle.ofState_map (position : Position) (velocity : List Float) (fitness : Option V) :
    Particle.ofState position velocity (fitness.map f)
      = (Particle.ofState position velocity fitness).map (Particle.map f) := by
  unfold Particle.ofState
  split_ifs <;> rfl

theorem record_map (hm : m.Translates view f n) (p : Particle V) (fitness : Option V) :
    (p.map f).record n.compare (fitness.map f) = (p.record m.compare fitness).map f := by
  unfold Particle.record
  simp only [Particle.map, Candidate.map, hm.compare]
  split_ifs <;> rfl

theorem translates_appraise (hm : m.Translates view f n) (p : Particle V) :
    Run.Translates view (Particle.map f) (appraise m p) (appraise n (p.map f)) := by
  refine Run.Translates.bind (Run.Translates.tryCall (hm.evaluate p.position)) fun fitness => ?_
  exact Run.Translates.pure (record_map hm p fitness)

theorem compareParticles_map (hm : m.Translates view f n) (p q : Particle V) :
    compareParticles n (p.map f) (q.map f) = compareParticles m p q :=
  hm.compare p.fitness q.fitness

theorem leaders_map (ps : List (Particle V)) :
    leaders settings (ps.map (Particle.map f)) = (leaders settings ps).map (Candidate.map f) := by
  simp only [leaders, ← List.map_take, List.map_map]
  rfl

theorem translates_gather (hh : host.Translates view host') (hm : m.Translates view f n)
    (ps : List (Particle V)) :
    Run.Translates view (State.map f) (gather m settings host ps)
      (gather n settings host' (ps.map (Particle.map f))) := by
  refine Run.Translates.bind (hh.sort (compareParticles_map hm) ps) fun ps => ?_
  refine Run.Translates.bind (Run.Translates.expect _ List.head?_map) fun leader => ?_
  refine Run.Translates.pure ?_
  rw [State.map, leaders_map settings]
  rfl

theorem translates_absorb (hh : host.Translates view host') (hm : m.Translates view f n)
    (s : State V) (ps : List (Particle V)) :
    Run.Translates view (Prod.map (State.map f) id) (absorb m settings host s ps)
      (absorb n settings host' (s.map f) (ps.map (Particle.map f))) := by
  refine Run.Translates.bind (hh.sort (compareParticles_map hm) ps) fun ps => ?_
  refine Run.Translates.bind (Run.Translates.expect _ List.head?_map) fun leader => ?_
  have helite := Elite.refresh?_map hm.compareCandidates s.elite (leaders settings ps)
    settings.solutionAmount
  rw [← leaders_map settings] at helite
  refine Run.Translates.bind (Run.Translates.expect _ helite) fun elite => Run.Translates.pure ?_
  have hbetter : n.isBetter (leader.map f).fitness (s.map f).best.fitness
      = m.isBetter leader.fitness s.best.fitness := hm.isBetter _ _
  rw [hbetter]
  simp only [Prod.map, State.map, id]
  split_ifs <;> rfl

/-! ## Moves -/

variable [Random.Source γ]

theorem translates_initialVelocity :
    Run.Translates (γ := γ) view id (initialVelocity settings) (initialVelocity settings) :=
  Run.Translates.bind_id (Run.Translates.draw _) fun _ => Run.Translates.pure rfl

theorem Axis.translates_move (axis : Axis) :
    Run.Translates (γ := γ) view id (axis.move settings) (axis.move settings) := by
  refine Run.Translates.bind_id (Run.Translates.draw _) fun r₁ => ?_
  refine Run.Translates.bind_id (Run.Translates.draw _) fun r₂ => ?_
  refine Run.Translates.bind_id (Run.Translates.expect _ (by rw [Option.map_id]; rfl)) fun v => ?_
  exact Run.Translates.pure rfl

theorem Particle.translates_move (bounds : List Bound) (shared : Position) (p : Particle V) :
    Run.Translates (γ := γ) view (Particle.map f) (p.move settings bounds shared)
      ((p.map f).move settings bounds shared) := by
  refine Run.Translates.bind_id (Run.Translates.expect _ (by rw [Option.map_id]; rfl))
    fun axes => ?_
  refine Run.Translates.bind_id (Run.Translates.mapM_id (Axis.translates_move settings) axes)
    fun moved => ?_
  exact Run.Translates.pure rfl

section
variable (hm : m.Translates view f n)
include hm

theorem translates_launch (c : Candidate V) :
    Run.Translates view (Particle.map f) (launch m settings c) (launch n settings (c.map f)) := by
  unfold launch
  rw [hm.dimension]
  refine Run.Translates.bind_id (Run.Translates.mapM_id
    (fun _ => translates_initialVelocity settings) _) fun velocity => ?_
  rw [show (c.map f).fitness = c.fitness.map f from rfl, show (c.map f).position = c.position from
    rfl, Particle.ofState_map]
  obtain broken | p := Particle.ofState c.position velocity c.fitness
  · exact Run.Translates.violate broken
  · exact Run.Translates.pure rfl

/-! ## Runs -/

theorem translates_populate :
    Run.Translates view (List.map (Particle.map f)) (populate m settings)
      (populate n settings) := by
  refine Run.Translates.bind_id (hm.startingPositions _) fun positions => ?_
  refine Run.Translates.bind (hm.evaluateAll positions) fun cs => ?_
  exact Run.Translates.mapM (translates_launch settings hm) cs

theorem translates_start (hh : host.Translates view host') :
    Run.Translates view (State.map f) (start m settings host) (start n settings host') :=
  Run.Translates.bind (translates_populate settings hm) (translates_gather settings hh hm)

theorem translates_explore (s : State V) :
    Run.Translates view (List.map (Particle.map f)) (explore m settings s)
      (explore n settings (s.map f)) := by
  unfold explore
  rw [hm.bounds]
  refine Run.Translates.bind (Run.Translates.mapM
    (Particle.translates_move settings m.bounds s.best.position) s.particles) fun moved => ?_
  exact Run.Translates.mapM (translates_appraise hm) moved

theorem translates_engine (hh : host.Translates view host') :
    Engine.Translates view f (State.map f) (List.map (Particle.map f)) (engine m settings host)
      (engine n settings host') where
  enter _ _ := rfl
  explore _ := translates_explore settings hm
  absorb := translates_absorb settings hh hm
  best _ := rfl

/-- **The run on a translated model** is the translated run. -/
theorem translates_run (hh : host.Translates view host') (rounds : Nat) :
    Run.Translates view (Option.map (Outcome.map f)) (run m settings host rounds)
      (run n settings host' rounds) := by
  refine Run.Translates.bind_id (Run.Translates.require _) fun _ => ?_
  refine Run.Translates.bind (translates_start settings hm hh) fun s => ?_
  refine Run.Translates.bind
    (Search.translates_run hh hm (translates_engine settings hm hh) rounds s) fun result => ?_
  refine Run.Translates.pure ?_
  rw [Option.map_map, Option.map_map]
  refine congrArg (Option.map · result) (funext fun (reason, p) => ?_)
  simp [outcome, Outcome.map, Progress.map, State.map]

/-- A position of the run on a translated model is a translated position of the run. -/
theorem Visits.of_translates (hh : host.Translates view host') {w : World γ σ} {stop : Bool}
    {q : Progress U (State U)} {u : World γ τ}
    (h : Visits n settings host' (w.through view) stop q u) :
    ∃ p v, Visits m settings host w stop p v ∧ p.map f (State.map f) = q ∧
      v.through view = u := by
  obtain ⟨hcheck, s', u₀, hstart, hreaches⟩ := h
  obtain ⟨s, v₀, hs, rfl, rfl⟩ := (translates_start settings hm hh).eq_ok hstart
  rw [← Search.begin_map] at hreaches
  obtain ⟨p, v, hp, hq, hu⟩ :=
    Search.Reaches.of_translates hh hm (translates_engine settings hm hh) hreaches
  exact ⟨p, v, ⟨hcheck, s, v₀, hs, hp⟩, hq, hu⟩

end

end Metaheuristics.Swarm
