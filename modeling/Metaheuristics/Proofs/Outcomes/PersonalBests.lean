import Metaheuristics.Proofs.Outcomes.BestOfRun
import Metaheuristics.Proofs.Swarm.Trajectories

/-!
# What the particles of a swarm remember

The swarm is ranked anew in every iteration, each particle carries its own memory through that, and
the best state of the swarm is read off the first particle only.  Even so, wherever a run gets to,
each particle remembers the first of the best states that it has itself been in, and the best state
of the swarm is one that some particle has been in and no particle remembers a better one
(`memories_are_first_bests`).  The trails say which particle is which.
-/

namespace Metaheuristics

variable {γ σ V : Type} [Random.Source γ]

/-- **A swarm at a position of its run, and the trails of its particles** since the start `s`: the
trails lead from the particles of the start to those of now, one iteration of the particle after
the other. -/
structure Swarm.Trails (m : Model γ σ V) (settings : Swarm.Settings) (s : Swarm.State V)
    (p : Progress V (Swarm.State V)) (trails : List (Swarm.Trail V)) : Prop where
  particles : trails.map (·.particle) = p.engine.particles
  starts : (trails.map (·.course.head?)).Perm (s.particles.map some)
  length : ∀ t ∈ trails, t.states.length = p.tracker.iteration + 1
  advances : ∀ t ∈ trails, t.course.IsChain (Swarm.Particle.Advances m settings)

/-- **Each particle remembers the first of its best states**, and the best state of the swarm is a
state of some particle, with nothing better remembered by any. -/
theorem memories_are_first_bests {P : Option V → Prop} {m : Model γ σ V} (hm : m.Ordered P)
    {settings : Swarm.Settings} {host : Host σ} {w v : World γ σ} {stop : Bool}
    {p : Progress V (Swarm.State V)} (h : Swarm.Visits m settings host w stop p v) :
    ∃ s w₀ legs, (Swarm.start m settings host).exec w = (.ok s, w₀) ∧
      Search.Course host m settings.criteria (Swarm.engine m settings host) (Search.begin s) w₀ legs
        stop p v ∧
      Swarm.Trails m settings s p (Swarm.follow m s legs) ∧
      (∀ t ∈ Swarm.follow m s legs,
        IsFirstBest m.compareCandidates t.states t.particle.best ∧
          m.compare t.particle.best.fitness p.engine.best.fitness ≠ .lt) ∧
      ∃ t ∈ Swarm.follow m s legs, p.engine.best ∈ t.states := by
  obtain ⟨-, s, w₀, hs, hreaches⟩ := h
  obtain ⟨legs, hcourse⟩ := hreaches.course
  obtain ⟨hfollowed, htops⟩ := Swarm.followed_of_course hm hs hcourse
  refine ⟨s, w₀, legs, hs, hcourse, ⟨hfollowed.particles, hfollowed.starts,
    fun t ht => (hfollowed.remembers t ht).length,
    fun t ht => (hfollowed.remembers t ht).advances⟩, fun t ht => ?_, htops.attained⟩
  have hremembers := hfollowed.remembers t ht
  have hmem : t.particle.best ∈ t.states := hremembers.best.mem
  refine ⟨hremembers.best, ?_⟩
  exact (hm.preorder.ne_gt_iff htops.ordered (hremembers.ordered _ hmem)).mp
    (htops.least t ht _ hmem)

/-- The particles of a swarm on the unit interval, after some iterations. -/
theorem memories_are_first_bests_interval :
    ∃ stop p v s w₀ legs, 0 < p.tracker.iteration ∧
      (Swarm.start Interval.model Interval.swarm Interval.host).exec Interval.world = (.ok s, w₀) ∧
      Swarm.Trails Interval.model Interval.swarm s p (Swarm.follow Interval.model s legs) ∧
      (∀ t ∈ Swarm.follow Interval.model s legs,
        IsFirstBest Interval.model.compareCandidates t.states t.particle.best) ∧
      Swarm.Visits Interval.model Interval.swarm Interval.host Interval.world stop p v := by
  obtain ⟨o, v, hrun, hpos⟩ := Interval.swarm_outcome
  obtain ⟨stop, reason, p, hvisits, rfl⟩ := Swarm.visits_of_run hrun
  obtain ⟨s, w₀, legs, hs, -, htrails, hbests, -⟩ :=
    memories_are_first_bests Interval.model_ordered hvisits
  exact ⟨stop, p, v, s, w₀, legs, hpos, hs, htrails, fun t ht => (hbests t ht).1, hvisits⟩

end Metaheuristics
