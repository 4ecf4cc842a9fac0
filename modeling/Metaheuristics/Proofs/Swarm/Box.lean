import Metaheuristics.Proofs.Bounds.Confinement
import Metaheuristics.Proofs.Swarm.Moves
import Metaheuristics.Proofs.Swarm.Steps

/-!
# A swarm in its box

The particles of a swarm stay in the box: a move leads into it from wherever the particle is, so an
iteration keeps `State.Inside`.  Hence a run evaluates nothing outside the box and has no solution
outside it (`ensures_run`), and once the particles have moved, their velocities are within the limit
(`limits_of_visits`).
-/

namespace Metaheuristics.Swarm

variable {γ σ V : Type} {I : σ → Prop} {m : Model γ σ V} {settings : Settings}
  {host : Host σ}

/-- Particles in the box. -/
def ParticlesInBox (bounds : List Bound) (particles : List (Particle V)) : Prop :=
  ∀ p ∈ particles, InBox bounds p.position

/-- **A swarm in the box**, with its particles and its elite. -/
structure State.Inside (bounds : List Bound) (s : State V) : Prop where
  particles : ParticlesInBox bounds s.particles
  elite : AllInBox bounds s.elite

theorem ParticlesInBox.sort {bounds : List Bound} {ps : List (Particle V)}
    (h : ParticlesInBox bounds ps) (compare : Particle V → Particle V → Ordering) :
    ParticlesInBox bounds (Ranking.sort compare ps) := fun p hp => h p (Ranking.mem_sort.mp hp)

theorem ParticlesInBox.leaders {bounds : List Bound} {ps : List (Particle V)}
    (h : ParticlesInBox bounds ps) : AllInBox bounds (leaders settings ps) := by
  intro c hc
  obtain ⟨p, hp, rfl⟩ := List.mem_map.mp hc
  exact h p (List.mem_of_mem_take hp)

theorem ensures_gather {ps : List (Particle V)} (hps : ParticlesInBox m.bounds ps) :
    Run.Ensures (γ := γ) I (gather m settings host ps) (State.Inside m.bounds) := by
  refine Run.Ensures.bind (Run.Ensures.sort host _ ps) fun sorted hsorted => ?_
  have hinside : ParticlesInBox m.bounds sorted := hsorted ▸ hps.sort _
  refine Run.Ensures.bind (P := fun _ => True) (Run.Ensures.expect fun _ _ => trivial)
    fun leader _ => ?_
  exact Run.Ensures.pure ⟨hinside, hinside.leaders⟩

theorem ensures_absorb {s : State V} (hs : s.Inside m.bounds) {ps : List (Particle V)}
    (hps : ParticlesInBox m.bounds ps) :
    Run.Ensures (γ := γ) I (absorb m settings host s ps) fun (s', _) => s'.Inside m.bounds := by
  refine Run.Ensures.bind (Run.Ensures.sort host _ ps) fun sorted hsorted => ?_
  have hinside : ParticlesInBox m.bounds sorted := hsorted ▸ hps.sort _
  refine Run.Ensures.bind (P := fun _ => True) (Run.Ensures.expect fun _ _ => trivial)
    fun leader _ => ?_
  refine Run.Ensures.bind (Run.Ensures.refresh _ _ _ _) fun elite helite => ?_
  exact Run.Ensures.pure ⟨hinside, helite ▸ hs.elite.refresh hinside.leaders _ _⟩

theorem ensures_appraise (hm : m.Confined I) {p : Particle V} (hp : InBox m.bounds p.position) :
    Run.Ensures I (appraise m p) fun q => q.position = p.position ∧ q.velocity = p.velocity := by
  refine Run.Ensures.bind (Model.ensures_tryCall_evaluate hm hp) fun fitness _ => ?_
  obtain ⟨hsnapshot, hvelocity⟩ := p.record_eq m.compare fitness
  exact Run.Ensures.pure ⟨congrArg Candidate.position hsnapshot, hvelocity⟩

variable [Random.Source γ]

theorem ensures_populate (hm : m.Confined I) (hinside : m.StartsInside) :
    Run.Ensures I (populate m settings) (ParticlesInBox m.bounds) := by
  refine Run.Ensures.bind (Model.ensures_startingPositions hm hinside _) fun xs hxs => ?_
  refine Run.Ensures.bind (Model.ensures_evaluateAll hm hxs) fun cs hcs => ?_
  refine Run.Ensures.mono (Run.Ensures.mapM fun c _ => ensures_launch m c) fun ps hps p hp => ?_
  obtain ⟨c, hc, hsnapshot, -⟩ := exists_of_forall₂ hps hp
  have hposition : p.position = c.position := congrArg Candidate.position hsnapshot
  exact hposition ▸ hcs c hc

/-- **The particles after a move** are in the box, and their velocities are within the limit. -/
theorem ensures_explore (hm : m.Confined I) {s : State V} (hs : s.Inside m.bounds) :
    Run.Ensures I (explore m settings s) fun ps => ParticlesInBox m.bounds ps ∧
      (0.0 < settings.maxVelocity → ∀ p ∈ ps, ∀ v ∈ p.velocity, settings.Limits v) := by
  refine Run.Ensures.bind (Run.Ensures.mapM fun p _ =>
    Particle.ensures_move m.bounds s.best.position p) fun moved hmoved => ?_
  have hinside : ParticlesInBox m.bounds moved := by
    intro q hq
    obtain ⟨p, hp, -, -, hbox, -⟩ := exists_of_forall₂ hmoved hq
    rwa [(hs.particles p hp).take_length] at hbox
  refine Run.Ensures.mono (Run.Ensures.mapM fun p hp => ensures_appraise hm (hinside p hp))
    fun ps hps => ⟨fun q hq => ?_, fun hpos q hq v hv => ?_⟩
  · obtain ⟨p, hp, hposition, -⟩ := exists_of_forall₂ hps hq
    exact hposition ▸ hinside p hp
  · obtain ⟨p, hp, -, hvelocity⟩ := exists_of_forall₂ hps hq
    obtain ⟨_, -, -, -, -, hlimits⟩ := exists_of_forall₂ hmoved hp
    exact hlimits hpos v (hvelocity ▸ hv)

theorem engine_keeps (hm : m.Confined I) :
    (engine m settings host).Keeps I (State.Inside m.bounds) (ParticlesInBox m.bounds) where
  enter _ _ _ henter hs := Option.some.inj henter ▸ hs
  explore _ _ hs := Run.Ensures.mono (ensures_explore hm hs) fun _ hps => hps.1
  absorb _ _ hs hps := ensures_absorb hs hps

theorem ensures_start (hm : m.Confined I) (hinside : m.StartsInside) :
    Run.Ensures I (start m settings host) (State.Inside m.bounds) :=
  Run.Ensures.bind (ensures_populate hm hinside) fun _ hps => ensures_gather hps

/-- **A run of a swarm** keeps what evaluations in the box keep, and its solutions are in the box.
-/
theorem ensures_run (hm : m.Confined I) (hinside : m.StartsInside) (host : Host σ) (rounds : Nat) :
    Run.Ensures I (run m settings host rounds)
      fun result => ∀ o, result = some o → AllInBox m.bounds o.solutions := by
  refine Run.Ensures.bind (Run.Ensures.require _) fun _ _ => ?_
  refine Run.Ensures.bind (ensures_start hm hinside) fun s hs => ?_
  exact Search.ensures_result hm.toKeeps (engine_keeps hm) rounds hs fun _ _ hp => hp.elite

/-- **Particles that have moved** have their velocities within the limit, wherever a run gets to. -/
theorem limits_of_visits (hinside : m.StartsInside) {host : Host σ} {w w' : World γ σ} {stop : Bool}
    {p : Progress V (State V)} (h : Visits m settings host w stop p w')
    (hp : 0 < p.tracker.iteration) :
    ∀ q ∈ p.engine.particles, ∀ v ∈ q.velocity, settings.Limits v := by
  obtain ⟨hcheck, s, v₀, hs, hreaches⟩ := h
  have hm : m.Confined fun _ => True := Model.confined_true m
  cases hreaches with
  | start => exact absurd hp (Nat.lt_irrefl 0)
  | step hhead henters hiterates =>
    obtain rfl := Option.some.inj (Search.enter_of_verdict henters)
    obtain ⟨ps, u, s', better, u', hexplore, habsorb, rfl, -⟩ := Search.iterate_eq_ok hiterates
    obtain ⟨leader, -, -, rfl, -⟩ := absorb_eq_ok habsorb
    have hbegin := ((ensures_start hm hinside).of_ok trivial hs).2
    have hbox := (hhead.keeps hm.toKeeps (engine_keeps hm) trivial hbegin).2
    have hlimits := ((ensures_explore hm hbox).of_ok trivial hexplore).2.2
    exact fun q hq => hlimits (Settings.maxVelocity_pos hcheck) q (Ranking.mem_sort.mp hq)

end Metaheuristics.Swarm
