import Metaheuristics.Proofs.Model.Ordered
import Metaheuristics.Proofs.Search.Course
import Metaheuristics.Proofs.Swarm.Moves
import Metaheuristics.Proofs.Swarm.Steps

/-!
# Trajectories of particles

A swarm is sorted anew in every iteration, so a particle has no fixed place in it.  A trail is a
particle together with all that it has been (`Trail`).  In an iteration each trail is extended by
what has become of its particle, and the trails are ranked by the same comparison as the particles
(`followLeg`); so the trails end at the particles of the swarm, in their order, and each particle of
the start has one of them (`State.Followed`).

Along a trail the particle remembers the first of its best states, since it adopts a state only when
that is strictly better (`Trail.Remembers.next`).  The best state of the swarm was some particle's,
and no state of any trail is better (`Tops.next`).  All of it holds
wherever a run gets to (`followed_of_course`), by induction on the iterations.
-/

namespace Metaheuristics.Swarm

variable {γ σ V : Type}

/-! ## Trails -/

/-- **A particle with its past.** -/
structure Trail (V : Type) where
  /-- What the particle was at the earlier heads of the loop, the start first. -/
  past : List (Particle V)
  particle : Particle V

namespace Trail

/-- All that the particle has been. -/
def course (t : Trail V) : List (Particle V) := t.past ++ [t.particle]

/-- The states that the particle has been in. -/
def states (t : Trail V) : List (Candidate V) := t.course.map (·.snapshot)

/-- The trail with what has become of its particle. -/
def next (t : Trail V) (p : Particle V) : Trail V := ⟨t.course, p⟩

theorem states_next (t : Trail V) (p : Particle V) :
    (t.next p).states = t.states ++ [p.snapshot] := List.map_append

theorem snapshot_mem (t : Trail V) : t.particle.snapshot ∈ t.states :=
  List.mem_map_of_mem (List.mem_append_right _ (List.mem_singleton_self _))

theorem head?_next (t : Trail V) (p : Particle V) :
    (t.next p).course.head? = t.course.head? := by
  show (t.course ++ [p]).head? = t.course.head?
  have hne : t.course ≠ [] := List.append_ne_nil_of_right_ne_nil _ (List.cons_ne_nil _ _)
  exact List.head?_append_of_ne_nil _ hne

end Trail

/-- **The trails after one more iteration**: the particles have moved, in the order of the trails,
and are ranked. -/
def followLeg (m : Model γ σ V) (trails : List (Trail V))
    (leg : Leg (State V) (List (Particle V))) : List (Trail V) :=
  Ranking.sort (fun t u => m.compare t.particle.fitness u.particle.fitness)
    (List.zipWith Trail.next trails leg.batch)

/-- **The trails of all particles** from the start `s` of a swarm through some iterations. -/
def follow (m : Model γ σ V) (s : State V) (legs : List (Leg (State V) (List (Particle V)))) :
    List (Trail V) :=
  legs.foldl (followLeg m) (s.particles.map (Trail.mk []))

section
variable {m : Model γ σ V} {R : Particle V → Particle V → Prop} {trails : List (Trail V)}
  {leg : Leg (State V) (List (Particle V))}

theorem forall₂_zipWith_next {ps : List (Particle V)}
    (h : List.Forall₂ R (trails.map (·.particle)) ps) :
    List.Forall₂ (fun t u => ∃ p, R t.particle p ∧ u = t.next p) trails
        (List.zipWith Trail.next trails ps) ∧
      (List.zipWith Trail.next trails ps).map (·.particle) = ps := by
  induction trails generalizing ps with
  | nil =>
    cases h
    exact ⟨.nil, rfl⟩
  | cons t trails ih =>
    cases h with
    | cons hp hps =>
      obtain ⟨hnext, hparticles⟩ := ih hps
      exact ⟨.cons ⟨_, hp, rfl⟩ hnext, congrArg (_ :: ·) hparticles⟩

variable (h : List.Forall₂ R (trails.map (·.particle)) leg.batch)
include h

/-- **The trails end at the ranked particles.** -/
theorem particles_followLeg : (followLeg m trails leg).map (·.particle) = rank m leg.batch := by
  have hsort : Ranking.sort (fun p q => m.compare p.fitness q.fitness)
        ((List.zipWith Trail.next trails leg.batch).map (·.particle))
      = (followLeg m trails leg).map (·.particle) :=
    Ranking.sort_map (fun t u => rfl) _
  rw [(forall₂_zipWith_next h).2] at hsort
  exact hsort.symm

theorem exists_of_mem_followLeg {u : Trail V} (hu : u ∈ followLeg m trails leg) :
    ∃ t ∈ trails, ∃ p ∈ leg.batch, R t.particle p ∧ u = t.next p := by
  have hmem := Ranking.mem_sort.mp hu
  obtain ⟨t, ht, p, hR, rfl⟩ := exists_of_forall₂ (forall₂_zipWith_next h).1 hmem
  refine ⟨t, ht, p, ?_, hR, rfl⟩
  rw [← (forall₂_zipWith_next h).2]
  exact List.mem_map_of_mem hmem

theorem next_mem_followLeg {t : Trail V} (ht : t ∈ trails) :
    ∃ p, t.next p ∈ followLeg m trails leg := by
  obtain ⟨u, hu, p, -, rfl⟩ := exists_of_forall₂ (forall₂_zipWith_next h).1.flip ht
  exact ⟨p, Ranking.mem_sort.mpr hu⟩

theorem starts_followLeg : ((followLeg m trails leg).map (·.course.head?)).Perm
    (trails.map (·.course.head?)) := by
  refine ((Ranking.sort_perm _ _).map _).trans ?_
  have hheads : trails.map (·.course.head?)
      = (List.zipWith Trail.next trails leg.batch).map (·.course.head?) := by
    refine List.forall₂_eq_eq_eq ▸ ?_
    refine List.forall₂_map_left_iff.mpr (List.forall₂_map_right_iff.mpr ?_)
    refine (forall₂_zipWith_next h).1.imp ?_
    rintro t - ⟨p, -, rfl⟩
    exact (t.head?_next p).symm
  rw [hheads]

end

/-! ## Iterations of a particle -/

section
variable {P : Option V → Prop} {m : Model γ σ V} {settings : Settings} {host : Host σ}
  [Random.Source γ]

/-- **What becomes of a particle in an iteration**: it moves and is evaluated where it is then. -/
def Particle.Advances (m : Model γ σ V) (settings : Settings) (p q : Particle V) : Prop :=
  ∃ (shared : Position) (moved : Particle V) (u u' v v' : World γ σ),
    (p.move settings m.bounds shared).exec u = (.ok moved, u') ∧
      (appraise m moved).exec v = (.ok q, v')

omit [Random.Source γ] in
/-- A particle remembers the better one of its best state and its present one. -/
theorem Particle.best_record (m : Model γ σ V) (p : Particle V) (fitness : Option V) :
    (p.record m.compare fitness).best
      = preferred m.compareCandidates p.best (p.record m.compare fitness).snapshot := by
  rw [(p.record_eq m.compare fitness).1]
  unfold Particle.record preferred Model.compareCandidates
  simp only [beq_iff_eq]
  split_ifs <;> rfl

theorem Particle.Advances.best {p q : Particle V} (h : p.Advances m settings q) :
    q.best = preferred m.compareCandidates p.best q.snapshot := by
  obtain ⟨shared, moved, u, u', v, v', hmove, happraise⟩ := h
  obtain ⟨-, -, hbest, -⟩ :=
    (Particle.ensures_move (I := fun _ => True) m.bounds shared p).of_ok trivial hmove
  obtain ⟨fitness, -, rfl⟩ := appraise_eq_ok happraise
  rw [Particle.best_record, hbest]

theorem Particle.Advances.ordered (hm : m.Ordered P) {p q : Particle V}
    (h : p.Advances m settings q) : P q.snapshot.fitness := by
  obtain ⟨-, moved, -, -, v, v', -, happraise⟩ := h
  obtain ⟨fitness, hfitness, rfl⟩ := appraise_eq_ok happraise
  rw [(moved.record_eq m.compare fitness).1]
  exact hm.tryCall_evaluate hfitness

/-- An iteration takes every particle on, in their order. -/
theorem advances_of_explore {s : State V} {ps : List (Particle V)} {w w' : World γ σ}
    (h : (explore m settings s).exec w = (.ok ps, w')) :
    List.Forall₂ (Particle.Advances m settings) s.particles ps := by
  obtain ⟨moved, v, hmoved, happraise⟩ := Run.bind_eq_ok.mp h
  have hmoves := Run.forall₂_of_mapM hmoved
  have happraisals := Run.forall₂_of_mapM happraise
  clear hmoved happraise h
  generalize s.particles = before at hmoves
  induction hmoves generalizing ps with
  | nil =>
    cases happraisals
    exact .nil
  | cons hmove _ ih =>
    cases happraisals with
    | cons hq hqs =>
      obtain ⟨u, u', hmove⟩ := hmove
      obtain ⟨v, v', happraise⟩ := hq
      exact .cons ⟨_, _, u, u', v, v', hmove, happraise⟩ (ih hqs)

/-! ## What a particle remembers -/

/-- **A particle on its trail** through `n` iterations: it remembers the first of the best states
that it has been in. -/
structure Trail.Remembers (P : Option V → Prop) (m : Model γ σ V) (settings : Settings) (n : Nat)
    (t : Trail V) : Prop where
  length : t.states.length = n + 1
  advances : t.course.IsChain (Particle.Advances m settings)
  ordered : ∀ c ∈ t.states, P c.fitness
  best : IsFirstBest m.compareCandidates t.states t.particle.best

theorem Trail.Remembers.start {p : Particle V} (hbest : p.best = p.snapshot)
    (hP : P p.snapshot.fitness) : (Trail.mk [] p).Remembers P m settings 0 where
  length := rfl
  advances := List.isChain_singleton p
  ordered c hc := by rwa [List.mem_singleton.mp hc]
  best := by
    rw [hbest]
    exact IsFirstBest.singleton _ _

/-- **One more iteration** of a particle. -/
theorem Trail.Remembers.next (hm : m.Ordered P) {n : Nat} {t : Trail V} {p : Particle V}
    (h : t.Remembers P m settings n) (hp : t.particle.Advances m settings p) :
    (t.next p).Remembers P m settings (n + 1) where
  length := by rw [t.states_next, List.length_append, h.length, List.length_singleton]
  advances := isChain_concat h.advances List.getLast?_concat hp
  ordered c hc := by
    rw [t.states_next] at hc
    rcases List.mem_append.mp hc with hc | hc
    · exact h.ordered c hc
    · rw [List.mem_singleton.mp hc]
      exact hp.ordered hm
  best := by
    rw [t.states_next]
    show IsFirstBest _ _ p.best
    rw [hp.best]
    exact h.best.concat hm.candidates h.ordered (hp.ordered hm)

/-! ## The swarm -/

/-- **The trails of a swarm** whose particles were launched as `launched` and have been through `n`
iterations. -/
structure State.Followed (P : Option V → Prop) (m : Model γ σ V) (settings : Settings)
    (launched : List (Particle V)) (n : Nat) (s : State V) (trails : List (Trail V)) : Prop where
  particles : trails.map (·.particle) = s.particles
  starts : (trails.map (·.course.head?)).Perm (launched.map some)
  remembers : ∀ t ∈ trails, t.Remembers P m settings n

/-- **The best state on some trails.** -/
structure Tops (P : Option V → Prop) (m : Model γ σ V) (best : Candidate V)
    (trails : List (Trail V)) : Prop where
  attained : ∃ t ∈ trails, best ∈ t.states
  ordered : P best.fitness
  least : ∀ t ∈ trails, ∀ c ∈ t.states, m.compareCandidates best c ≠ .gt

omit [Random.Source γ] in
theorem head?_rank_le (hm : m.Ordered P) {ps : List (Particle V)} {leader p : Particle V}
    (hps : ∀ p ∈ ps, P p.snapshot.fitness) (hleader : (rank m ps).head? = some leader)
    (hp : p ∈ ps) : m.compareCandidates leader.snapshot p.snapshot ≠ .gt :=
  Ranking.head?_sort_le (hm.preorder.comap Particle.fitness) hps hleader hp

theorem followed_of_gather (hm : m.Ordered P) {ps : List (Particle V)} {s : State V}
    {w w' : World γ σ} (hps : ∀ p ∈ ps, p.best = p.snapshot ∧ P p.snapshot.fitness)
    (h : (gather m settings host ps).exec w = (.ok s, w')) :
    s.Followed P m settings s.particles 0 (follow m s []) ∧ Tops P m s.best (follow m s []) := by
  obtain ⟨leader, hleader, rfl, rfl⟩ := gather_eq_ok h
  have hranked : ∀ p ∈ rank m ps, p ∈ ps := fun p hp => Ranking.mem_sort.mp hp
  have hmem : leader ∈ rank m ps := List.mem_of_head? hleader
  refine ⟨⟨?_, ?_, fun t ht => ?_⟩, ⟨⟨[], leader⟩, List.mem_map_of_mem hmem, ?_⟩,
    (hps leader (hranked leader hmem)).2, fun t ht c hc => ?_⟩
  · exact (List.map_map ..).trans (List.map_id _)
  · rw [show follow m _ [] = (rank m ps).map (Trail.mk []) from rfl, List.map_map]
    exact List.Perm.refl _
  · obtain ⟨p, hp, rfl⟩ := List.mem_map.mp ht
    exact Trail.Remembers.start (hps p (hranked p hp)).1 (hps p (hranked p hp)).2
  · exact List.mem_singleton_self _
  · obtain ⟨p, hp, rfl⟩ := List.mem_map.mp ht
    rw [List.mem_singleton.mp hc]
    exact head?_rank_le hm (fun p hp => (hps p hp).2) hleader (hranked p hp)

section
variable (hm : m.Ordered P) {trails : List (Trail V)} {leg : Leg (State V) (List (Particle V))}
  {w w' : World γ σ}
  (hadvances : List.Forall₂ (Particle.Advances m settings) (trails.map (·.particle)) leg.batch)
  (habsorb : (absorb m settings host leg.before leg.batch).exec w = (.ok (leg.after, leg.better), w'))
include hm hadvances habsorb

theorem State.Followed.next {launched : List (Particle V)} {n : Nat}
    (h : leg.before.Followed P m settings launched n trails) :
    leg.after.Followed P m settings launched (n + 1) (followLeg m trails leg) := by
  obtain ⟨leader, -, -, hafter, -⟩ := absorb_eq_ok habsorb
  refine ⟨?_, (starts_followLeg hadvances).trans h.starts, fun u hu => ?_⟩
  · rw [particles_followLeg hadvances, hafter]
  · obtain ⟨t, ht, p, -, hp, rfl⟩ := exists_of_mem_followLeg hadvances hu
    exact (h.remembers t ht).next hm hp

/-- The leader or the best state so far is the best state of the extended trails. -/
theorem Tops.next (h : Tops P m leg.before.best trails)
    (htrails : ∀ t ∈ trails, ∀ c ∈ t.states, P c.fitness) :
    Tops P m leg.after.best (followLeg m trails leg) := by
  obtain ⟨leader, hleader, hbetter, hafter, -⟩ := absorb_eq_ok habsorb
  have hbest : leg.after.best
      = preferred m.compareCandidates leg.before.best leader.snapshot := by
    rw [hafter, hbetter]
    exact m.ite_isBetter leg.before.best leader.snapshot
  have hbatch : ∀ p ∈ leg.batch, P p.snapshot.fitness := fun p hp => by
    obtain ⟨p₀, -, hp₀⟩ := exists_of_forall₂ hadvances hp
    exact hp₀.ordered hm
  have hleader' : P leader.snapshot.fitness :=
    hbatch leader (Ranking.mem_sort.mp (List.mem_of_head? hleader))
  obtain ⟨hold, hnew⟩ := preferred_le hm.candidates h.ordered hleader'
  have hordered : P (preferred m.compareCandidates leg.before.best leader.snapshot).fitness :=
    preferred_of (P := fun c : Candidate V => P c.fitness) h.ordered hleader'
  rw [hbest]
  refine ⟨?_, hordered, fun u hu c hc => ?_⟩
  · rcases preferred_cases m.compareCandidates leg.before.best leader.snapshot with heq | heq <;>
      rw [heq]
    · obtain ⟨t, ht, hc⟩ := h.attained
      obtain ⟨p, hu⟩ := next_mem_followLeg hadvances ht
      exact ⟨t.next p, hu, by rw [t.states_next]; exact List.mem_append_left _ hc⟩
    · have hmem : leader ∈ (followLeg m trails leg).map (·.particle) := by
        rw [particles_followLeg hadvances]
        exact List.mem_of_head? hleader
      obtain ⟨t, ht, rfl⟩ := List.mem_map.mp hmem
      exact ⟨t, ht, t.snapshot_mem⟩
  · obtain ⟨t, ht, p, hp, -, rfl⟩ := exists_of_mem_followLeg hadvances hu
    rw [t.states_next] at hc
    rcases List.mem_append.mp hc with hc | hc
    · exact hm.candidates.trans _ _ _ hordered h.ordered (htrails t ht c hc) hold
        (h.least t ht c hc)
    · rw [List.mem_singleton.mp hc]
      exact hm.candidates.trans _ _ _ hordered hleader' (hbatch p hp) hnew
        (head?_rank_le hm hbatch hleader hp)

end

/-- **The particles of a swarm remember the first of their best states, and the swarm the best of
all**, after any number of iterations. -/
theorem followed_of_course (hm : m.Ordered P) {criteria : StopCriteria}
    {s : State V} {w w₀ v : World γ σ} {legs : List (Leg (State V) (List (Particle V)))}
    {stop : Bool} {p : Progress V (State V)} (hs : (start m settings host).exec w = (.ok s, w₀))
    (h : Search.Course host m criteria (engine m settings host) (Search.begin s) w₀ legs stop p v) :
    p.engine.Followed P m settings s.particles p.tracker.iteration (follow m s legs) ∧
      Tops P m p.engine.best (follow m s legs) := by
  induction h with
  | start =>
    obtain ⟨ps, u, hps, hgather⟩ := Run.bind_eq_ok.mp hs
    obtain ⟨positions, u, u', -, hcs, -, hlaunched⟩ := launched_of_populate hps
    exact followed_of_gather hm
      (fun p hp => ⟨hlaunched p hp, hm.evaluateAll hcs _ (List.mem_map_of_mem hp)⟩) hgather
  | @step legs p w s' b v s'' better v' u stop w' _ henters hexplore habsorb _ _ ih =>
    obtain ⟨hfollowed, htops⟩ := ih
    obtain rfl := Option.some.inj (Search.enter_of_verdict henters)
    have hadvances : List.Forall₂ (Particle.Advances m settings)
        ((follow m s legs).map (·.particle)) b := by
      rw [hfollowed.particles]
      exact advances_of_explore hexplore
    rw [follow, List.foldl_concat]
    let leg : Leg (State V) (List (Particle V)) := ⟨p.engine, b, s'', better⟩
    have habsorb : (absorb m settings host leg.before leg.batch).exec v
        = (.ok (leg.after, leg.better), v') := habsorb
    exact ⟨hfollowed.next hm hadvances habsorb,
      htops.next hm hadvances habsorb fun t ht => (hfollowed.remembers t ht).ordered⟩

end

end Metaheuristics.Swarm
