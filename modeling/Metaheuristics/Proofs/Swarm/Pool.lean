import Metaheuristics.Proofs.Search.Pools
import Metaheuristics.Proofs.Swarm.Best

/-!
# What a swarm compares

The particles' states and memories, the best state and the elite are evaluated candidates wherever
the run of a swarm gets to (`sourced_of_takes`).  A swarm compares them as they are, absent fitness
included.
-/

namespace Metaheuristics.Swarm

variable {γ σ V : Type} {m : Model γ σ V} {settings : Settings} {host : Host σ}

/-- The candidates that some particles stand for: their states, and the best ones so far. -/
def candidates (ps : List (Particle V)) : List (Candidate V) :=
  ps.map (·.snapshot) ++ ps.map (·.best)

/-- The candidates of a swarm. -/
def State.pool (s : State V) : List (Candidate V) := candidates s.particles ++ s.best :: s.elite

theorem mem_candidates {ps : List (Particle V)} {c : Candidate V} :
    c ∈ candidates ps ↔ ∃ p ∈ ps, p.snapshot = c ∨ p.best = c := by
  simp only [candidates, List.mem_append, List.mem_map]
  constructor
  · rintro (⟨p, hp, h⟩ | ⟨p, hp, h⟩)
    · exact ⟨p, hp, Or.inl h⟩
    · exact ⟨p, hp, Or.inr h⟩
  · rintro ⟨p, hp, h | h⟩
    · exact Or.inl ⟨p, hp, h⟩
    · exact Or.inr ⟨p, hp, h⟩

theorem candidates_rank (ps : List (Particle V)) : candidates (rank m ps) ⊆ candidates ps := by
  intro c hc
  obtain ⟨p, hp, h⟩ := mem_candidates.mp hc
  exact mem_candidates.mpr ⟨p, Ranking.mem_sort.mp hp, h⟩

theorem leaders_subset (ps : List (Particle V)) :
    leaders settings (rank m ps) ⊆ candidates ps := by
  intro c hc
  obtain ⟨p, hp, h⟩ := List.mem_map.mp hc
  exact mem_candidates.mpr ⟨p, Ranking.mem_sort.mp (List.mem_of_mem_take hp), Or.inl h⟩

theorem snapshot_of_head {ps : List (Particle V)} {leader : Particle V}
    (h : (rank m ps).head? = some leader) : leader.snapshot ∈ candidates ps :=
  mem_candidates.mpr ⟨leader, Ranking.mem_sort.mp (List.mem_of_head? h), Or.inl rfl⟩

/-- A particle remembers its present state or what it remembered before. -/
theorem Particle.record_best (compare : Option V → Option V → Ordering) (p : Particle V)
    (fitness : Option V) : (p.record compare fitness).best = p.best ∨
      (p.record compare fitness).best = (p.record compare fitness).snapshot := by
  unfold Particle.record
  simp only
  split_ifs
  · exact Or.inr rfl
  · exact Or.inl rfl

theorem ensures_appraise_best (p : Particle V) :
    Run.Ensures (fun _ => True) (appraise m p) fun q => q.best = p.best ∨ q.best = q.snapshot :=
  Run.Ensures.bind (P := fun _ => True)
    (Run.Ensures.tryCall fun _ _ => ⟨trivial, fun _ _ => trivial⟩)
    fun fitness _ => Run.Ensures.pure (p.record_best m.compare fitness)

variable [Random.Source γ]

/-- After a move the particles remember what they or others remembered, or what they have been
evaluated as. -/
theorem memories_of_explore {s : State V} {ps : List (Particle V)} {w w' : World γ σ}
    (h : (explore m settings s).exec w = (.ok ps, w')) :
    ∀ q ∈ ps, q.best ∈ candidates s.particles ∨ q.best = q.snapshot := by
  have hensures : Run.Ensures (fun _ => True) (explore m settings s)
      fun ps => ∀ q ∈ ps, q.best ∈ candidates s.particles ∨ q.best = q.snapshot := by
    refine Run.Ensures.bind (Run.Ensures.mapM fun p _ =>
      Particle.ensures_move m.bounds s.best.position p) fun moved hmoved => ?_
    refine Run.Ensures.mono (Run.Ensures.mapM fun p _ => ensures_appraise_best p)
      fun ps hps q hq => ?_
    obtain ⟨p, hp, hbest⟩ := exists_of_forall₂ hps hq
    obtain ⟨p₀, hp₀, -, hkept, -⟩ := exists_of_forall₂ hmoved hp
    exact hbest.imp_left fun h => mem_candidates.mpr ⟨p₀, hp₀, Or.inr (by rw [h, hkept])⟩
  exact (hensures.of_ok trivial h).2

theorem sourced_engine :
    (engine m.watched settings host.watched).Sourced id State.pool candidates where
  enter _ _ _ henter := by rw [Option.some.inj henter]
  explore _ s w ps v hexplore := by
    obtain ⟨positions, u, hcs, hu⟩ := candidates_of_explore hexplore
    refine ⟨ps.map (·.snapshot), ?_, fun c hc => ?_⟩
    · rw [Model.evaluateAll_eq_ok_evaluated hcs, hu]
    · have hmemories := memories_of_explore hexplore
      rw [List.map_id]
      obtain ⟨q, hq, rfl | rfl⟩ := mem_candidates.mp hc
      · exact List.mem_append_right _ (List.mem_map_of_mem hq)
      · rcases hmemories q hq with hbest | hbest
        · exact List.mem_append_left _ (List.mem_append_left _ hbest)
        · rw [hbest]
          exact List.mem_append_right _ (List.mem_map_of_mem hq)
  absorb s ps w s' better v habsorb := by
    obtain ⟨leader, hleader, -, rfl, rfl⟩ := absorb_eq_ok habsorb
    refine ⟨rfl, List.append_subset.mpr ⟨?_, List.cons_subset.mpr ⟨?_, fun c hc => ?_⟩⟩⟩
    · exact List.Subset.trans (candidates_rank ps) (List.subset_append_right _ _)
    · cases better
      · exact List.mem_append_left _ (List.mem_append_right _ List.mem_cons_self)
      · exact List.mem_append_right _ (snapshot_of_head hleader)
    · rcases Elite.mem_of_mem_refresh hc with hc | hc
      · exact List.mem_append_left _ (List.mem_append_right _ (List.mem_cons_of_mem _ hc))
      · exact List.mem_append_right _ (leaders_subset ps hc)

/-- **The iterations of a run** that begins in the world `w`, up to some position. -/
def Takes (m : Model γ σ V) (settings : Settings) (host : Host σ) (w : World γ σ)
    (legs : List (Leg (State V) (List (Particle V)))) (stop : Bool) (p : Progress V (State V))
    (v : World γ σ) : Prop :=
  settings.check = .ok () ∧ ∃ s v₀, (start m settings host).exec w = (.ok s, v₀) ∧
    Search.Course host m settings.criteria (engine m settings host) (Search.begin s) v₀ legs stop p v

theorem Visits.takes {w : World γ σ} {stop : Bool} {p : Progress V (State V)}
    {v : World γ σ} (h : Visits m settings host w stop p v) :
    ∃ legs, Takes m settings host w legs stop p v := by
  obtain ⟨hcheck, s, v₀, hs, hreaches⟩ := h
  obtain ⟨legs, hlegs⟩ := hreaches.course
  exact ⟨legs, hcheck, s, v₀, hs, hlegs⟩

/-- **What a swarm compares has been evaluated.** -/
theorem sourced_of_takes {w : World γ σ}
    {legs : List (Leg (State V) (List (Particle V)))} {stop : Bool} {p : Progress V (State V)}
    {v : World γ (σ × List (Call V))}
    (h : Takes m.watched settings host.watched w.watched legs stop p v) :
    p.engine.pool ⊆ evaluated v.state.2 ∧
      ∀ leg ∈ legs, leg.compared State.pool candidates ⊆ evaluated v.state.2 := by
  obtain ⟨-, s, v₀, hs, hcourse⟩ := h
  obtain ⟨ps, u, hps, hgather⟩ := Run.bind_eq_ok.mp hs
  obtain ⟨leader, hleader, rfl, rfl⟩ := gather_eq_ok hgather
  obtain ⟨positions, u', u'', -, hcs, hu, hbest⟩ := launched_of_populate hps
  have hstart : candidates ps ⊆ evaluated u.state.2 := by
    intro c hc
    rw [hu, Model.evaluateAll_eq_ok_evaluated hcs]
    obtain ⟨p, hp, rfl | rfl⟩ := mem_candidates.mp hc
    · exact List.mem_append_right _ (List.mem_map_of_mem hp)
    · rw [hbest p hp]
      exact List.mem_append_right _ (List.mem_map_of_mem hp)
  have hpool := hcourse.sourced sourced_engine (by
    rw [List.map_id]
    refine List.append_subset.mpr ⟨List.Subset.trans (candidates_rank ps) hstart, ?_⟩
    exact List.cons_subset.mpr
      ⟨hstart (snapshot_of_head hleader), List.Subset.trans (leaders_subset ps) hstart⟩)
  rwa [List.map_id] at hpool

end Metaheuristics.Swarm
