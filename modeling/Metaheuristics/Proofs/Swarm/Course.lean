import Metaheuristics.Proofs.Search.Challenges
import Metaheuristics.Proofs.Search.Endings
import Metaheuristics.Proofs.Search.Pacing
import Metaheuristics.Proofs.Swarm.Best

/-!
# The course of a swarm

How a swarm's run ends (`ends_of_run`), the pace it goes at, which is one evaluation for each
particle (`paced`), and what its iterations do to the best state: the first of the particles, ranked
after their move, challenges it (`challenged_of_course`).
-/

namespace Metaheuristics.Swarm

variable {γ σ V : Type} {m : Model γ σ V} {settings : Settings} [Random.Source γ]

/-- **The end of a run** that begins in the world `w`, with the iterations behind it. -/
def Ends (m : Model γ σ V) (settings : Settings) (host : Host σ) (w : World γ σ)
    (legs : List (Leg (State V) (List (Particle V)))) (reason : StopReason)
    (p : Progress V (State V)) (v : World γ σ) : Prop :=
  settings.check = .ok () ∧ ∃ s v₀, (start m settings host).exec w = (.ok s, v₀) ∧
    Search.Ends host m settings.criteria (engine m settings host) (Search.begin s) v₀ legs reason p v

section
variable {host : Host σ} {rounds : Nat} {w w' : World γ σ}

theorem ends_of_run {o : Outcome V}
    (h : (run m settings host rounds).exec w = (.ok (some o), w')) :
    ∃ legs p, Ends m settings host w legs o.reason p w' ∧ o = outcome o.reason p := by
  obtain ⟨_, _, hrequire, h⟩ := Run.bind_eq_ok.mp h
  obtain ⟨hcheck, rfl⟩ := Run.require_eq_ok.mp hrequire
  obtain ⟨s, v, hs, h⟩ := Run.bind_eq_ok.mp h
  obtain ⟨legs, reason, p, hp, rfl⟩ := Search.ends_of_result h
  exact ⟨legs, p, ⟨hcheck, s, v, hs, hp⟩, rfl⟩

/-- **A run with an iteration limit ends**, if its head may be passed often enough. -/
theorem run_ne_none {n : Nat} (hn : settings.criteria.iterationLimit = some n)
    (hrounds : n + 1 < rounds) : (run m settings host rounds).exec w ≠ (.ok none, w') := by
  intro h
  obtain ⟨_, _, hrequire, h⟩ := Run.bind_eq_ok.mp h
  obtain ⟨-, rfl⟩ := Run.require_eq_ok.mp hrequire
  obtain ⟨s, v, -, h⟩ := Run.bind_eq_ok.mp h
  exact Search.run_ne_none (fun _ _ _ _ hv => Search.iteration_lt_of_limit hn hv) hrounds
    (Search.run_eq_none_of_result h)

end

/-! ## The best state -/

/-- The candidate that challenges the best state after a move. -/
def challengers (m : Model γ σ V) (particles : List (Particle V)) : List (Candidate V) :=
  ((rank m particles).head?.map (·.snapshot)).toList

theorem challenged_of_course {host : Host σ} {criteria : StopCriteria}
    {p₀ p : Progress V (State V)} {w₀ w : World γ σ}
    {legs : List (Leg (State V) (List (Particle V)))} {stop : Bool}
    (h : Search.Course host m criteria (engine m settings host) p₀ w₀ legs stop p w) :
    ∀ leg ∈ legs, leg.Challenged m State.best (challengers m) := by
  refine h.forall_legs fun legs p w s b v s' better v' _ henter _ habsorb => ?_
  obtain rfl := Option.some.inj henter
  obtain ⟨leader, hleader, rfl, rfl, rfl⟩ := absorb_eq_ok habsorb
  have hchallengers : challengers m b = [leader.snapshot] := by
    rw [challengers, hleader]
    rfl
  unfold Leg.Challenged
  rw [hchallengers]
  exact Challenged.single m p.engine.best leader.snapshot

theorem ordered_of_course {P : Option V → Prop} (hm : m.Ordered P) {host : Host σ}
    {criteria : StopCriteria} {p₀ p : Progress V (State V)} {w₀ w : World γ σ}
    {legs : List (Leg (State V) (List (Particle V)))} {stop : Bool}
    (h : Search.Course host m criteria (engine m settings host) p₀ w₀ legs stop p w) :
    ∀ leg ∈ legs, ∀ c ∈ challengers m leg.batch, P c.fitness := by
  refine h.forall_legs fun legs p w s b v s' better v' _ _ hexplore _ c hc => ?_
  obtain ⟨moved, u, -, happraise⟩ := Run.bind_eq_ok.mp hexplore
  obtain ⟨leader, hleader, rfl⟩ := Option.map_eq_some_iff.mp (Option.mem_toList.mp hc)
  have hmem : leader ∈ b := Ranking.mem_sort.mp (List.mem_of_head? hleader)
  exact hm.evaluateAll (mapM_appraise_eq_ok happraise) _ (List.mem_map_of_mem hmem)

section
variable {P : Option V → Prop} {host : Host σ} {w₀ : World γ σ}
  {w : World γ (σ × List (Call V))}

/-- **A new best is another candidate** on a model that orders its fitness. -/
theorem better_iff_of_ends (hm : m.Ordered P)
    {legs : List (Leg (State V) (List (Particle V)))} {reason : StopReason}
    {p : Progress V (State V)}
    (h : Ends m.watched settings host.watched w₀.watched legs reason p w) :
    ∀ leg ∈ legs, leg.better = false ↔ leg.after.best = leg.before.best := by
  obtain ⟨hcheck, s, v₀, hs, hends⟩ := h
  obtain ⟨stop, hcourse⟩ := hends.course
  have hchallenged : ∀ leg ∈ legs, leg.Challenged m State.best (challengers m) :=
    fun leg hleg => (challenged_of_course hcourse leg hleg).of_watched
  have hordered : ∀ leg ∈ legs, P leg.before.best.fitness :=
    hcourse.forall_legs fun _ _ _ _ _ _ _ _ _ hhead _ _ _ =>
      (leads_of_visits hm ⟨hcheck, s, v₀, hs, hhead.reaches⟩).ordered
  intro leg hleg
  exact (hchallenged leg hleg).better_eq_false_iff hm (hordered leg hleg)
    (ordered_of_course hm.watched hcourse leg hleg)

end

/-! ## The pace -/

section
variable {host : Host σ} {w w' : World γ (σ × List (Call V))}

theorem evaluates_start {s : State V}
    (h : (start m.watched settings host.watched).exec w = (.ok s, w')) :
    Evaluates settings.particleAmount w w' ∧ s.particles.length = settings.particleAmount := by
  obtain ⟨particles, v, hparticles, hgather⟩ := Run.bind_eq_ok.mp h
  obtain ⟨leader, -, rfl, rfl⟩ := gather_eq_ok hgather
  refine ⟨?_, (Ranking.length_sort _ _).trans (length_of_populate hparticles)⟩
  obtain ⟨positions, u, hpositions, hpopulate⟩ := Run.bind_eq_ok.mp hparticles
  obtain ⟨cs, u', hcs, hlaunch⟩ := Run.bind_eq_ok.mp hpopulate
  have hstate : v.state = u'.state := Run.Ensures.state_eq
    (fun I => Run.Ensures.mapM fun c _ => ensures_launch m.watched c) hlaunch
  have hamount := (Model.startingPositions_eq_ok hpositions).2.1
  have hlaunches : Evaluates 0 u' v := Evaluates.of_calls_eq (by rw [hstate])
  have hevaluates := (Evaluates.startingPositions hpositions).trans
    ((Evaluates.evaluateAll hcs).trans hlaunches)
  rwa [hamount, Nat.zero_add] at hevaluates

theorem paced : (engine m.watched settings host.watched).Paced
    (fun s => s.particles.length = settings.particleAmount) settings.particleAmount where
  enter _ s s' henter hs := by rwa [← Option.some.inj henter]
  lap t s w b v s' better v' hs hexplore habsorb := by
    obtain ⟨leader, -, -, rfl, rfl⟩ := absorb_eq_ok habsorb
    obtain ⟨moved, u, hmoved, happraise⟩ := Run.bind_eq_ok.mp hexplore
    have hlength : moved.length = settings.particleAmount :=
      (Run.length_of_mapM hmoved).trans hs
    have hstate : u.state = w.state := by
      refine Run.Ensures.state_eq (P := fun _ => True) (fun I => ?_) hmoved
      exact Run.Ensures.mono (Run.Ensures.mapM fun p _ =>
        Particle.ensures_move m.watched.bounds s.best.position p) fun _ _ => trivial
    refine ⟨?_, (Ranking.length_sort _ _).trans ((Run.length_of_mapM happraise).trans hlength)⟩
    have hmoves : Evaluates 0 w u := Evaluates.of_calls_eq (by rw [hstate])
    have hevaluates := hmoves.trans
      (Evaluates.evaluateAll (mapM_appraise_eq_ok happraise))
    rwa [List.length_map, hlength, Nat.zero_add] at hevaluates

end

end Metaheuristics.Swarm
