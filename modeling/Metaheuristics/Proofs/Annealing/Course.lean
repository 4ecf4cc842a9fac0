import Metaheuristics.Proofs.Annealing.Best
import Metaheuristics.Proofs.Search.Challenges
import Metaheuristics.Proofs.Search.Endings
import Metaheuristics.Proofs.Search.Pacing

/-!
# The course of annealing

How a run of annealing ends (`ends_of_run`), the pace it goes at, which is one evaluation for each
trial (`paced`), and what its iterations do to the best point of the chain: every point that is
accepted challenges it (`challenged_of_course`).  The chain tests each of them against the best
point of that moment, and not against the one that the iteration began at.
-/

namespace Metaheuristics.Annealing

variable {γ σ V : Type} {m : Model γ σ V} {settings : Settings}

/-! ## The best point -/

/-- The candidate at the best point of the chain. -/
def State.record (s : State V) : Candidate V := s.chain.best.toCandidate

/-- The points that challenge the best one in an iteration. -/
def challengers (b : Batch V) : List (Candidate V) := b.accepted.toList

/-- **What the trials of an iteration have done to the best point** `b₀` that it began at. -/
def Batch.Challenged (m : Model γ σ V) (b₀ : Candidate V) (b : Batch V) : Prop :=
  Metaheuristics.Challenged m b₀ (challengers b) b.chain.best.toCandidate b.better

theorem Batch.better_accept (b : Batch V) (p : Point V) (improving : Bool) :
    (b.accept m settings p improving).better
      = (b.better || m.isBetter (some p.fitness) (some b.chain.best.fitness)) := by
  simp only [Batch.accept, Chain.accept]
  split_ifs with h <;> simp [h]

theorem Batch.Challenged.accept {b₀ : Candidate V} {b : Batch V} (h : b.Challenged m b₀)
    (p : Point V) (improving : Bool) :
    (b.accept m settings p improving).Challenged m b₀ := by
  obtain ⟨hpush, -, hbest⟩ := Batch.accept_eq m settings b p improving
  unfold Batch.Challenged challengers
  rw [hpush, Array.toList_push, hbest, Batch.better_accept]
  exact Metaheuristics.Challenged.push h p.toCandidate

variable [Random.Source γ]

theorem Batch.Challenged.trials {math : Elementary} {temperature : Float} {w w' : World γ σ}
    {b₀ : Candidate V} {amount : Nat} {b b' : Batch V}
    (h : (Annealing.trials m settings math temperature amount b).exec w = (.ok b', w'))
    (hb : b.Challenged m b₀) : b'.Challenged m b₀ := by
  induction amount generalizing b w with
  | zero =>
    obtain ⟨rfl, rfl⟩ := Run.pure_eq_ok.mp h
    exact hb
  | succ amount ih =>
    obtain ⟨b'', v, htrial, h⟩ := Run.bind_eq_ok.mp h
    obtain ⟨x, v, fitness, v', accepted, -, -, -, rfl⟩ := trial_eq_ok htrial
    refine ih h ?_
    cases accepted
    · exact hb
    · exact hb.accept _ _

/-- **The accepted points of every batch challenge the best one.** -/
theorem challenged_of_course {host : Host σ} {criteria : StopCriteria}
    {p₀ p : Progress V (State V)} {w₀ w : World γ σ} {legs : List (Leg (State V) (Batch V))}
    {stop : Bool}
    (h : Search.Course host m criteria (engine m settings host) p₀ w₀ legs stop p w) :
    ∀ leg ∈ legs, leg.Challenged m State.record challengers := by
  refine h.forall_legs fun legs p w s b v s' better v' _ henter hexplore habsorb => ?_
  obtain ⟨hchain, -⟩ := cool_eq_some henter
  obtain ⟨rfl, rfl, rfl⟩ := absorb_eq_ok habsorb
  have hbegin : (⟨s.chain, #[], false⟩ : Batch V).Challenged m p.engine.record := by
    rw [hchain]
    exact Challenged.nil m p.engine.record
  exact hbegin.trials hexplore

theorem accepted_of_trials {P : Option V → Prop} (hm : m.Ordered P) {math : Elementary}
    {temperature : Float} {w w' : World γ σ} {amount : Nat} {b b' : Batch V}
    (h : (Annealing.trials m settings math temperature amount b).exec w = (.ok b', w'))
    (hb : ∀ c ∈ challengers b, P c.fitness) : ∀ c ∈ challengers b', P c.fitness := by
  induction amount generalizing b w with
  | zero =>
    obtain ⟨rfl, -⟩ := Run.pure_eq_ok.mp h
    exact hb
  | succ amount ih =>
    obtain ⟨b'', u, htrial, h⟩ := Run.bind_eq_ok.mp h
    obtain ⟨x, v, fitness, v', accepted, -, hfitness, -, rfl⟩ := trial_eq_ok htrial
    refine ih h ?_
    cases accepted
    · exact hb
    · intro c hc
      rw [if_pos rfl, challengers, (Batch.accept_eq m settings b _ _).1, Array.toList_push] at hc
      rcases List.mem_append.mp hc with hc | hc
      · exact hb c hc
      · rw [List.mem_singleton.mp hc]
        exact hm.present (hm.tryCall_evaluate hfitness)

theorem ordered_of_course {P : Option V → Prop} (hm : m.Ordered P) {host : Host σ}
    {criteria : StopCriteria} {p₀ p : Progress V (State V)} {w₀ w : World γ σ}
    {legs : List (Leg (State V) (Batch V))} {stop : Bool}
    (h : Search.Course host m criteria (engine m settings host) p₀ w₀ legs stop p w) :
    ∀ leg ∈ legs, ∀ c ∈ challengers leg.batch, P c.fitness := by
  refine h.forall_legs fun legs p w s b v s' better v' _ _ hexplore _ => ?_
  exact accepted_of_trials hm hexplore fun c hc => absurd hc (by simp [challengers])

/-! ## Ends -/

/-- **The end of a run** that begins in the world `w`, with the iterations behind it. -/
def Ends (m : Model γ σ V) (settings : Settings) (host : Host σ) (w : World γ σ)
    (legs : List (Leg (State V) (Batch V))) (reason : StopReason) (p : Progress V (State V))
    (v : World γ σ) : Prop :=
  settings.check = .ok () ∧ settings.checkDimension m.dimension = .ok () ∧
    ∃ s v₀, (start m settings host).exec w = (.ok s, v₀) ∧
      Search.Ends host m settings.criteria (engine m settings host) (Search.begin s) v₀ legs
        reason p v

section
variable {host : Host σ} {rounds : Nat} {w w' : World γ σ}

theorem ends_of_run {o : Outcome V}
    (h : (run m settings host rounds).exec w = (.ok (some o), w')) :
    ∃ legs p, Ends m settings host w legs o.reason p w' ∧ o = outcome o.reason p := by
  obtain ⟨_, _, hrequire, h⟩ := Run.bind_eq_ok.mp h
  obtain ⟨hcheck, rfl⟩ := Run.require_eq_ok.mp hrequire
  obtain ⟨_, _, hrequire', h⟩ := Run.bind_eq_ok.mp h
  obtain ⟨hdimension, rfl⟩ := Run.require_eq_ok.mp hrequire'
  obtain ⟨s, v, hs, h⟩ := Run.bind_eq_ok.mp h
  obtain ⟨legs, reason, p, hp, rfl⟩ := Search.ends_of_result h
  exact ⟨legs, p, ⟨hcheck, hdimension, s, v, hs, hp⟩, rfl⟩

/-- A run ends when the head with the number `bound` is not passed, and its head may be passed
more often than that. -/
theorem run_ne_none_of_bound {bound : Nat}
    (hbound : ∀ s v, (start m settings host).exec w = (.ok s, v) → settings.check = .ok () →
      ∀ q u s', Search.Reaches host m settings.criteria (engine m settings host)
        (Search.begin s) v false q u →
      Search.verdict host settings.criteria (engine m settings host) q u.state = .ok s' →
        q.tracker.iteration < bound)
    (hrounds : bound < rounds) : (run m settings host rounds).exec w ≠ (.ok none, w') := by
  intro h
  obtain ⟨_, _, hrequire, h⟩ := Run.bind_eq_ok.mp h
  obtain ⟨hcheck, rfl⟩ := Run.require_eq_ok.mp hrequire
  obtain ⟨_, _, hrequire', h⟩ := Run.bind_eq_ok.mp h
  obtain ⟨-, rfl⟩ := Run.require_eq_ok.mp hrequire'
  obtain ⟨s, v, hs, h⟩ := Run.bind_eq_ok.mp h
  exact Search.run_ne_none (hbound s v hs hcheck) hrounds (Search.run_eq_none_of_result h)

/-- **A run with an iteration limit ends**, if its head may be passed often enough. -/
theorem run_ne_none {n : Nat} (hn : settings.criteria.iterationLimit = some n)
    (hrounds : n + 1 < rounds) : (run m settings host rounds).exec w ≠ (.ok none, w') :=
  run_ne_none_of_bound (fun _ _ _ _ _ _ _ _ hv => Search.iteration_lt_of_limit hn hv) hrounds

end

section
variable {host : Host σ} {w w' : World γ (σ × List (Call V))}

/-- A new best is another point on a model that orders its fitness. -/
theorem better_iff_of_ends {P : Option V → Prop} (hm : m.Ordered P) {w₀ : World γ σ}
    {legs : List (Leg (State V) (Batch V))} {reason : StopReason} {p : Progress V (State V)}
    (h : Ends m.watched settings host.watched w₀.watched legs reason p w) :
    ∀ leg ∈ legs, leg.better = false ↔ leg.after.record = leg.before.record := by
  obtain ⟨hcheck, hdimension, s, v₀, hs, hends⟩ := h
  obtain ⟨stop, hcourse⟩ := hends.course
  have hchallenged : ∀ leg ∈ legs, leg.Challenged m State.record challengers :=
    fun leg hleg => (challenged_of_course hcourse leg hleg).of_watched
  have hordered : ∀ leg ∈ legs, P leg.before.record.fitness :=
    hcourse.forall_legs fun _ _ _ _ _ _ _ _ _ hhead _ _ _ =>
      (tracks_of_visits hm ⟨hcheck, hdimension, s, v₀, hs, hhead.reaches⟩).leads.ordered
  intro leg hleg
  exact (hchallenged leg hleg).better_eq_false_iff hm (hordered leg hleg)
    (ordered_of_course hm.watched hcourse leg hleg)

/-! ## The pace -/

omit [Random.Source γ] in
theorem evaluates_start {s : State V}
    (h : (start m.watched settings host.watched).exec w = (.ok s, w')) :
    Evaluates settings.initialAmount w w' := by
  obtain ⟨candidates, v, hcandidates, hgather⟩ := Run.bind_eq_ok.mp h
  obtain ⟨leader, -, rfl, rfl⟩ := gather_eq_ok hgather
  obtain ⟨positions, u, hpositions, hsettle⟩ := Run.bind_eq_ok.mp hcandidates
  have hevaluates := (Evaluates.startingPositions hpositions).trans (Evaluates.settle hsettle)
  rwa [(Model.startingPositions_eq_ok hpositions).2.1, Nat.zero_add] at hevaluates

theorem evaluates_trial {math : Elementary} {temperature : Float} {b b' : Batch V}
    (h : (trial m.watched settings math temperature b).exec w = (.ok b', w')) :
    Evaluates 1 w w' := by
  obtain ⟨x, v, fitness, v', accepted, hx, hfitness, haccepted, -⟩ := trial_eq_ok h
  have hstate : v.state = w.state := Run.Ensures.state_eq
    (fun I => ensures_perturb m.bounds b.chain.step b.chain.current.position) hx
  have hstate' : w'.state = v'.state := Run.Ensures.state_eq
    (fun I => ensures_accepts (I := I) m.watched math temperature _ _ _) haccepted
  have hperturb : Evaluates 0 w v := Evaluates.of_calls_eq (by rw [hstate])
  have haccepts : Evaluates 0 v' w' := Evaluates.of_calls_eq (by rw [hstate'])
  exact (hperturb.trans (Evaluates.tryCall hfitness)).trans haccepts

theorem evaluates_trials {math : Elementary} {temperature : Float} {amount : Nat} {b b' : Batch V}
    (h : (trials m.watched settings math temperature amount b).exec w = (.ok b', w')) :
    Evaluates amount w w' := by
  induction amount generalizing b w with
  | zero =>
    obtain ⟨rfl, rfl⟩ := Run.pure_eq_ok.mp h
    exact Evaluates.of_calls_eq rfl
  | succ amount ih =>
    obtain ⟨b'', v, htrial, h⟩ := Run.bind_eq_ok.mp h
    rw [Nat.add_comm]
    exact (evaluates_trial htrial).trans (ih h)

theorem paced :
    (engine m.watched settings host.watched).Paced (fun _ => True) settings.markovLength where
  enter _ _ _ _ _ := trivial
  lap t s w b v s' better v' _ hexplore habsorb := by
    obtain ⟨-, -, rfl⟩ := absorb_eq_ok habsorb
    exact ⟨evaluates_trials hexplore, trivial⟩

end

end Metaheuristics.Annealing
