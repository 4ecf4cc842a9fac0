import Metaheuristics.Annealing.Run
import Metaheuristics.Proofs.Model.Results
import Metaheuristics.Proofs.Population.Merging
import Metaheuristics.Proofs.Search.Reach

/-!
# Steps of annealing

What the parts of an annealing run yield: the candidates and the state at the start, one trial, and
the outcome (`length_of_populate`, `gather_eq_ok`, `trial_eq_ok`, `absorb_cases`, `visits_of_run`).
-/

namespace Metaheuristics.Annealing

variable {γ σ V : Type} {m : Model γ σ V} {settings : Settings} {host : Host σ} {w w' : World γ σ}

theorem gather_eq_ok {candidates : List (Candidate V)} {s : State V}
    (h : (gather m settings host candidates).exec w = (.ok s, w')) :
    ∃ leader, (Ranking.sort m.compareCandidates candidates).head? = some leader ∧
      s = ⟨⟨⟨leader.position, m.present leader.fitness⟩,
          ⟨leader.position, m.present leader.fitness⟩, settings.step, 0, 0⟩,
        (Ranking.sort m.compareCandidates candidates).take settings.solutionAmount,
        .start settings.initialTemperature settings.gradient, settings.initialTemperature⟩ ∧
      w = w' := by
  obtain ⟨sorted, v, hsorted, h⟩ := Run.bind_eq_ok.mp h
  obtain ⟨rfl, rfl⟩ := Run.sort_eq_ok hsorted
  obtain ⟨leader, v', hleader, h⟩ := Run.bind_eq_ok.mp h
  obtain ⟨hhead, rfl⟩ := Run.expect_eq_ok.mp hleader
  obtain ⟨rfl, rfl⟩ := Run.pure_eq_ok.mp h
  exact ⟨leader, hhead, rfl, rfl⟩

/-- **The state that has taken in a batch**: its chain, and its accepted points into the elite. -/
def State.absorbed (m : Model γ σ V) (settings : Settings) (s : State V) (batch : Batch V) :
    State V :=
  { s with
    chain := batch.chain
    elite := Elite.refresh m.compareCandidates s.elite
      ((Ranking.sort m.compareCandidates batch.accepted.toList).take settings.solutionAmount)
      settings.solutionAmount }

/-- A batch is taken in, unless the machine refuses to sort its accepted points. -/
theorem absorb_cases (m : Model γ σ V) (settings : Settings) (host : Host σ) (s : State V)
    (batch : Batch V) (w : World γ σ) :
    (absorb m settings host s batch).exec w
        = (.error (.violation .unorderedComparison), w) ∨
      (absorb m settings host s batch).exec w
        = (.ok (s.absorbed m settings batch, batch.better), w) := by
  rcases hsorted : host.sorting.sort? m.compareCandidates batch.accepted.toList with _ | sorted
  · left
    unfold absorb Host.sort
    rw [hsorted]
    rfl
  · right
    obtain rfl := Sorting.eq_of_sort? hsorted
    refine Run.bind_eq_ok.mpr ⟨_, w, Run.expect_eq_ok.mpr ⟨hsorted, rfl⟩, ?_⟩
    exact Run.bind_eq_ok.mpr ⟨_, w, Run.expect_eq_ok.mpr ⟨Elite.refresh?_eq _ _ _ _, rfl⟩, rfl⟩

theorem absorb_eq_ok {s s' : State V} {batch : Batch V} {better : Bool}
    (h : (absorb m settings host s batch).exec w = (.ok (s', better), w')) :
    better = batch.better ∧ s' = s.absorbed m settings batch ∧ w = w' := by
  rcases absorb_cases m settings host s batch w with hrefused | hok
  · rw [hrefused] at h
    cases h
  · rw [hok] at h
    cases h
    exact ⟨rfl, rfl, rfl⟩

theorem length_of_populate {candidates : List (Candidate V)}
    (h : (populate m settings).exec w = (.ok candidates, w')) :
    candidates.length = settings.initialAmount := by
  obtain ⟨positions, v, hpositions, h⟩ := Run.bind_eq_ok.mp h
  rw [Model.length_of_settle h, (Model.startingPositions_eq_ok hpositions).2.1]

/-- The state at the head differs from the one in which an iteration begins in its temperature only.
-/
theorem cool_eq_some {k : Nat} {s s' : State V} (h : cool settings k s = some s') :
    s'.chain = s.chain ∧ s'.elite = s.elite := by
  unfold cool at h
  simp only at h
  split_ifs at h
  obtain rfl := Option.some.inj h
  exact ⟨rfl, rfl⟩

/-- A batch that accepts a point has it as the current one, and where it is better, as the best
one. -/
theorem Batch.accept_eq (m : Model γ σ V) (settings : Settings) (b : Batch V) (p : Point V)
    (improving : Bool) :
    (b.accept m settings p improving).accepted = b.accepted.push p.toCandidate ∧
      (b.accept m settings p improving).chain.current = p ∧
      (b.accept m settings p improving).chain.best.toCandidate
        = preferred m.compareCandidates b.chain.best.toCandidate p.toCandidate := by
  refine ⟨rfl, ?_, ?_⟩
  · simp only [Batch.accept, Chain.accept]
    split_ifs <;> rfl
  · simp only [Batch.accept, Chain.accept, preferred, Model.isBetter, Model.compareCandidates]
    by_cases hlt : m.compare (some p.fitness) (some b.chain.best.fitness) = .lt <;>
      simp [hlt, Point.toCandidate]

variable [Random.Source γ]

theorem trial_eq_ok {math : Elementary} {temperature : Float} {b b' : Batch V}
    (h : (trial m settings math temperature b).exec w = (.ok b', w')) :
    ∃ x v fitness v' accepted,
      (perturb settings m.bounds b.chain.step b.chain.current.position).exec w = (.ok x, v) ∧
      (Run.tryCall (m.evaluate x)).exec v = (.ok fitness, v') ∧
      (accepts m math temperature
        (m.isBetter (some (m.present fitness)) (some b.chain.current.fitness))
        b.chain.current.fitness (m.present fitness)).exec v' = (.ok accepted, w') ∧
      b' = if accepted then b.accept m settings ⟨x, m.present fitness⟩
          (m.isBetter (some (m.present fitness)) (some b.chain.current.fitness)) else b := by
  obtain ⟨x, v, hx, h⟩ := Run.bind_eq_ok.mp h
  obtain ⟨fitness, v', hfitness, h⟩ := Run.bind_eq_ok.mp h
  obtain ⟨accepted, v'', haccepted, h⟩ := Run.bind_eq_ok.mp h
  obtain ⟨rfl, rfl⟩ := Run.pure_eq_ok.mp h
  exact ⟨x, v, fitness, v', accepted, hx, hfitness, haccepted, rfl⟩

/-- **The positions of the loop in a run** that begins in the world `w`. -/
def Visits (m : Model γ σ V) (settings : Settings) (host : Host σ) (w : World γ σ) (stop : Bool)
    (p : Progress V (State V)) (v : World γ σ) : Prop :=
  settings.check = .ok () ∧ settings.checkDimension m.dimension = .ok () ∧
    ∃ s v₀, (start m settings host).exec w = (.ok s, v₀) ∧
      Search.Reaches host m settings.criteria (engine m settings host) (Search.begin s) v₀
        stop p v

theorem visits_of_run {rounds : Nat} {o : Outcome V}
    (h : (run m settings host rounds).exec w = (.ok (some o), w')) :
    ∃ stop reason p, Visits m settings host w stop p w' ∧ o = outcome reason p := by
  obtain ⟨_, _, hrequire, h⟩ := Run.bind_eq_ok.mp h
  obtain ⟨hcheck, rfl⟩ := Run.require_eq_ok.mp hrequire
  obtain ⟨_, _, hrequire', h⟩ := Run.bind_eq_ok.mp h
  obtain ⟨hdimension, rfl⟩ := Run.require_eq_ok.mp hrequire'
  obtain ⟨s, v, hs, h⟩ := Run.bind_eq_ok.mp h
  obtain ⟨stop, reason, p, hp, rfl⟩ := Search.reaches_of_result h
  exact ⟨stop, reason, p, ⟨hcheck, hdimension, s, v, hs, hp⟩, rfl⟩

end Metaheuristics.Annealing
