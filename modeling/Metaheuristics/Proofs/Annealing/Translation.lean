import Metaheuristics.Proofs.Annealing.Steps
import Metaheuristics.Proofs.Search.Translation

/-!
# Translations of annealing

The run of annealing on a translated model is the translation of its run (`translates_run`).
-/

namespace Metaheuristics.Annealing

variable {γ σ τ V U : Type}

/-- A point with its fitness read through `f`. -/
def Point.map (f : V → U) (p : Point V) : Point U := ⟨p.position, f p.fitness⟩

/-- A chain with its fitness read through `f`. -/
def Chain.map (f : V → U) (c : Chain V) : Chain U :=
  ⟨c.current.map f, c.best.map f, c.step, c.acceptedMoves, c.improvingMoves⟩

/-- A batch with its fitness read through `f`. -/
def Batch.map (f : V → U) (b : Batch V) : Batch U :=
  ⟨b.chain.map f, b.accepted.map (Candidate.map f), b.better⟩

/-- The state with its fitness read through `f`. -/
def State.map (f : V → U) (s : State V) : State U :=
  ⟨s.chain.map f, s.elite.map (Candidate.map f), s.cooling, s.temperature⟩

theorem State.map_id (s : State V) : s.map id = s := by
  rw [State.map, Candidate.map_map_id]
  rfl

/-- An outcome with its fitness read through `f`. -/
def Outcome.map (f : V → U) (o : Outcome V) : Outcome U :=
  { o.toOutcome.map f with
    finalTemperature := o.finalTemperature
    finalStep := o.finalStep
    acceptedMoves := o.acceptedMoves
    improvingMoves := o.improvingMoves }

theorem Outcome.map_id (o : Outcome V) : o.map id = o := by
  rw [Outcome.map, Metaheuristics.Outcome.map_id]

variable {view : σ → τ} {f : V → U} {m : Model γ σ V} {n : Model γ τ U} {host : Host σ}
  {host' : Host τ} (settings : Settings) (math : Elementary)

section
variable (hm : m.Translates view f n)
include hm

theorem Chain.accept_map (c : Chain V) (p : Point V) (improving : Bool) :
    (c.map f).accept n settings (p.map f) improving
      = Prod.map (Chain.map f) id (c.accept m settings p improving) := by
  have hbetter : n.isBetter (some (p.map f).fitness) (some (c.map f).best.fitness)
      = m.isBetter (some p.fitness) (some c.best.fitness) :=
    hm.isBetter (some p.fitness) (some c.best.fitness)
  simp only [Chain.accept]
  rw [show (c.map f).best = c.best.map f from rfl] at hbetter
  simp only [Chain.map, hbetter]
  split_ifs <;> rfl

theorem Batch.accept_map (b : Batch V) (p : Point V) (improving : Bool) :
    (b.map f).accept n settings (p.map f) improving = (b.accept m settings p improving).map f := by
  simp only [Batch.accept, Batch.map, Chain.accept_map settings hm, Prod.map, id, Array.map_push]
  rfl

theorem translates_populate :
    Run.Translates view (List.map (Candidate.map f)) (populate m settings)
      (populate n settings) :=
  Run.Translates.bind_id (hm.startingPositions _) hm.settle

section
variable (hh : host.Translates view host')
include hh

theorem translates_gather (cs : List (Candidate V)) :
    Run.Translates view (State.map f) (gather m settings host cs)
      (gather n settings host' (cs.map (Candidate.map f))) := by
  refine Run.Translates.bind (hh.sort hm.compareCandidates cs) fun ranked => ?_
  refine Run.Translates.bind (Run.Translates.expect _ List.head?_map) fun leader => ?_
  refine Run.Translates.pure ?_
  rw [State.map, ← List.map_take, show (leader.map f).fitness = leader.fitness.map f from rfl,
    hm.present]
  rfl

theorem translates_absorb (s : State V) (b : Batch V) :
    Run.Translates view (Prod.map (State.map f) id) (absorb m settings host s b)
      (absorb n settings host' (s.map f) (b.map f)) := by
  have haccepted : (b.map f).accepted.toList = b.accepted.toList.map (Candidate.map f) :=
    Array.toList_map
  unfold absorb
  rw [haccepted]
  refine Run.Translates.bind (hh.sort hm.compareCandidates _) fun ranked => ?_
  rw [← List.map_take]
  refine Run.Translates.bind (Run.Translates.expect _ (Elite.refresh?_map hm.compareCandidates
    s.elite (ranked.take settings.solutionAmount) settings.solutionAmount)) fun elite => ?_
  exact Run.Translates.pure rfl

theorem translates_start :
    Run.Translates view (State.map f) (start m settings host) (start n settings host') :=
  Run.Translates.bind (translates_populate settings hm) (translates_gather settings hm hh)

end

end

theorem cool_map (iteration : Nat) (s : State V) :
    cool settings iteration (s.map f) = (cool settings iteration s).map (State.map f) := by
  by_cases hfloor : (s.cooling.temperature iteration).1 ≤ settings.finalTemperature
  · rw [show cool settings iteration s = none from if_pos hfloor]
    exact if_pos hfloor
  · rw [show cool settings iteration s = some _ from if_neg hfloor]
    exact if_neg hfloor

/-! ## Trials -/

variable [Random.Source γ]

theorem translates_disturb (bounds : List Bound) (step : Float) (position : Position)
    (index : Nat) :
    Run.Translates (γ := γ) view id (disturb settings bounds step position index)
      (disturb settings bounds step position index) := by
  refine Run.Translates.bind_id (Run.Translates.draw _) fun factor => ?_
  exact Run.Translates.expect _ (by rw [Option.map_id]; rfl)

theorem translates_perturb (bounds : List Bound) (step : Float) (position : Position) :
    Run.Translates (γ := γ) view id (perturb settings bounds step position)
      (perturb settings bounds step position) := by
  refine Run.Translates.ite (Run.Translates.violate _) ?_
  refine Run.Translates.bind_id (Run.Translates.draw _) fun indices => ?_
  exact Run.Translates.foldlM_id (translates_disturb settings bounds step) indices position

section
variable (hm : m.Translates view f n)
include hm

theorem translates_accepts (temperature : Float) (improving : Bool) (current point : V) :
    Run.Translates view id (accepts m math temperature improving current point)
      (accepts n math temperature improving (f current) (f point)) := by
  refine Run.Translates.ite (Run.Translates.pure rfl) ?_
  unfold tolerates
  rw [hm.distance]
  refine Run.Translates.bind_id (Run.Translates.draw _) fun r => ?_
  exact Run.Translates.pure rfl

theorem translates_trial (temperature : Float) (b : Batch V) :
    Run.Translates view (Batch.map f) (trial m settings math temperature b)
      (trial n settings math temperature (b.map f)) := by
  unfold trial
  rw [hm.bounds]
  refine Run.Translates.bind_id (translates_perturb settings _ _ _) fun position => ?_
  refine Run.Translates.bind (Run.Translates.tryCall (hm.evaluate position)) fun fitness => ?_
  rw [hm.present]
  have himproving : n.isBetter (some (f (m.present fitness))) (some (b.map f).chain.current.fitness)
      = m.isBetter (some (m.present fitness)) (some b.chain.current.fitness) :=
    hm.isBetter (some (m.present fitness)) (some b.chain.current.fitness)
  simp only [himproving]
  refine Run.Translates.bind_id (translates_accepts math hm temperature _ _ _) fun accepted => ?_
  refine Run.Translates.pure ?_
  have haccept := Batch.accept_map settings hm b ⟨position, m.present fitness⟩
    (m.isBetter (some (m.present fitness)) (some b.chain.current.fitness))
  cases accepted
  · rfl
  · exact haccept

theorem translates_trials (temperature : Float) (amount : Nat) (b : Batch V) :
    Run.Translates view (Batch.map f) (trials m settings math temperature amount b)
      (trials n settings math temperature amount (b.map f)) := by
  induction amount generalizing b with
  | zero => exact Run.Translates.pure rfl
  | succ amount ih =>
    exact Run.Translates.bind (translates_trial settings math hm temperature b) ih

/-! ## Runs -/

theorem translates_explore (s : State V) :
    Run.Translates view (Batch.map f) (explore m settings math s)
      (explore n settings math (s.map f)) := by
  have hbegin : Batch.map f ⟨s.chain, #[], false⟩ = ⟨s.chain.map f, #[], false⟩ := by
    rw [Batch.map, Array.map_empty]
  unfold explore
  rw [show (s.map f).chain = s.chain.map f from rfl, ← hbegin]
  exact translates_trials settings math hm s.temperature settings.markovLength _

theorem translates_engine (hh : host.Translates view host') :
    Engine.Translates view f (State.map f) (Batch.map f) (engine m settings host)
      (engine n settings host') where
  enter k s := cool_map settings k s
  explore _ s := by
    show Run.Translates view _ (explore m settings host.math s) (explore n settings host'.math _)
    rw [hh.math]
    exact translates_explore settings host.math hm s
  absorb := translates_absorb settings hm hh
  best _ := rfl

/-- **The run on a translated model** is the translated run. -/
theorem translates_run (hh : host.Translates view host') (rounds : Nat) :
    Run.Translates view (Option.map (Outcome.map f)) (run m settings host rounds)
      (run n settings host' rounds) := by
  unfold run
  rw [hm.dimension]
  refine Run.Translates.bind_id (Run.Translates.require _) fun _ => ?_
  refine Run.Translates.bind_id (Run.Translates.require _) fun _ => ?_
  refine Run.Translates.bind (translates_start settings hm hh) fun s => ?_
  refine Run.Translates.bind
    (Search.translates_run hh hm (translates_engine settings hm hh) rounds s) fun result => ?_
  refine Run.Translates.pure ?_
  rw [Option.map_map, Option.map_map]
  refine congrArg (Option.map · result) (funext fun (reason, p) => ?_)
  simp [outcome, Outcome.map, Metaheuristics.Outcome.map, Progress.map, State.map, Chain.map]

/-- A position of the run on a translated model is a translated position of the run. -/
theorem Visits.of_translates (hh : host.Translates view host') {w : World γ σ} {stop : Bool}
    {q : Progress U (State U)} {u : World γ τ}
    (h : Visits n settings host' (w.through view) stop q u) :
    ∃ p v, Visits m settings host w stop p v ∧ p.map f (State.map f) = q ∧
      v.through view = u := by
  obtain ⟨hcheck, hdimension, s', u₀, hstart, hreaches⟩ := h
  obtain ⟨s, v₀, hs, rfl, rfl⟩ := (translates_start settings hm hh).eq_ok hstart
  rw [← Search.begin_map] at hreaches
  rw [hm.dimension] at hdimension
  obtain ⟨p, v, hp, hq, hu⟩ :=
    Search.Reaches.of_translates hh hm (translates_engine settings hm hh) hreaches
  exact ⟨p, v, ⟨hcheck, hdimension, s, v₀, hs, hp⟩, hq, hu⟩

end

end Metaheuristics.Annealing
