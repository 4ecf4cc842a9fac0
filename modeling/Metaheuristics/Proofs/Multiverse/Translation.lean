import Metaheuristics.Proofs.Multiverse.Steps
import Metaheuristics.Proofs.Search.Translation

/-!
# Translations of multiverses

The run of a multiverse on a translated model is the translation of its run (`translates_run`).
-/

namespace Metaheuristics.Multiverse

variable {γ σ τ V U : Type}

/-- A multiverse with its fitness read through `f`. -/
def State.map (f : V → U) (s : State V) : State U :=
  ⟨s.universes.map (Candidate.map f), s.best.map f, s.elite.map (Candidate.map f)⟩

theorem State.map_id (s : State V) : s.map id = s := by
  rw [State.map, Candidate.map_id, Candidate.map_map_id, Candidate.map_map_id]

/-- A passage with its fitness read through `f`. -/
def Passage.map (f : V → U) (p : Passage V) : Passage U :=
  ⟨p.universes.map (Candidate.map f), p.rates, p.wormholeProbability, p.travelDistance⟩

variable {view : σ → τ} {f : V → U} {m : Model γ σ V} {n : Model γ τ U} {host : Host σ}
  {host' : Host τ} (settings : Settings) (math : Elementary)

section
variable (hm : m.Translates view f n)
include hm

theorem score_map (u : Candidate V) : score n (u.map f) = score m u := by
  obtain ⟨position, _ | fitness⟩ := u
  · rfl
  · exact hm.score fitness

theorem passage_map (progress : Float) (s : State V) :
    passage n settings math progress (s.map f) = (passage m settings math progress s).map f := by
  have hscores : (s.universes.map (Candidate.map f)).map (score n) = s.universes.map (score m) := by
    rw [List.map_map]
    exact List.map_congr_left fun u _ => score_map hm u
  simp only [passage, Passage.map, State.map, hscores]

theorem translates_populate :
    Run.Translates view (List.map (Candidate.map f)) (populate m settings)
      (populate n settings) :=
  Run.Translates.bind_id (hm.startingPositions _) hm.settle

theorem translates_gather (hh : host.Translates view host') (us : List (Candidate V)) :
    Run.Translates view (State.map f) (gather m settings host us)
      (gather n settings host' (us.map (Candidate.map f))) := by
  refine Run.Translates.bind (hh.sort hm.compareCandidates us) fun us => ?_
  refine Run.Translates.bind (Run.Translates.expect _ List.head?_map) fun best => ?_
  refine Run.Translates.pure ?_
  rw [State.map, List.map_take]

theorem translates_start (hh : host.Translates view host') :
    Run.Translates view (State.map f) (start m settings host) (start n settings host') :=
  Run.Translates.bind (translates_populate settings hm) (translates_gather settings hm hh)

theorem translates_absorb (hh : host.Translates view host') (s : State V)
    (us : List (Candidate V)) :
    Run.Translates view (Prod.map (State.map f) id) (absorb m settings host s us)
      (absorb n settings host' (s.map f) (us.map (Candidate.map f))) := by
  refine Run.Translates.bind (hh.sort hm.compareCandidates us) fun us => ?_
  refine Run.Translates.bind (Run.Translates.expect _ List.head?_map) fun leader => ?_
  have helite := Elite.refresh?_map hm.compareCandidates s.elite (us.take settings.solutionAmount)
    settings.solutionAmount
  rw [List.map_take] at helite
  refine Run.Translates.bind (Run.Translates.expect _ helite) fun elite => Run.Translates.pure ?_
  have hbetter : n.isBetter (leader.map f).fitness (s.map f).best.fitness
      = m.isBetter leader.fitness s.best.fitness := hm.isBetter _ _
  rw [hbetter]
  simp only [Prod.map, State.map, id]
  split_ifs <;> rfl

end

/-! ## Moves -/

variable [Random.Source γ]

theorem translates_whiteHole (p : Passage V) (axis : Axis) :
    Run.Translates (γ := γ) view id (whiteHole settings math p axis)
      (whiteHole settings math (p.map f) axis) := by
  refine Run.Translates.bind_id
    (Run.Translates.tryDraw (settings.selection.select math p.rates)) fun i => ?_
  refine Run.Translates.expect _ ?_
  rw [Option.map_id, id, Passage.map, List.getElem?_map]
  cases p.universes[i]? <;> rfl

theorem translates_wormhole (p : Passage V) (axis : Axis) :
    Run.Translates (γ := γ) view id (wormhole p axis) (wormhole (p.map f) axis) := by
  refine Run.Translates.bind_id (Run.Translates.draw _) fun r₁ => ?_
  refine Run.Translates.bind_id (Run.Translates.draw _) fun r₂ => ?_
  exact Run.Translates.pure rfl

theorem Axis.translates_inherit (p : Passage V) (rate : Float) (axis : Axis) :
    Run.Translates (γ := γ) view id (axis.inherit settings math p rate)
      (axis.inherit settings math (p.map f) rate) := by
  refine Run.Translates.bind_id (Run.Translates.draw _) fun inflation => ?_
  exact Run.Translates.ite (translates_whiteHole settings math p axis) (Run.Translates.pure rfl)

theorem Axis.translates_travel (p : Passage V) (inherited : Float) (axis : Axis) :
    Run.Translates (γ := γ) view id (axis.travel p inherited)
      (axis.travel (p.map f) inherited) := by
  refine Run.Translates.bind_id (Run.Translates.draw _) fun existence => ?_
  exact Run.Translates.ite (translates_wormhole p axis) (Run.Translates.pure rfl)

theorem Axis.translates_move (p : Passage V) (rate : Float) (axis : Axis) :
    Run.Translates (γ := γ) view id (axis.move settings math p rate)
      (axis.move settings math (p.map f) rate) := by
  refine Run.Translates.bind_id (translates_inherit settings math p rate axis) fun inherited => ?_
  refine Run.Translates.bind_id (translates_travel p inherited axis) fun value => ?_
  exact Run.Translates.pure rfl

theorem translates_transform (bounds : List Bound) (p : Passage V) (best : Position)
    (u : Candidate V) (rate : Float) :
    Run.Translates (γ := γ) view id (transform settings math bounds p best u rate)
      (transform settings math bounds (p.map f) best (u.map f) rate) := by
  refine Run.Translates.bind_id (Run.Translates.expect _ (by rw [Option.map_id]; rfl))
    fun axes => ?_
  exact Run.Translates.mapM_id (Axis.translates_move settings math p rate) axes

theorem translates_transformAt (bounds : List Bound) (p : Passage V) (best : Position)
    (u : Candidate V) (i : Nat) :
    Run.Translates (γ := γ) view id (transformAt settings math bounds p best u i)
      (transformAt settings math bounds (p.map f) best (u.map f) i) :=
  Run.Translates.bind_id (Run.Translates.expect _ (by rw [Option.map_id]; rfl)) fun rate =>
    translates_transform settings math bounds p best u rate

/-! ## Runs -/

section
variable (hm : m.Translates view f n)
include hm

theorem translates_explore (progress : Float) (s : State V) :
    Run.Translates view (List.map (Candidate.map f)) (explore m settings math progress s)
      (explore n settings math progress (s.map f)) := by
  unfold explore
  simp only [passage_map settings math hm, hm.bounds]
  have hnumbered : (s.map f).universes.zipIdx
      = s.universes.zipIdx.map (Prod.map (Candidate.map f) id) := List.zipIdx_map
  rw [hnumbered]
  refine Run.Translates.bind_id (Run.Translates.mapM_map (fun x => ?_) _) hm.settle
  exact translates_transformAt settings math m.bounds _ s.best.position x.1 x.2

theorem translates_engine (hh : host.Translates view host') :
    Engine.Translates view f (State.map f) (List.map (Candidate.map f)) (engine m settings host)
      (engine n settings host') where
  enter _ _ := rfl
  explore t s := Run.Translates.get fun w => by
    rw [show host'.elapsed (w.through view).state = host.elapsed w.state from hh.elapsed w.state,
      hh.math]
    exact translates_explore settings host.math hm _ s
  absorb := translates_absorb settings hm hh
  best _ := rfl

/-- **The run on a translated model** is the translated run. -/
theorem translates_run (hh : host.Translates view host') (rounds : Nat) :
    Run.Translates view (Option.map (Outcome.map f)) (run m settings host rounds)
      (run n settings host' rounds) := by
  refine Run.Translates.bind_id (Run.Translates.require _) fun _ => ?_
  refine Run.Translates.bind (translates_start settings hm hh) fun s => ?_
  refine Run.Translates.bind
    (Search.translates_run hh hm (translates_engine settings hm hh) rounds s) fun result => ?_
  refine Run.Translates.pure ?_
  rw [Option.map_map, Option.map_map]
  refine congrArg (Option.map · result) (funext fun (reason, p) => ?_)
  simp [outcome, Outcome.map, Progress.map, State.map]

/-- A position of the run on a translated model is a translated position of the run. -/
theorem Visits.of_translates (hh : host.Translates view host') {w : World γ σ} {stop : Bool}
    {q : Progress U (State U)} {u : World γ τ}
    (h : Visits n settings host' (w.through view) stop q u) :
    ∃ p v, Visits m settings host w stop p v ∧ p.map f (State.map f) = q ∧
      v.through view = u := by
  obtain ⟨hcheck, s', u₀, hstart, hreaches⟩ := h
  obtain ⟨s, v₀, hs, rfl, rfl⟩ := (translates_start settings hm hh).eq_ok hstart
  rw [← Search.begin_map] at hreaches
  obtain ⟨p, v, hp, hq, hu⟩ :=
    Search.Reaches.of_translates hh hm (translates_engine settings hm hh) hreaches
  exact ⟨p, v, ⟨hcheck, s, v₀, hs, hp⟩, hq, hu⟩

end

end Metaheuristics.Multiverse
