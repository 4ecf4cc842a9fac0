import Metaheuristics.Proofs.Model.Starts
import Metaheuristics.Proofs.Multiverse.Steps
import Metaheuristics.Proofs.Multiverse.Moves
import Metaheuristics.Proofs.Random.Selection
import Metaheuristics.Proofs.Search.Safety
import Metaheuristics.Proofs.Settings.Checks

/-!
# Multiverses are safe

In a multiverse of dimension `d` every universe has `d` coordinates, so has the best one, and there
is a universe; the fitness is some that the model gives (`State.Fits`).  A normalization keeps the
number of scores, so there is one rate for each universe (`safe_transformAt`), and a white hole leads
to one of them, and to a coordinate that it has (`safe_whiteHole`).  That holds after a good start
and is kept by every iteration, so that a run breaks no agreement, unless the fitness is in no order
and the machine will not sort by it (`safe_run`).
-/

namespace Metaheuristics.Multiverse

variable {γ σ V : Type} {A : Violation → Prop} {P : Option V → Prop} {m : Model γ σ V}
  {settings : Settings} {math : Elementary} {host : Host σ} {w : World γ σ} {d : Nat}

/-- **A multiverse of dimension `d`**, with fitness that has the property `P`. -/
structure State.Fits (d : Nat) (P : Option V → Prop) (s : State V) : Prop where
  universes : Populated (Candidate.Fits d P) s.universes
  best : s.best.position.length = d

/-- **Moves in dimension `d`**, with one rate for each universe. -/
structure Passage.Fits (d : Nat) (P : Option V → Prop) (passage : Passage V) : Prop where
  universes : Populated (Candidate.Fits d P) passage.universes
  rates : passage.rates.length = passage.universes.length

theorem State.Fits.passage {s : State V} (hs : s.Fits d P) (progress : Float) :
    (passage m settings math progress s).Fits d P := by
  refine ⟨hs.universes, ?_⟩
  show (settings.normalization.normalize _).length = s.universes.length
  rw [Normalization.length_normalize, List.length_map]

/-! ## Populations -/

section
variable (hsort : Run.Sortable A P m.compare)
include hsort

theorem safe_sort {us : List (Candidate V)} (h : Populated (Candidate.Fits d P) us) :
    Run.Safe A w (host.sort m.compareCandidates us) (Populated (Candidate.Fits d P)) :=
  h.safe_sort ((hsort.comap Candidate.fitness).mono fun _ hu => hu.fitness)

theorem safe_gather {us : List (Candidate V)} (h : Populated (Candidate.Fits d P) us) :
    Run.Safe A w (gather m settings host us) (State.Fits d P) := by
  refine Run.Safe.bind (safe_sort hsort h) fun sorted _ hsorted => ?_
  refine Run.Safe.bind (hsorted.safe_head _) fun leader _ hleader => ?_
  exact Run.Safe.pure ⟨hsorted, hleader.position⟩

theorem safe_absorb {s : State V} (hs : s.Fits d P) {us : List (Candidate V)}
    (h : Populated (Candidate.Fits d P) us) :
    Run.Safe A w (absorb m settings host s us) fun (s', _) => s'.Fits d P := by
  refine Run.Safe.bind (safe_sort hsort h) fun sorted _ hsorted => ?_
  refine Run.Safe.bind (hsorted.safe_head _) fun leader _ hleader => ?_
  refine Run.Safe.bind (Run.Safe.refresh _ _ _ _) fun elite _ _ => Run.Safe.pure ⟨hsorted, ?_⟩
  dsimp only
  split
  · exact hleader.position
  · exact hs.best

theorem safe_start (hm : m.Gives P) (hcheck : settings.check = .ok ())
    (h : m.StartsWell settings.universeAmount w) :
    Run.Safe A w (start m settings host) (State.Fits m.dimension P) := by
  obtain ⟨hpos, -⟩ := Settings.check_eq_ok.mp hcheck
  refine Run.Safe.bind ?_ fun us _ hus => safe_gather hsort hus
  refine Run.Safe.bind (Model.safe_startingPositions h hpos) fun xs _ hxs => ?_
  exact Model.safe_settle hm hxs

end

/-! ## Moves -/

/-- The axes of a universe whose lengths fit are numbered below its dimension. -/
theorem Axis.exists_ofLists {i : Nat} {bounds : List Bound} {position best : List Float}
    (hbounds : bounds.length = position.length) (hbest : best.length = position.length) :
    ∃ axes, ofLists i bounds position best = some axes ∧
      ∀ axis ∈ axes, axis.index < i + position.length := by
  induction position generalizing i bounds best with
  | nil => exact ⟨[], by simp [ofLists], fun axis haxis => by cases haxis⟩
  | cons x position ih =>
    obtain _ | ⟨b, bounds⟩ := bounds
    · cases hbounds
    obtain _ | ⟨g, best⟩ := best
    · cases hbest
    obtain ⟨axes, haxes, hindex⟩ := ih (i := i + 1) (Nat.succ.inj hbounds) (Nat.succ.inj hbest)
    refine ⟨_, Option.map_eq_some_iff.mpr ⟨axes, haxes, rfl⟩, fun axis haxis => ?_⟩
    rw [List.length_cons]
    rcases List.mem_cons.mp haxis with rfl | haxis
    · show i < i + (position.length + 1)
      omega
    · have hlt := hindex axis haxis
      omega

variable [Random.Source γ]

theorem safe_whiteHole {passage : Passage V} (hpassage : passage.Fits d P) {axis : Axis}
    (haxis : axis.index < d) :
    Run.Safe A w (whiteHole settings math passage axis) fun _ => True := by
  have hpos : 0 < passage.rates.length := by
    rw [hpassage.rates]
    exact List.length_pos_iff.mpr hpassage.universes.nonempty
  refine Run.Safe.bind (Run.Safe.tryDraw (settings.selection.select_lt math hpos))
    fun i _ hi => Run.Safe.expect ?_
  rw [hpassage.rates] at hi
  have hsource : passage.universes[i].position.length = d :=
    (hpassage.universes.all _ (List.getElem_mem hi)).position
  have hcoordinate : axis.index < passage.universes[i].position.length := hsource ▸ haxis
  refine ⟨passage.universes[i].position[axis.index], ?_, trivial⟩
  exact Option.bind_eq_some_iff.mpr
    ⟨_, List.getElem?_eq_getElem hi, List.getElem?_eq_getElem hcoordinate⟩

theorem Axis.safe_move {passage : Passage V} (hpassage : passage.Fits d P) (rate : Float)
    {axis : Axis} (haxis : axis.index < d) :
    Run.Safe A w (axis.move settings math passage rate) fun _ => True := by
  refine Run.Safe.bind (P := fun _ => True) ?_ fun inherited _ _ => ?_
  · refine Run.Safe.bind (Run.Safe.draw (Random.Yields.any _)) fun inflation _ _ => ?_
    exact Run.Safe.ite (fun _ => safe_whiteHole hpassage haxis) fun _ => Run.Safe.pure trivial
  refine Run.Safe.bind (P := fun _ => True) ?_ fun value _ _ => Run.Safe.pure trivial
  refine Run.Safe.bind (Run.Safe.draw (Random.Yields.any _)) fun existence _ _ => ?_
  refine Run.Safe.ite (fun _ => ?_) fun _ => Run.Safe.pure trivial
  refine Run.Safe.bind (Run.Safe.draw (Random.Yields.any _)) fun r₁ _ _ => ?_
  refine Run.Safe.bind (Run.Safe.draw (Random.Yields.any _)) fun r₂ _ _ => ?_
  exact Run.Safe.pure trivial

theorem safe_transform {passage : Passage V} (hpassage : passage.Fits d P) {bounds : List Bound}
    {best : Position} {u : Candidate V} (rate : Float) (hbounds : bounds.length = d)
    (hbest : best.length = d) (hu : u.position.length = d) :
    Run.Safe A w (transform settings math bounds passage best u rate) (·.length = d) := by
  obtain ⟨axes, haxes, hindex⟩ := Axis.exists_ofLists (i := 0) (hbounds.trans hu.symm)
    (hbest.trans hu.symm)
  rw [Nat.zero_add, hu] at hindex
  have hlength : axes.length = d := by
    have hmap := congrArg List.length (Axis.bounds_of_ofLists haxes)
    rw [List.length_map, List.length_take, hbounds, hu, Nat.min_self] at hmap
    exact hmap
  refine Run.Safe.bind (P := fun axes => (∀ axis ∈ axes, axis.index < d) ∧ axes.length = d)
    (Run.Safe.expect ⟨axes, haxes, hindex, hlength⟩) fun axes _ ⟨hindex, hlength⟩ => ?_
  refine Run.Safe.mono (Run.Safe.mapM fun axis haxis _ =>
    Axis.safe_move hpassage rate (hindex axis haxis)) fun x hx => ?_
  exact hx.length_eq.symm.trans hlength

/-- There is a rate for each universe. -/
theorem safe_transformAt {passage : Passage V} (hpassage : passage.Fits d P) {bounds : List Bound}
    {best : Position} {u : Candidate V} {i : Nat} (hi : i < passage.universes.length)
    (hbounds : bounds.length = d) (hbest : best.length = d) (hu : u.position.length = d) :
    Run.Safe A w (transformAt settings math bounds passage best u i) (·.length = d) := by
  have hrate : passage.rates[i]? = some (passage.rates.get ⟨i, hpassage.rates ▸ hi⟩) :=
    List.getElem?_eq_getElem _
  refine Run.Safe.bind (P := fun _ => True) (Run.Safe.expect ⟨_, hrate, trivial⟩) fun rate _ _ => ?_
  exact safe_transform hpassage rate hbounds hbest hu

/-! ## Iterations and runs -/

theorem safe_explore (hm : m.Gives P) (hbounds : m.bounds.length = d) (progress : Float)
    {s : State V} (hs : s.Fits d P) :
    Run.Safe A w (explore m settings math progress s) (Populated (Candidate.Fits d P)) := by
  have hpassage : (passage m settings math progress s).Fits d P := hs.passage progress
  have hpairs : Populated (fun pair => Candidate.Fits d P pair.1 ∧ pair.2 < s.universes.length)
      s.universes.zipIdx :=
    ⟨fun hnil => hs.universes.nonempty (List.zipIdx_eq_nil_iff.mp hnil),
      fun pair hpair => ⟨hs.universes.all _ (List.fst_mem_of_mem_zipIdx hpair),
        List.snd_lt_of_mem_zipIdx hpair⟩⟩
  refine Run.Safe.bind (hpairs.safe_mapM fun pair _ hpair _ =>
    safe_transformAt hpassage hpair.2 hbounds hs.best hpair.1.position) fun xs _ hxs => ?_
  exact Model.safe_settle hm hxs

theorem engine_safe (hm : m.Gives P) (hsort : Run.Sortable A P m.compare)
    (hbounds : m.bounds.length = d) :
    (engine m settings host).Safe A (State.Fits d P) (Populated (Candidate.Fits d P)) where
  enter _ _ _ henter hs := Option.some.inj henter ▸ hs
  explore _ _ _ hs := Run.Safe.get (safe_explore hm hbounds _ hs)
  absorb _ _ _ hs hus := safe_absorb hsort hs hus

/-- **A run of a multiverse** with checked settings is safe after a good start. -/
theorem safe_run (hcheck : settings.check = .ok ()) (h : m.StartsWell settings.universeAmount w)
    (host : Host σ) (rounds : Nat) (hm : m.Gives P) (hsort : Run.Sortable A P m.compare) :
    Run.Safe A w (run m settings host rounds) fun _ => True := by
  refine Run.Safe.require hcheck ?_
  refine Run.Safe.bind (safe_start hsort hm hcheck h) fun s _ hs => ?_
  exact Search.safe_result (engine_safe hm hsort h.dimension.symm) rounds hs _

/-- **A multiverse with a bad start** ends there, after the candidates have been asked for. -/
theorem run_of_startsBadly (hcheck : settings.check = .ok ()) {broken : Violation}
    (h : m.StartsBadly settings.universeAmount w broken) (host : Host σ) (rounds : Nat) :
    (run m settings host rounds).exec w
      = (.error (.violation broken), (m.initial settings.universeAmount w).2) := by
  unfold run
  rw [Run.exec_require hcheck]
  have hstart := Model.exec_startingPositions_of_startsBadly h
  have hpopulate : (populate m settings).exec w = _ := Run.bind_eq_error.mpr (Or.inl hstart)
  exact Run.bind_eq_error.mpr (Or.inl (Run.bind_eq_error.mpr (Or.inl hpopulate)))

end Metaheuristics.Multiverse
