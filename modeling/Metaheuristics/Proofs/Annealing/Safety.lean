import Metaheuristics.Proofs.Annealing.Moves
import Metaheuristics.Proofs.Annealing.Steps
import Metaheuristics.Proofs.Model.Starts
import Metaheuristics.Proofs.Search.Safety
import Metaheuristics.Proofs.Settings.Checks

/-!
# Chains are safe

The current point of a chain keeps its dimension, whichever coordinates are disturbed and whichever
trials are accepted.  As no more coordinates are disturbed than there are, every sample finds enough
of them, and every drawn index belongs to a coordinate and to a bound (`safe_perturb`).  The points
that an iteration accepts have fitness that the model gives, so that they are sorted like the
candidates at the start.  So a run breaks no agreement, unless the fitness is in no order and the
machine will not sort by it (`safe_run`).
-/

namespace Metaheuristics.Annealing

variable {γ σ V : Type} {A : Violation → Prop} {P : Option V → Prop} {m : Model γ σ V}
  {settings : Settings} {math : Elementary} {host : Host σ} {w : World γ σ} {d : Nat}

/-- **A batch of dimension `d`**, with accepted points whose fitness has the property `P`. -/
structure Batch.Fits (d : Nat) (P : Option V → Prop) (b : Batch V) : Prop where
  current : b.chain.current.position.length = d
  accepted : ∀ c ∈ b.accepted.toList, P c.fitness

/-- **A chain of dimension `d`.** -/
def State.Fits (d : Nat) (s : State V) : Prop := s.chain.current.position.length = d

/-! ## Populations -/

section
variable (hsort : Run.Sortable A P m.compare)
include hsort

theorem safe_gather {cs : List (Candidate V)} (h : Populated (Candidate.Fits d P) cs) :
    Run.Safe A w (gather m settings host cs) (State.Fits d) := by
  refine Run.Safe.bind (h.safe_sort ((hsort.comap Candidate.fitness).mono
    fun _ hc => hc.fitness)) fun sorted _ hsorted => ?_
  refine Run.Safe.bind (hsorted.safe_head _) fun leader _ hleader => ?_
  exact Run.Safe.pure hleader.position

theorem safe_absorb {s : State V} {b : Batch V} (hb : b.Fits d P) :
    Run.Safe A w (absorb m settings host s b) fun (s', _) => s'.Fits d := by
  refine Run.Safe.bind (Run.Safe.sort (hsort.comap Candidate.fitness) hb.accepted)
    fun sorted _ _ => ?_
  refine Run.Safe.bind (Run.Safe.refresh _ _ _ _) fun elite _ _ => ?_
  exact Run.Safe.pure hb.current

theorem safe_start (hm : m.Gives P) (hcheck : settings.check = .ok ())
    (h : m.StartsWell settings.initialAmount w) :
    Run.Safe A w (start m settings host) (State.Fits m.dimension) := by
  obtain ⟨-, -, -, -, -, -, -, -, hpos, -⟩ := Settings.check_eq_ok.mp hcheck
  refine Run.Safe.bind ?_ fun cs _ hcs => safe_gather hsort hcs
  refine Run.Safe.bind (Model.safe_startingPositions h hpos) fun xs _ hxs => ?_
  exact Model.safe_settle hm hxs

end

variable [Random.Source γ]

/-! ## Trials -/

omit [Random.Source γ] in
theorem Batch.Fits.accept {b : Batch V} (hb : b.Fits d P) {p : Point V}
    (hp : p.position.length = d) (hfitness : P (some p.fitness)) (improving : Bool) :
    (b.accept m settings p improving).Fits d P := by
  obtain ⟨haccepted, hcurrent, -⟩ := Batch.accept_eq m settings b p improving
  refine ⟨?_, fun c hc => ?_⟩
  · rwa [hcurrent]
  rw [haccepted, Array.toList_push] at hc
  rcases List.mem_append.mp hc with hc | hc
  · exact hb.accepted c hc
  · rw [List.mem_singleton.mp hc]
    exact hfitness

theorem safe_disturb {bounds : List Bound} (hbounds : bounds.length = d) (step : Float)
    {x : Position} (hx : x.length = d) {i : Nat} (hi : i < d) :
    Run.Safe A w (disturb settings bounds step x i) (·.length = d) := by
  refine Run.Safe.bind (Run.Safe.draw (Random.Yields.any _)) fun factor _ _ => ?_
  have hbound : bounds[i]? = some bounds[i] := List.getElem?_eq_getElem _
  have hcoordinate : x[i]? = some x[i] := List.getElem?_eq_getElem _
  rw [hbound, hcoordinate]
  exact Run.Safe.expect ⟨_, rfl, List.length_set.trans hx⟩

theorem safe_perturb (hamount : settings.disturbanceAmount ≤ d) {bounds : List Bound}
    (hbounds : bounds.length = d) (step : Float) {x : Position} (hx : x.length = d) :
    Run.Safe A w (perturb settings bounds step x) (·.length = d) := by
  unfold perturb
  rw [hx, if_neg (Nat.not_lt.mpr hamount)]
  refine Run.Safe.bind (Run.Safe.draw (Random.sample_lt hamount)) fun indices _ hindices => ?_
  exact Run.Safe.foldlM hx fun y i hi hy _ => safe_disturb hbounds step hy (hindices i hi)

theorem safe_accepts (temperature : Float) (improving : Bool) (current point : V) :
    Run.Safe A w (accepts m math temperature improving current point) fun _ => True := by
  refine Run.Safe.ite (fun _ => Run.Safe.pure trivial) fun _ => ?_
  exact Run.Safe.bind (Run.Safe.draw (Random.Yields.any _)) fun _ _ _ => Run.Safe.pure trivial

theorem safe_trial (hm : m.Gives P) (hamount : settings.disturbanceAmount ≤ d)
    (hbounds : m.bounds.length = d) (temperature : Float) {b : Batch V} (hb : b.Fits d P) :
    Run.Safe A w (trial m settings math temperature b) (Batch.Fits d P) := by
  refine Run.Safe.bind (safe_perturb hamount hbounds _ hb.current) fun x _ hx => ?_
  refine Run.Safe.bind (Model.safe_tryCall_evaluate hm x) fun fitness _ hfitness => ?_
  refine Run.Safe.bind (safe_accepts temperature _ _ _) fun accepted _ _ => Run.Safe.pure ?_
  cases accepted
  · exact hb
  · exact hb.accept (p := ⟨x, m.present fitness⟩) hx (hm.present hfitness) _

theorem safe_trials (hm : m.Gives P) (hamount : settings.disturbanceAmount ≤ d)
    (hbounds : m.bounds.length = d) (temperature : Float) (amount : Nat) {b : Batch V}
    (hb : b.Fits d P) :
    Run.Safe A w (trials m settings math temperature amount b) (Batch.Fits d P) := by
  induction amount generalizing b w with
  | zero => exact Run.Safe.pure hb
  | succ amount ih =>
    exact Run.Safe.bind (safe_trial hm hamount hbounds temperature hb) fun b' _ hb' => ih hb'

/-! ## Runs -/

theorem engine_safe (hm : m.Gives P) (hsort : Run.Sortable A P m.compare)
    (hamount : settings.disturbanceAmount ≤ d) (hbounds : m.bounds.length = d) :
    (engine m settings host).Safe A (State.Fits d) (Batch.Fits d P) where
  enter _ _ _ henter hs := by
    obtain ⟨hchain, -⟩ := cool_eq_some henter
    unfold State.Fits
    rwa [hchain]
  explore _ _ _ hs := safe_trials hm hamount hbounds _ _ ⟨hs, fun _ hc => by cases hc⟩
  absorb _ _ _ _ hb := safe_absorb hsort hb

/-- **A run of annealing** with checked settings is safe after a good start, when it disturbs no
more coordinates than there are. -/
theorem safe_run (hcheck : settings.check = .ok ())
    (hdimension : settings.checkDimension m.dimension = .ok ())
    (h : m.StartsWell settings.initialAmount w) (host : Host σ) (rounds : Nat) (hm : m.Gives P)
    (hsort : Run.Sortable A P m.compare) :
    Run.Safe A w (run m settings host rounds) fun _ => True := by
  refine Run.Safe.require hcheck (Run.Safe.require hdimension ?_)
  refine Run.Safe.bind (safe_start hsort hm hcheck h) fun s _ hs => ?_
  have hamount := Settings.checkDimension_eq_ok.mp hdimension
  exact Search.safe_result (engine_safe hm hsort hamount h.dimension.symm) rounds hs _

/-- **Annealing with a bad start** ends there, after the candidates have been asked for. -/
theorem run_of_startsBadly (hcheck : settings.check = .ok ())
    (hdimension : settings.checkDimension m.dimension = .ok ()) {broken : Violation}
    (h : m.StartsBadly settings.initialAmount w broken) (host : Host σ) (rounds : Nat) :
    (run m settings host rounds).exec w
      = (.error (.violation broken), (m.initial settings.initialAmount w).2) := by
  unfold run
  rw [Run.exec_require hcheck, Run.exec_require hdimension]
  have hstart := Model.exec_startingPositions_of_startsBadly h
  have hpopulate : (populate m settings).exec w = _ := Run.bind_eq_error.mpr (Or.inl hstart)
  exact Run.bind_eq_error.mpr (Or.inl (Run.bind_eq_error.mpr (Or.inl hpopulate)))

end Metaheuristics.Annealing
