import Mathlib.Tactic.SplitIfs
import Metaheuristics.Proofs.Model.Translation

/-!
# The calls of a run

A watched model does what the model does and keeps, beside the caller's state, a list of all calls
of its callbacks with their answers (`Model.watched`).  Forgetting the list gives the model back
(`Model.watched_translates`), so the calls of a run are those of the run on the watched model
(`Run.calls`).  `evaluated` reads off them which candidates have been evaluated.
-/

namespace Metaheuristics

variable {γ σ α V : Type}

/-- **A call of a callback** with its answer. -/
inductive Call (V : Type) where
  | feasible (position : Position) (answer : Option Bool)
  | objective (position : Position) (answer : Except EvaluationError (Option V))
  | flush
  | observe (tracker : Tracker) (best : Option V)

namespace Call

/-- The position that a callback was given. -/
def position? : Call V → Option Position
  | feasible x _ => some x
  | objective x _ => some x
  | flush => none
  | observe _ _ => none

/-- The candidate that is known with a call: an objective value, or a position that is not known to
be feasible. -/
def evaluated : Call V → Option (Candidate V)
  | feasible _ (some true) => none
  | feasible x _ => some ⟨x, none⟩
  | objective x (.ok fitness) => some ⟨x, fitness⟩
  | objective _ (.error _) => none
  | flush => none
  | observe _ _ => none

end Call

/-- **The candidates that have been evaluated** by some calls, in their order. -/
def evaluated (calls : List (Call V)) : List (Candidate V) := calls.filterMap Call.evaluated

/-- A callback that notes that it was called. -/
def noted (action : StateM σ α) (call : α → Call V) : StateM (σ × List (Call V)) α := fun s =>
  ((action s.1).1, ((action s.1).2, s.2 ++ [call (action s.1).1]))

/-- **The model with its calls noted.** -/
def Model.watched (m : Model γ σ V) : Model γ (σ × List (Call V)) V where
  order := m.order
  bounds := m.bounds
  objective x := noted (m.objective x) (.objective x)
  dimension := m.dimension
  initial amount w :=
    ((m.initial amount ⟨w.random, w.state.1⟩).1,
      ⟨(m.initial amount ⟨w.random, w.state.1⟩).2.random,
        ((m.initial amount ⟨w.random, w.state.1⟩).2.state, w.state.2)⟩)
  feasible x := noted (m.feasible x) (.feasible x)
  compare := m.compare
  worst := m.worst
  distance := m.distance
  flush := noted m.flush fun _ => .flush
  observe tracker best := noted (m.observe tracker best) fun _ => .observe tracker best

/-- The host of a watched model. -/
def Host.watched (host : Host σ) : Host (σ × List (Call V)) :=
  ⟨fun s => host.elapsed s.1, fun s => host.cancelled s.1, host.math, host.sorting⟩

/-- The world in which a watched run begins. -/
def World.watched (w : World γ σ) : World γ (σ × List (Call V)) := ⟨w.random, (w.state, [])⟩

/-- **The calls of a run** on a watched model. -/
def Run.calls (x : Run γ (σ × List (Call V)) α) (w : World γ σ) : List (Call V) :=
  (x.exec w.watched).2.state.2

theorem Model.watched_translates (m : Model γ σ V) : m.watched.Translates Prod.fst id m where
  bounds := rfl
  dimension := rfl
  compare x y := by rw [Option.map_id_apply, Option.map_id_apply]; rfl
  worst := rfl
  score _ := rfl
  distance _ _ := rfl
  objective x s := by
    rw [show Option.map (id : V → V) = id from Option.map_id, Except.map_id]; rfl
  feasible _ _ := rfl
  initial _ _ := rfl
  flush _ := rfl
  observe _ best _ := by rw [Option.map_id_apply]; rfl

theorem Host.watched_translates (host : Host σ) :
    (host.watched : Host (σ × List (Call V))).Translates Prod.fst host :=
  ⟨fun _ => rfl, fun _ => rfl, rfl, rfl⟩

theorem Run.result_watched {x : Run γ (σ × List (Call V)) (Option α)} {y : Run γ σ (Option α)}
    {f : α → α} (h : Run.Translates Prod.fst (Option.map f) x y) (hf : ∀ a, f a = a)
    (w : World γ σ) : (x.exec w.watched).1 = (y.exec w).1 := by
  obtain rfl : f = id := funext hf
  have hresult := congrArg Prod.fst (h w.watched)
  rw [Option.map_id, Except.map_id] at hresult
  exact hresult.symm

/-- **A run with an outcome** has it on the watched model too. -/
theorem Run.watched_eq_ok {x : Run γ (σ × List (Call V)) (Option α)} {y : Run γ σ (Option α)}
    {f : α → α} (h : Run.Translates Prod.fst (Option.map f) x y) (hf : ∀ a, f a = a)
    {w w' : World γ σ} {a : α} (hy : y.exec w = (.ok (some a), w')) :
    ∃ v, x.exec w.watched = (.ok (some a), v) ∧ x.calls w = v.state.2 := by
  obtain ⟨r, v, hx, hr, -⟩ := h.eq_ok (w := w.watched) hy
  obtain ⟨b, rfl, rfl⟩ := Option.map_eq_some_iff.mp hr
  refine ⟨v, by rw [hx, hf], ?_⟩
  rw [Run.calls, hx]

/-! ## Evaluations -/

theorem evaluated_append (calls calls' : List (Call V)) :
    evaluated (calls ++ calls') = evaluated calls ++ evaluated calls' := List.filterMap_append

theorem mem_evaluated_some {calls : List (Call V)} {x : Position} {value : V} :
    ⟨x, some value⟩ ∈ evaluated calls ↔ Call.objective x (.ok (some value)) ∈ calls := by
  constructor
  · intro h
    obtain ⟨call, hcall, h⟩ := List.mem_filterMap.mp h
    unfold Call.evaluated at h
    split at h <;> cases h
    exact hcall
  · exact fun h => List.mem_filterMap.mpr ⟨_, h, rfl⟩

/-- **The objective has answered with values with the property `P` only**, in some calls. -/
def Answered (P : V → Prop) (calls : List (Call V)) : Prop :=
  ∀ x value, Call.objective x (.ok (some value)) ∈ calls → P value

theorem answered_iff {P : V → Prop} {calls : List (Call V)} :
    Answered P calls ↔ ∀ c ∈ evaluated calls, ∀ value ∈ c.fitness, P value := by
  constructor
  · rintro h ⟨x, fitness⟩ hc value hvalue
    obtain rfl : fitness = some value := hvalue
    exact h x value (mem_evaluated_some.mp hc)
  · exact fun h x value hcall => h ⟨x, some value⟩ (mem_evaluated_some.mpr hcall) value rfl

theorem Model.watched_evaluate (m : Model γ σ V) (x : Position) (s : σ × List (Call V)) :
    m.watched.evaluate x s =
      if (m.feasible x s.1).1 = some true then
        ((m.objective x (m.feasible x s.1).2).1, ((m.objective x (m.feasible x s.1).2).2,
          s.2 ++ [.feasible x (some true)]
            ++ [.objective x (m.objective x (m.feasible x s.1).2).1]))
      else (.ok none, ((m.feasible x s.1).2, s.2 ++ [.feasible x (m.feasible x s.1).1])) := by
  rw [Model.evaluate_apply]
  by_cases h : (m.feasible x s.1).1 = some true
  · have hw : (m.watched.feasible x s).1 = some true := h
    rw [if_pos hw, if_pos h, ← h]
    rfl
  · rw [if_neg h]
    exact if_neg h

theorem Model.tryCall_evaluate_eq_ok {m : Model γ σ V} {x : Position} {fitness : Option V}
    {w w' : World γ (σ × List (Call V))}
    (h : (Run.tryCall (m.watched.evaluate x)).exec w = (.ok fitness, w')) :
    evaluated w'.state.2 = evaluated w.state.2 ++ [⟨x, fitness⟩] := by
  have hw : World.mk w.random (m.watched.evaluate x w.state).2 = w' := (Prod.mk.inj h).2
  have hr : (m.watched.evaluate x w.state).1.mapError Failure.evaluation = .ok fitness :=
    (Prod.mk.inj h).1
  rw [← hw]
  rw [Model.watched_evaluate] at hr ⊢
  split_ifs at hr ⊢ with hx
  · rcases ho : (m.objective x (m.feasible x w.state.1).2).1 with error | fitness' <;>
      rw [ho] at hr
    · cases hr
    · rw [evaluated_append, evaluated_append, Except.ok.inj hr, List.append_assoc]
      rfl
  · rw [evaluated_append, ← Except.ok.inj hr]
    rcases hf : (m.feasible x w.state.1).1 with _ | _ | _
    · rfl
    · rfl
    · exact absurd hf hx

/-- **Evaluations of a watched model** note their candidates. -/
theorem Model.evaluateAll_eq_ok_evaluated {m : Model γ σ V} {positions : List Position}
    {cs : List (Candidate V)} {w w' : World γ (σ × List (Call V))}
    (h : (m.watched.evaluateAll positions).exec w = (.ok cs, w')) :
    evaluated w'.state.2 = evaluated w.state.2 ++ cs := by
  induction positions generalizing w cs with
  | nil =>
    obtain ⟨rfl, rfl⟩ := Run.pure_eq_ok.mp h
    exact (List.append_nil _).symm
  | cons x positions ih =>
    obtain ⟨c, v, cs', hc, hcs, rfl⟩ := Run.mapM_cons_eq_ok.mp h
    obtain ⟨fitness, v', hfitness, hc⟩ := Run.bind_eq_ok.mp hc
    obtain ⟨rfl, rfl⟩ := Run.pure_eq_ok.mp hc
    rw [ih hcs, tryCall_evaluate_eq_ok hfitness, List.append_assoc, List.singleton_append]

end Metaheuristics
