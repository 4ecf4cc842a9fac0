import Metaheuristics.Proofs.Model.Calls
import Metaheuristics.Proofs.Model.Ordered
import Metaheuristics.Proofs.Search.Course

/-!
# The pace of a search

What a watched run has evaluated between two of its worlds, without telling the model of the end of
an iteration, is counted by `Evaluates`.  An engine has a steady pace when every iteration evaluates
the same number of candidates (`Engine.Paced`).  The calls of a search are then counted by its
course (`Course.tally`): so many candidates for each leg, and for each leg one call of `flush` and
one of `observe`.
-/

namespace Metaheuristics

variable {γ σ V S B : Type}

/-! ## Counting calls -/

namespace Call

def isFlush : Call V → Bool
  | flush => true
  | _ => false

def isObserve : Call V → Bool
  | observe _ _ => true
  | _ => false

end Call

/-- How often the model has been told that an iteration is over. -/
def flushes (calls : List (Call V)) : Nat := calls.countP Call.isFlush

/-- How often the observer has been called. -/
def observations (calls : List (Call V)) : Nat := calls.countP Call.isObserve

/-- **From one world to another `n` candidates have been evaluated**, and no iteration has ended. -/
structure Evaluates (n : Nat) (w w' : World γ (σ × List (Call V))) : Prop where
  evaluated : (evaluated w'.state.2).length = (evaluated w.state.2).length + n
  flushes : flushes w'.state.2 = flushes w.state.2
  observations : observations w'.state.2 = observations w.state.2

namespace Evaluates

variable {a b : Nat} {u v w w' : World γ (σ × List (Call V))} {m : Model γ σ V}

/-- Where there are no new calls, nothing has been evaluated. -/
theorem of_calls_eq (h : w'.state.2 = w.state.2) : Evaluates 0 w w' := by
  constructor <;> rw [h]
  rfl

theorem trans (h : Evaluates a u v) (h' : Evaluates b v w) : Evaluates (a + b) u w where
  evaluated := by rw [h'.evaluated, h.evaluated, Nat.add_assoc]
  flushes := h'.flushes.trans h.flushes
  observations := h'.observations.trans h.observations

theorem startingPositions {amount : Nat} {positions : List Position}
    (h : (m.watched.startingPositions amount).exec w = (.ok positions, w')) : Evaluates 0 w w' :=
  of_calls_eq (by rw [← (Prod.mk.inj (Model.startingPositions_eq_ok h).1).2])

theorem tryCall {x : Position} {fitness : Option V}
    (h : (Run.tryCall (m.watched.evaluate x)).exec w = (.ok fitness, w')) : Evaluates 1 w w' := by
  have hw : World.mk w.random (m.watched.evaluate x w.state).2 = w' := (Prod.mk.inj h).2
  refine ⟨by rw [Model.tryCall_evaluate_eq_ok h, List.length_append]; rfl, ?_, ?_⟩ <;>
    rw [← hw, Model.watched_evaluate] <;> split_ifs <;>
    simp [Metaheuristics.flushes, Metaheuristics.observations, Call.isFlush, Call.isObserve]

theorem evaluateAll {positions : List Position} {cs : List (Candidate V)}
    (h : (m.watched.evaluateAll positions).exec w = (.ok cs, w')) :
    Evaluates positions.length w w' := by
  induction positions generalizing w cs with
  | nil =>
    obtain ⟨rfl, rfl⟩ := Run.pure_eq_ok.mp h
    exact of_calls_eq rfl
  | cons x positions ih =>
    obtain ⟨c, v, cs', hc, hcs, rfl⟩ := Run.mapM_cons_eq_ok.mp h
    obtain ⟨fitness, v', hfitness, hc⟩ := Run.bind_eq_ok.mp hc
    obtain ⟨rfl, rfl⟩ := Run.pure_eq_ok.mp hc
    rw [List.length_cons, Nat.add_comm]
    exact (tryCall hfitness).trans (ih hcs)

theorem settle {positions : List Position} {cs : List (Candidate V)}
    (h : (m.watched.settle positions).exec w = (.ok cs, w')) :
    Evaluates positions.length w w' := by
  obtain ⟨cs', hcs, -⟩ := Model.settle_eq_ok h
  exact evaluateAll hcs

end Evaluates

/-! ## Steady engines -/

/-- **An engine of a steady pace**: in the states with `K`, every iteration evaluates `n` candidates
and leads to such a state again. -/
structure Engine.Paced (K : S → Prop) (n : Nat)
    (e : Engine γ (σ × List (Call V)) V S B) : Prop where
  enter : ∀ k s s', e.enter k s = some s' → K s → K s'
  lap : ∀ t s w b v s' better v', K s → (e.explore t s).exec w = (.ok b, v) →
    (e.absorb s b).exec v = (.ok (s', better), v') → Evaluates n w v' ∧ K s'

/-- **The calls of a watched search**, counted by the legs of its course. -/
theorem Search.Course.tally {K : S → Prop} {n : Nat} {host : Host (σ × List (Call V))}
    {m : Model γ σ V} {criteria : StopCriteria} {e : Engine γ (σ × List (Call V)) V S B}
    {p₀ p : Progress V S} {w₀ w : World γ (σ × List (Call V))} {legs : List (Leg S B)}
    {stop : Bool} (he : e.Paced K n)
    (h : Course host m.watched criteria e p₀ w₀ legs stop p w) (hp₀ : K p₀.engine) :
    K p.engine ∧
      (evaluated w.state.2).length = (evaluated w₀.state.2).length + legs.length * n ∧
      flushes w.state.2 = flushes w₀.state.2 + legs.length ∧
      observations w.state.2 = observations w₀.state.2 + legs.length := by
  induction h with
  | start => exact ⟨hp₀, by simp, rfl, rfl⟩
  | @step legs p w s b v s' better v' u stop w' _ enters explores absorbs hflush hobserve ih =>
    obtain ⟨hK, hevaluated, hflushes, hobservations⟩ := ih
    have hs : K s := he.enter _ _ _ (enter_of_verdict enters) hK
    obtain ⟨hlap, hK'⟩ := he.lap _ _ _ _ _ _ _ _ hs explores absorbs
    have hcalls : w'.state.2 =
        v'.state.2 ++ [.flush, .observe (p.tracker.next better) (e.best s')] := by
      rw [← (Prod.mk.inj hobserve).2, ← (Prod.mk.inj hflush).2]
      show (v'.state.2 ++ [Call.flush]) ++ [Call.observe _ _] = _
      rw [List.append_assoc]
      rfl
    rw [hcalls, List.length_append, List.length_singleton]
    refine ⟨hK', ?_, ?_, ?_⟩
    · rw [evaluated_append, List.length_append, hlap.evaluated, hevaluated, Nat.add_mul,
        Nat.one_mul]
      show _ + 0 = _
      omega
    · rw [flushes, List.countP_append]
      show flushes v'.state.2 + 1 = _
      rw [hlap.flushes, hflushes, Nat.add_assoc]
    · rw [observations, List.countP_append]
      show observations v'.state.2 + 1 = _
      rw [hlap.observations, hobservations, Nat.add_assoc]

end Metaheuristics
