import Metaheuristics.Proofs.Model.Ordered
import Metaheuristics.Proofs.Search.Course

/-!
# What an observer sees

The observer of a model is told of each iteration with the tracker and the best fitness after it
(`told`).  Nothing else that an engine does calls it (`Engine.Silent`), so what it has been told
in a run is what the iterations behind a position left, one by one (`Course.told`).  Where an engine
finds a new best exactly when its best fitness gets strictly better, the observer can tell by the
stagnation of the tracker which iterations did (`SeesBetter`).
-/

namespace Metaheuristics

variable {γ σ V S B : Type} {m : Model γ σ V}

/-- What a call has told the observer. -/
def Call.told : Call V → Option (Tracker × Option V)
  | feasible _ _ => none
  | objective _ _ => none
  | flush => none
  | observe tracker best => some (tracker, best)

/-- **What the observer has been told** in some calls, in their order. -/
def told (calls : List (Call V)) : List (Tracker × Option V) := calls.filterMap Call.told

theorem told_append (calls calls' : List (Call V)) :
    told (calls ++ calls') = told calls ++ told calls' := List.filterMap_append

/-! ## Calls that tell nothing -/

namespace Model

variable {w w' : World γ (σ × List (Call V))}

theorem told_of_evaluate {x : Position} {fitness : Option V}
    (h : (Run.tryCall (m.watched.evaluate x)).exec w = (.ok fitness, w')) :
    told w'.state.2 = told w.state.2 := by
  have hw : World.mk w.random (m.watched.evaluate x w.state).2 = w' := (Prod.mk.inj h).2
  rw [← hw, Model.watched_evaluate]
  split_ifs
  · rw [told_append, told_append]
    exact (List.append_nil _).trans (List.append_nil _)
  · rw [told_append]
    exact List.append_nil _

theorem told_of_evaluateAll {positions : List Position} {cs : List (Candidate V)}
    (h : (m.watched.evaluateAll positions).exec w = (.ok cs, w')) :
    told w'.state.2 = told w.state.2 := by
  induction positions generalizing w cs with
  | nil =>
    obtain ⟨-, rfl⟩ := Run.pure_eq_ok.mp h
    rfl
  | cons x positions ih =>
    obtain ⟨c, v, cs', hc, hcs, -⟩ := Run.mapM_cons_eq_ok.mp h
    obtain ⟨fitness, v', hfitness, hc⟩ := Run.bind_eq_ok.mp hc
    obtain ⟨-, rfl⟩ := Run.pure_eq_ok.mp hc
    rw [ih hcs, told_of_evaluate hfitness]

theorem told_of_startingPositions {amount : Nat} {positions : List Position}
    (h : (m.watched.startingPositions amount).exec w = (.ok positions, w')) :
    told w'.state.2 = told w.state.2 := by
  rw [← (Prod.mk.inj (Model.startingPositions_eq_ok h).1).2]

theorem told_of_settle {positions : List Position} {cs : List (Candidate V)}
    (h : (m.watched.settle positions).exec w = (.ok cs, w')) :
    told w'.state.2 = told w.state.2 := by
  obtain ⟨cs', hcs, -⟩ := Model.settle_eq_ok h
  exact told_of_evaluateAll hcs

end Model

/-- **An engine that tells the observer nothing.** -/
def Engine.Silent (e : Engine γ (σ × List (Call V)) V S B) : Prop :=
  ∀ t s w b v s' better v', (e.explore t s).exec w = (.ok b, v) →
    (e.absorb s b).exec v = (.ok (s', better), v') → told v'.state.2 = told w.state.2

/-! ## Searches -/

/-- **The observer sees a new best** in two iterations after each other: the second one has ended
the stagnation exactly when the fitness it was told with is strictly better. -/
def SeesBetter (m : Model γ σ V) (before after : Tracker × Option V) : Prop :=
  after.1.notBetter = 0 ↔ m.isBetter after.2 before.2 = true

variable {host : Host (σ × List (Call V))} {criteria : StopCriteria}
  {e : Engine γ (σ × List (Call V)) V S B} {p₀ p : Progress V S}
  {w₀ w : World γ (σ × List (Call V))} {legs : List (Leg S B)} {stop : Bool}

/-- **What the observer has been told** of the iterations of a search: it sees each new best. -/
theorem Search.Course.told (he : e.Silent)
    (h : Course host m.watched criteria e p₀ w₀ legs stop p w)
    (hw₀ : told w₀.state.2 = []) (hlegs : ∀ leg ∈ legs,
      leg.better = true ↔ m.isBetter (e.best leg.after) (e.best leg.before) = true) :
    (told w.state.2).length = legs.length ∧
      ((p₀.tracker, e.best p₀.engine) :: told w.state.2).getLast?
        = some (p.tracker, e.best p.engine) ∧
      ((p₀.tracker, e.best p₀.engine) :: told w.state.2).IsChain (SeesBetter m) := by
  induction h with
  | start =>
    rw [hw₀]
    exact ⟨rfl, rfl, List.isChain_singleton _⟩
  | @step legs p w s b v s' better v' u stop w' _ _ explores absorbs hflush hobserve ih =>
    obtain ⟨hlength, hlast, hchain⟩ := ih fun leg hleg => hlegs leg (List.mem_append_left _ hleg)
    have hbetter := hlegs ⟨p.engine, b, s', better⟩
      (List.mem_append_right _ (List.mem_singleton_self _))
    have htold : Metaheuristics.told w'.state.2
        = Metaheuristics.told w.state.2 ++ [(p.tracker.next better, e.best s')] := by
      rw [← (Prod.mk.inj hobserve).2, ← (Prod.mk.inj hflush).2,
        ← he _ _ _ _ _ _ _ _ explores absorbs]
      show Metaheuristics.told ((v'.state.2 ++ [Call.flush]) ++ [Call.observe _ _]) = _
      rw [told_append, told_append, List.append_assoc]
      rfl
    rw [htold, ← List.cons_append, List.getLast?_concat]
    refine ⟨by rw [List.length_append, List.length_append, hlength]; rfl, rfl,
      isChain_concat hchain hlast (Iff.trans ?_ hbetter)⟩
    cases better <;> simp [Tracker.next]

end Metaheuristics
