import Metaheuristics.Proofs.Model.Replies
import Metaheuristics.Proofs.Runs.Results

/-!
# Traces of runs

A run on a watched model is traced when everything it calls is evaluations, one after the other, and
it fails with an evaluation error exactly when one of them does (`Run.Traced`).  The first error
ends the run, so that there is no other one and nothing is evaluated after it (`Replies.Blames`).
That goes through every way in which runs are put together: what a sequence evaluates is what its
parts do, and its second part is reached only where the first has not failed.
-/

namespace Metaheuristics

variable {γ σ V α β : Type}

/-! ## Blame -/

/-- **Evaluations of `xs` are what a result is due to**: it is an evaluation error when one of them
fails, and nothing has been evaluated after that. -/
structure Replies.Blames (r : Replies V) (xs : List Position) (result : Except Failure α) :
    Prop where
  /-- The error is that of the first evaluation that fails. -/
  error_iff : ∀ error, result = .error (.evaluation error) ↔ xs.findSome? r.error? = some error
  /-- No evaluation fails but the last one. -/
  last : ∀ x ∈ xs.dropLast, r.error? x = none

namespace Replies.Blames

variable {r : Replies V} {xs ys : List Position} {result : Except Failure α}

/-- Nothing is evaluated by what cannot fail in an evaluation. -/
theorem nil (h : ∀ error, result ≠ .error (.evaluation error)) : r.Blames [] result :=
  ⟨fun error => ⟨fun hresult => absurd hresult (h error), fun hnone => by cases hnone⟩,
    fun _ hx => by cases hx⟩

/-- The evaluations behind a result have not failed. -/
theorem fine {a : α} (h : r.Blames xs (.ok a : Except Failure α)) :
    ∀ x ∈ xs, r.error? x = none := by
  rw [← List.findSome?_eq_none_iff]
  rcases hsome : xs.findSome? r.error? with _ | error
  · rfl
  · cases (h.error_iff error).mpr hsome

/-- **The evaluation that fails** is the last one. -/
theorem exists_last {error : EvaluationError} (h : r.Blames xs result)
    (herror : result = .error (.evaluation error)) :
    ∃ x, xs.getLast? = some x ∧ r.error? x = some error := by
  obtain ⟨x, hx, hxerror⟩ := List.exists_of_findSome?_eq_some ((h.error_iff error).mp herror)
  refine ⟨x, ?_, hxerror⟩
  rcases List.eq_nil_or_concat xs with rfl | ⟨others, y, rfl⟩
  · cases hx
  · have hlast := h.last x
    rw [List.concat_eq_append, List.dropLast_concat] at hlast
    rw [List.concat_eq_append] at hx ⊢
    rcases List.mem_append.mp hx with hx | hx
    · rw [hlast hx] at hxerror
      cases hxerror
    · rw [List.getLast?_concat, List.mem_singleton.mp hx]

/-- A failure is the same failure of a longer run. -/
theorem error {failure : Failure} (h : r.Blames xs (.error failure : Except Failure α)) :
    r.Blames xs (.error failure : Except Failure β) := by
  refine ⟨fun error => ?_, h.last⟩
  rw [← h.error_iff error]
  constructor <;> intro heq <;> rw [Except.error.inj heq]

theorem map (h : r.Blames xs result) (f : α → β) : r.Blames xs (result.map f) := by
  refine ⟨fun error => ?_, h.last⟩
  rw [← h.error_iff error]
  rcases result with failure | a
  · constructor <;> intro heq <;> cases heq <;> rfl
  · constructor <;> intro heq <;> cases heq

theorem append (hxs : ∀ x ∈ xs, r.error? x = none) (h : r.Blames ys result) :
    r.Blames (xs ++ ys) result := by
  constructor
  · intro error
    rw [List.findSome?_append, List.findSome?_eq_none_iff.mpr hxs, Option.none_or]
    exact h.error_iff error
  · intro x hx
    rcases List.eq_nil_or_concat ys with rfl | ⟨ys', y, rfl⟩
    · rw [List.append_nil] at hx
      exact hxs x (List.dropLast_subset xs hx)
    · rw [List.concat_eq_append, ← List.append_assoc, List.dropLast_concat] at hx
      rcases List.mem_append.mp hx with hx | hx
      · exact hxs x hx
      · exact h.last x (by rwa [List.concat_eq_append, List.dropLast_concat])

end Replies.Blames

namespace Run

/-- **The run's calls are evaluations**, and it fails where they do. -/
def Traced (r : Replies V) (x : Run γ (σ × List (Call V)) α) : Prop :=
  ∀ w, ∃ xs, (x.exec w).2.state.2 = w.state.2 ++ xs.flatMap r.calls ∧ r.Blames xs (x.exec w).1

namespace Traced

variable {r : Replies V} {m : Model γ σ V}

/-! ## Steps -/

theorem quiet {x : Run γ (σ × List (Call V)) α}
    (hcalls : ∀ w, (x.exec w).2.state.2 = w.state.2)
    (h : ∀ w error, (x.exec w).1 ≠ .error (.evaluation error)) : Traced r x :=
  fun w => ⟨[], (hcalls w).trans (List.append_nil _).symm, .nil (h w)⟩

theorem pure (a : α) : Traced (γ := γ) (σ := σ) r (pure a) :=
  quiet (fun _ => rfl) fun _ _ h => by cases h

theorem violate (broken : Violation) : Traced (γ := γ) (σ := σ) (α := α) r (violate broken) :=
  quiet (fun _ => rfl) fun _ _ h => by cases h

theorem expect (broken : Violation) (o : Option α) :
    Traced (γ := γ) (σ := σ) r (expect broken o) := by
  obtain _ | a := o
  · exact violate broken
  · exact pure a

theorem draw (action : StateM γ α) : Traced (σ := σ) r (draw action) :=
  quiet (fun _ => rfl) fun _ _ h => by cases h

theorem tryDraw (action : ExceptT Violation (StateM γ) α) :
    Traced (σ := σ) r (tryDraw action) := by
  refine quiet (fun _ => rfl) fun w error h => ?_
  have hresult : (action.run w.random).1.mapError Failure.violation
      = .error (.evaluation error) := h
  rcases hrun : (action.run w.random).1 with broken | a <;> rw [hrun] at hresult <;> cases hresult

theorem initial (m : Model γ σ V) (amount : Nat) :
    Traced r (liftM (m.watched.initial amount) : Run γ (σ × List (Call V)) (List Position)) :=
  quiet (fun _ => rfl) fun _ _ h => by cases h

theorem evaluate (hm : m.RepliesWith r) (x : Position) :
    Traced (γ := γ) r (tryCall (m.watched.evaluate x)) := by
  intro w
  have hexec : (Run.tryCall (m.watched.evaluate x)).exec w
      = ((if r.Passes x then r.objective x else .ok none).mapError Failure.evaluation,
        ⟨w.random, (w.state.1, w.state.2 ++ r.calls x)⟩) := by
    have hevaluate := hm.watched_evaluate x w.state
    refine Prod.ext ?_ ?_
    · exact congrArg (·.1.mapError Failure.evaluation) hevaluate
    · exact congrArg (fun result => World.mk w.random result.2) hevaluate
  rw [hexec]
  refine ⟨[x], by rw [List.flatMap_singleton], ⟨fun error => ?_, fun y hy => by cases hy⟩⟩
  rw [List.findSome?_singleton, Replies.error?_eq_some]
  by_cases hpasses : r.Passes x
  · rw [if_pos hpasses]
    rcases r.objective x with error' | fitness
    · simp [Except.mapError, hpasses]
    · simp [Except.mapError]
  · rw [if_neg hpasses]
    simp [Except.mapError, hpasses]

/-! ## Sequences -/

theorem bind {x : Run γ (σ × List (Call V)) α} {f : α → Run γ (σ × List (Call V)) β}
    (hx : Traced r x) (hf : ∀ a, Traced r (f a)) : Traced r (x >>= f) := by
  intro w
  obtain ⟨xs, hcalls, hblames⟩ := hx w
  rw [exec_bind]
  rcases hxw : x.exec w with ⟨failure | a, v⟩ <;> rw [hxw] at hcalls hblames
  · exact ⟨xs, hcalls, hblames.error⟩
  · obtain ⟨ys, hcalls', hblames'⟩ := hf a v
    refine ⟨xs ++ ys, ?_, hblames'.append hblames.fine⟩
    rw [hcalls', hcalls, List.flatMap_append, List.append_assoc]

theorem get {k : World γ (σ × List (Call V)) → Run γ (σ × List (Call V)) β}
    (h : ∀ w, Traced r (k w)) : Traced r (get >>= k) := fun w => h w w

theorem ite {p : Prop} [Decidable p] {x y : Run γ (σ × List (Call V)) α} (hx : Traced r x)
    (hy : Traced r y) : Traced r (if p then x else y) := by
  split
  · exact hx
  · exact hy

theorem mapM {f : α → Run γ (σ × List (Call V)) β} (hf : ∀ a, Traced r (f a)) (as : List α) :
    Traced r (as.mapM f) := by
  induction as with
  | nil => exact pure []
  | cons a as ih =>
    rw [List.mapM_cons]
    exact bind (hf a) fun b => bind ih fun bs => pure (b :: bs)

theorem foldlM {f : β → α → Run γ (σ × List (Call V)) β} (hf : ∀ b a, Traced r (f b a))
    (as : List α) (b : β) : Traced r (as.foldlM f b) := by
  induction as generalizing b with
  | nil => exact pure b
  | cons a as ih =>
    rw [List.foldlM_cons]
    exact bind (hf b a) ih

end Traced

end Run

namespace Model

variable {r : Replies V} {m : Model γ σ V}

theorem traced_startingPositions (m : Model γ σ V) (amount : Nat) :
    Run.Traced r (m.watched.startingPositions amount) := by
  refine Run.Traced.bind (Run.Traced.initial m amount) fun xs => ?_
  exact Run.Traced.ite (Run.Traced.violate _) (Run.Traced.ite (Run.Traced.violate _)
    (Run.Traced.ite (Run.Traced.violate _) (Run.Traced.pure xs)))

theorem traced_evaluateAll (hm : m.RepliesWith r) (xs : List Position) :
    Run.Traced (γ := γ) r (m.watched.evaluateAll xs) :=
  Run.Traced.mapM (fun x => Run.Traced.bind (Run.Traced.evaluate hm x) fun _ => Run.Traced.pure _)
    xs

theorem traced_settle (hm : m.RepliesWith r) (xs : List Position) :
    Run.Traced (γ := γ) r (m.watched.settle xs) :=
  Run.Traced.bind (traced_evaluateAll hm xs) fun _ => Run.Traced.pure _

end Model

end Metaheuristics
