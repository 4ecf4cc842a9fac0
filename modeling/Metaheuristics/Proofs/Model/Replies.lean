import Mathlib.Data.List.Perm.Basic
import Metaheuristics.Model.Problem
import Metaheuristics.Proofs.Model.Calls

/-!
# Replies of callbacks

The constraints and the objective of a problem are functions when their replies depend on the
position only (`Problem.RepliesWith`).  The constraints are then satisfied as a whole as the list of
their replies says, in whichever order they come (`feasibility`): one violation beats everything,
and an unknown reply beats satisfaction.  Hence the calls of one evaluation are known beforehand
(`Replies.calls`): the objective is called when all constraints are satisfied and not otherwise, and
the evaluation fails when the objective does (`Model.RepliesWith.watched_evaluate`).
-/

namespace Metaheuristics

variable {γ σ V : Type}

/-! ## Constraints -/

/-- **The reply of several constraints**, from the replies of each. -/
def feasibility (replies : List (Option Bool)) : Option Bool :=
  if some false ∈ replies then some false else if none ∈ replies then none else some true

theorem feasibility_eq_some_true {replies : List (Option Bool)} :
    feasibility replies = some true ↔ ∀ reply ∈ replies, reply = some true := by
  unfold feasibility
  constructor
  · intro h reply hreply
    split at h
    · cases h
    next hviolated =>
      split at h
      · cases h
      next hunknown =>
        rcases reply with _ | _ | _
        · exact absurd hreply hunknown
        · exact absurd hreply hviolated
        · rfl
  · intro h
    have hviolated : some false ∉ replies := fun hmem => by cases h _ hmem
    have hunknown : none ∉ replies := fun hmem => by cases h _ hmem
    rw [if_neg hviolated, if_neg hunknown]

theorem feasibility_perm {replies replies' : List (Option Bool)} (h : replies.Perm replies') :
    feasibility replies = feasibility replies' := by
  simp only [feasibility, h.mem_iff]

theorem feasibility_cons (reply : Option Bool) (replies : List (Option Bool)) :
    feasibility (reply :: replies) = match reply with
      | some true => feasibility replies
      | some false => some false
      | none => match feasibility replies with
        | some false => some false
        | _ => none := by
  rcases reply with _ | _ | _
  · by_cases hviolated : some false ∈ replies
    · simp [feasibility, hviolated]
    · by_cases hunknown : none ∈ replies <;> simp [feasibility, hviolated, hunknown]
  · simp [feasibility]
  · simp [feasibility]

/-! ## Problems -/

/-- **What constraints and an objective reply.** -/
structure Replies (V : Type) where
  constraints : List (Position → Option Bool)
  objective : Position → Except EvaluationError (Option V)

namespace Replies

variable (r : Replies V)

/-- Whether a position satisfies all constraints, where that is known. -/
def feasible (x : Position) : Option Bool := feasibility (r.constraints.map (· x))

/-- **Every constraint is satisfied.** -/
def Passes (x : Position) : Prop := ∀ constraint ∈ r.constraints, constraint x = some true

instance (x : Position) : Decidable (r.Passes x) := by
  unfold Passes
  infer_instance

/-- The error of an evaluation, if it fails. -/
def error? (x : Position) : Option EvaluationError :=
  if r.Passes x then
    match r.objective x with
    | .error error => some error
    | .ok _ => none
  else none

/-- **The calls of an evaluation.** -/
def calls (x : Position) : List (Call V) :=
  if r.Passes x then [.feasible x (some true), .objective x (r.objective x)]
  else [.feasible x (r.feasible x)]

variable {r}

theorem feasible_eq_some_true {x : Position} : r.feasible x = some true ↔ r.Passes x := by
  unfold feasible Passes
  rw [feasibility_eq_some_true, List.forall_mem_map]

theorem error?_eq_some {x : Position} {error : EvaluationError} :
    r.error? x = some error ↔ r.Passes x ∧ r.objective x = .error error := by
  unfold error?
  by_cases hpasses : r.Passes x
  · rw [if_pos hpasses]
    rcases r.objective x with error' | fitness
    · simp [hpasses]
    · simp
  · rw [if_neg hpasses]
    simp [hpasses]

end Replies

/-- **The problem's constraints and its objective are functions** with these replies. -/
structure Problem.RepliesWith (p : Problem γ σ V) (r : Replies V) : Prop where
  constraints : List.Forall₂ (fun (constraint : Constraint σ) reply =>
    ∀ x s, constraint.check x s = (reply x, s)) p.constraints r.constraints
  objective : ∀ x s, p.objective x s = (r.objective x, s)

/-- The model's feasibility and its objective are functions with these replies. -/
structure Model.RepliesWith (m : Model γ σ V) (r : Replies V) : Prop where
  feasible : ∀ x s, m.feasible x s = (r.feasible x, s)
  objective : ∀ x s, m.objective x s = (r.objective x, s)

/-- **Constraints are checked up to the first violated one**, which is as good as checking all. -/
theorem Problem.satisfies_eq {constraints : List (Constraint σ)}
    {replies : List (Position → Option Bool)}
    (h : List.Forall₂ (fun (constraint : Constraint σ) reply =>
      ∀ x s, constraint.check x s = (reply x, s)) constraints replies) (x : Position) (s : σ) :
    satisfies constraints x s = (feasibility (replies.map (· x)), s) := by
  induction h with
  | nil => rfl
  | @cons constraint reply rest replies hreply _ ih =>
    rw [List.map_cons, feasibility_cons]
    have hcheck : satisfies (constraint :: rest) x s = (match (constraint.check x s).1 with
        | some true => satisfies rest x
        | some false => pure (some false)
        | none => do
          match ← satisfies rest x with
          | some false => return some false
          | _ => return none) (constraint.check x s).2 := rfl
    rw [hcheck, hreply]
    rcases reply x with _ | _ | _
    · show (match (satisfies rest x s).1 with
        | some false => pure (some false)
        | _ => pure none : StateM σ (Option Bool)) (satisfies rest x s).2 = _
      rw [ih]
      generalize feasibility (replies.map (· x)) = others
      rcases others with _ | _ | _ <;> rfl
    · rfl
    · exact ih

theorem Problem.RepliesWith.toModel [Random.Source γ] {p : Problem γ σ V} {r : Replies V}
    (h : p.RepliesWith r) : p.toModel.RepliesWith r :=
  ⟨satisfies_eq h.constraints, h.objective⟩

/-- **The order of the constraints does not matter** to the model of a problem. -/
theorem Problem.RepliesWith.toModel_perm [Random.Source γ] {p : Problem γ σ V} {r : Replies V}
    (h : p.RepliesWith r) {constraints : List (Constraint σ)}
    (hperm : constraints.Perm p.constraints) :
    Problem.toModel { p with constraints } = p.toModel := by
  have hfeasible : satisfies constraints = satisfies p.constraints := by
    obtain ⟨replies, hreplies, hperm'⟩ := List.perm_comp_forall₂ hperm h.constraints
    funext x s
    rw [satisfies_eq hreplies, satisfies_eq h.constraints, feasibility_perm (hperm'.map _)]
  unfold Problem.toModel
  rw [hfeasible]

/-! ## Evaluations -/

theorem Model.RepliesWith.watched_evaluate {m : Model γ σ V} {r : Replies V}
    (h : m.RepliesWith r) (x : Position) (s : σ × List (Call V)) :
    m.watched.evaluate x s
      = (if r.Passes x then r.objective x else .ok none, (s.1, s.2 ++ r.calls x)) := by
  rw [Model.watched_evaluate, h.feasible, h.objective]
  unfold Replies.calls
  by_cases hpasses : r.Passes x
  · rw [if_pos (Replies.feasible_eq_some_true.mpr hpasses), if_pos hpasses, if_pos hpasses]
    rw [List.append_assoc]
    rfl
  · rw [if_neg (Replies.feasible_eq_some_true.not.mpr hpasses), if_neg hpasses, if_neg hpasses]

end Metaheuristics
