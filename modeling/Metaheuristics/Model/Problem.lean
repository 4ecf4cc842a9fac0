import Metaheuristics.Model.Basic
import Metaheuristics.Text.Quoted

/-!
# Problems

A problem is a model put together from parts: an objective, named constraints, and where wanted a
generator of starting candidates, a distance and an observer.  A constraint may be unable to tell; a
position is infeasible when one constraint says so, and otherwise unknown when one is unable to tell
(`Problem.feasible`).
-/

namespace Metaheuristics

/-- A named condition on positions, absent where it cannot be checked. -/
structure Constraint (σ : Type) where
  name : String
  check : Position → StateM σ (Option Bool)

/-- **The parts of a model.** -/
structure Problem (γ σ V : Type) where
  order : FitnessOrder V
  bounds : List Bound
  objective : Position → StateM σ (Except EvaluationError (Option V))
  constraints : List (Constraint σ)
  generator : Option (StateM (World γ σ) Position)
  distance : Option (V → V → Float)
  observer : Option (Tracker → Option V → StateM σ Bool)

namespace Problem

variable {γ σ V : Type}

/-- The problem with nothing but an objective. -/
def ofObjective (order : FitnessOrder V) (bounds : List Bound)
    (objective : Position → StateM σ (Except EvaluationError (Option V))) : Problem γ σ V :=
  ⟨order, bounds, objective, [], none, none, none⟩

/-- The problem with one more constraint, which is checked last. -/
def withConstraint (problem : Problem γ σ V) (constraint : Constraint σ) : Problem γ σ V :=
  { problem with constraints := problem.constraints ++ [constraint] }

/-- **The answer of several constraints.**  Violated beats unknown, and unknown beats satisfied.
The constraints after a violated one are not checked. -/
def satisfies : List (Constraint σ) → Position → StateM σ (Option Bool)
  | [], _ => return some true
  | constraint :: rest, position => do
    match ← constraint.check position with
    | some true => satisfies rest position
    | some false => return some false
    | none =>
      match ← satisfies rest position with
      | some false => return some false
      | _ => return none

/-- Starting candidates from a generator, one after the other. -/
def generate (generator : StateM (World γ σ) Position) (amount : Nat) :
    StateM (World γ σ) (List Position) :=
  (List.range amount).mapM fun _ => generator

/-- **The model of a problem.** -/
def toModel [Random.Source γ] (problem : Problem γ σ V) : Model γ σ V :=
  let plain : Model γ σ V := .ofObjective problem.order problem.bounds problem.objective
  { plain with
    initial := match problem.generator with
      | some generator => generate generator
      | none => plain.initial
    feasible := satisfies problem.constraints
    distance := problem.distance.getD problem.order.distance
    observe := problem.observer.getD plain.observe }

/-- The names of the constraints. -/
def constraintNames (problem : Problem γ σ V) : List String := problem.constraints.map (·.name)

/-- The text of a problem: its order, its bounds and the names of its constraints. -/
def description (problem : Problem γ σ V) : String :=
  "FnModel \x7b order: " ++ problem.order.description ++ ", bounds: ["
    ++ ", ".intercalate (problem.bounds.map Bound.description) ++ "], constraints: ["
    ++ ", ".intercalate (problem.constraintNames.map Text.quoted) ++ "], .. \x7d"

end Problem

end Metaheuristics
