import Metaheuristics.Model.Problem
import Metaheuristics.Proofs.Annealing.Translation
import Metaheuristics.Proofs.Multiverse.Translation
import Metaheuristics.Proofs.Swarm.Translation

/-!
# Models with another kind of fitness

An order of fitness is carried over to another kind of fitness by `f` when its comparison, its worst
value, its score and its distance are those of the other order, read through `f`
(`FitnessOrder.Carries`).  A model carried over by `f` gives `f` of each fitness, and its observer
sees the fitness itself (`Model.carried`).  Its runs are then the runs of the model, draw by draw and
call by call, with every fitness read through `f` (`Model.runsAs_carried`).
-/

namespace Metaheuristics

variable {γ σ V U : Type}

/-- **The order `o'` is the order `o`**, read through `f`. -/
structure FitnessOrder.Carries (f : V → U) (o : FitnessOrder V) (o' : FitnessOrder U) : Prop where
  compare : ∀ x y, o'.compare (f x) (f y) = o.compare x y
  worst : o'.worst = f o.worst
  score : ∀ x, o'.score (f x) = o.score x
  distance : ∀ x y, o'.distance (f x) (f y) = o.distance x y

namespace Model

/-- The model with an order of fitness in place of its own, and with the comparison, the worst
fitness and the distance of that order. -/
def ranked (order : FitnessOrder V) (m : Model γ σ V) : Model γ σ V :=
  { m with
    order := order
    compare := compareOptional order.compare
    worst := order.worst
    distance := order.distance }

/-- **The model carried over** to the fitness values of another order: the objective gives `f` of
each fitness, and the observer sees it read back through `g`. -/
def carried (f : V → U) (g : U → V) (order : FitnessOrder U) (m : Model γ σ V) : Model γ σ U where
  order := order
  bounds := m.bounds
  objective position := Except.map (Option.map f) <$> m.objective position
  dimension := m.dimension
  initial := m.initial
  feasible := m.feasible
  compare := compareOptional order.compare
  worst := order.worst
  distance := order.distance
  flush := m.flush
  observe tracker best := m.observe tracker (best.map g)

theorem translates_carried {f : V → U} {g : U → V} {o : FitnessOrder V} {o' : FitnessOrder U}
    (hg : ∀ x, g (f x) = x) (h : o.Carries f o') (m : Model γ σ V) :
    (m.ranked o).Translates id f (m.carried f g o') where
  bounds := rfl
  dimension := rfl
  compare x y := by
    obtain _ | x := x <;> obtain _ | y := y <;> try rfl
    exact h.compare x y
  worst := h.worst
  score := h.score
  distance := h.distance
  objective _ _ := rfl
  feasible _ _ := rfl
  initial _ _ := rfl
  flush _ := rfl
  observe tracker best s := by
    show m.observe tracker ((best.map f).map g) s = m.observe tracker best s
    rw [Option.map_map, show g ∘ f = id from funext hg, Option.map_id, id]

/-- **The runs of `n` are those of `m`** with fitness read through `f`: for the same settings and
from the same world the same failure, or the same outcome up to `f`, and the same world at the end.
-/
structure RunsAs [Random.Source γ] (f : V → U) (m : Model γ σ V) (n : Model γ σ U) : Prop where
  swarm : ∀ settings host rounds, Run.Translates id (Option.map (Outcome.map f))
    (Swarm.run m settings host rounds) (Swarm.run n settings host rounds)
  multiverse : ∀ settings host rounds, Run.Translates id (Option.map (Outcome.map f))
    (Multiverse.run m settings host rounds) (Multiverse.run n settings host rounds)
  annealing : ∀ settings host rounds, Run.Translates id (Option.map (Annealing.Outcome.map f))
    (Annealing.run m settings host rounds) (Annealing.run n settings host rounds)

theorem Translates.runsAs [Random.Source γ] {f : V → U} {m : Model γ σ V} {n : Model γ σ U}
    (h : m.Translates id f n) : RunsAs f m n where
  swarm settings host := Swarm.translates_run settings h (Host.Translates.refl host)
  multiverse settings host := Multiverse.translates_run settings h (Host.Translates.refl host)
  annealing settings host := Annealing.translates_run settings h (Host.Translates.refl host)

/-- **A model that is carried over runs alike.** -/
theorem runsAs_carried [Random.Source γ] {f : V → U} {g : U → V} {o : FitnessOrder V}
    {o' : FitnessOrder U} (hg : ∀ x, g (f x) = x) (h : o.Carries f o') (m : Model γ σ V) :
    RunsAs f (m.ranked o) (m.carried f g o') := (translates_carried hg h m).runsAs

end Model

namespace Problem

/-- The problem with an order of fitness in place of its own, and with the distance of that order.
-/
def ranked (order : FitnessOrder V) (p : Problem γ σ V) : Problem γ σ V :=
  { p with order := order, distance := none }

/-- The problem carried over to the fitness values of another order, with the bounds, the
constraints and the generator as they are. -/
def carried (f : V → U) (g : U → V) (order : FitnessOrder U) (p : Problem γ σ V) :
    Problem γ σ U where
  order := order
  bounds := p.bounds
  objective position := Except.map (Option.map f) <$> p.objective position
  constraints := p.constraints
  generator := p.generator
  distance := none
  observer := p.observer.map fun observe tracker best => observe tracker (best.map g)

theorem toModel_ranked [Random.Source γ] (order : FitnessOrder V) (p : Problem γ σ V) :
    (p.ranked order).toModel = p.toModel.ranked order := rfl

theorem toModel_carried [Random.Source γ] (f : V → U) (g : U → V) (order : FitnessOrder U)
    (p : Problem γ σ V) : (p.carried f g order).toModel = p.toModel.carried f g order := by
  obtain ⟨_, bounds, objective, constraints, generator, distance, _ | observe⟩ := p <;> rfl

end Problem

/-- **A problem that is carried over runs alike.** -/
theorem Model.runsAs_problem [Random.Source γ] {f : V → U} {g : U → V} {o : FitnessOrder V}
    {o' : FitnessOrder U} (hg : ∀ x, g (f x) = x) (h : o.Carries f o') (p : Problem γ σ V) :
    RunsAs f (p.ranked o).toModel (p.carried f g o').toModel := by
  rw [Problem.toModel_ranked, Problem.toModel_carried]
  exact runsAs_carried hg h p.toModel

end Metaheuristics
