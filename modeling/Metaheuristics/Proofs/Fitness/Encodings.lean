import Metaheuristics.Fitness.Vector
import Metaheuristics.Proofs.Arithmetic.Neutral
import Metaheuristics.Proofs.Fitness.Carrying

/-!
# One objective as a vector

A scalar is the vector with it as the only component (`single`).  The lexicographic order of vectors
with one component, and the weighted sum with the weight one, are the order of scalars, read through
`single`: for every value, since negative zero is neutral in sums and one in products, whatever the
other operand is.  So a model with one objective runs alike, whichever of the three orders it has
(`single_objective`).
-/

namespace Metaheuristics

open Arithmetic

/-- The vector with one component. -/
def single (x : Float) : List Float := [x]

/-- The first component of a vector. -/
def component (value : List Float) : Float := value.headD 0.0

theorem component_single (x : Float) : component (single x) = x := rfl

/-- The order of scalars is the lexicographic order of vectors with one component. -/
theorem Lexicographic.carries_single (direction : Direction) :
    direction.order.Carries single (order ⟨direction, 1⟩) where
  compare _ _ := Ordering.then_eq
  worst := rfl
  score _ := rfl
  distance x y := sum_singleton (x - y).abs

namespace WeightedSum

/-- The sum with the weight one. -/
def unit (direction : Direction) : WeightedSum where
  direction := direction
  weights := [1.0]
  admissible := by simp; decide +kernel

theorem ofWeights_one (direction : Direction) : ofWeights direction [1.0] = .ok (unit direction) :=
  dif_pos (unit direction).admissible

theorem scalarize_single (direction : Direction) (x : Float) :
    (unit direction).scalarize (single x) = x :=
  (sum_singleton (1.0 * x)).trans (one_mul_self x)

theorem carries_single (direction : Direction) :
    direction.order.Carries single (unit direction).order where
  compare x y := by
    simp only [order, scalarize_single]
    rfl
  worst := rfl
  score x := by
    simp only [order, scalarize_single]
    rfl
  distance x y := by
    simp only [order, scalarize_single]
    rfl

end WeightedSum

variable {γ σ : Type}

/-- **One objective in three orders.**  A scalar model runs as the models do that give its fitness
as a vector with one component, and this holds for models of every kind as for problems put together
from parts. -/
theorem single_objective [Random.Source γ] (direction : Direction) :
    WeightedSum.ofWeights direction [1.0] = .ok (WeightedSum.unit direction) ∧
    (∀ m : Model γ σ Float,
      Model.RunsAs single (m.ranked direction.order)
        (m.carried single component (Lexicographic.order ⟨direction, 1⟩)) ∧
      Model.RunsAs single (m.ranked direction.order)
        (m.carried single component (WeightedSum.unit direction).order)) ∧
    ∀ p : Problem γ σ Float,
      Model.RunsAs single (p.ranked direction.order).toModel
        (p.carried single component (Lexicographic.order ⟨direction, 1⟩)).toModel ∧
      Model.RunsAs single (p.ranked direction.order).toModel
        (p.carried single component (WeightedSum.unit direction).order).toModel := by
  have hlexicographic := Lexicographic.carries_single direction
  have hweighted := WeightedSum.carries_single direction
  refine ⟨WeightedSum.ofWeights_one direction, fun m => ⟨?_, ?_⟩, fun p => ⟨?_, ?_⟩⟩
  · exact Model.runsAs_carried component_single hlexicographic m
  · exact Model.runsAs_carried component_single hweighted m
  · exact Model.runsAs_problem component_single hlexicographic p
  · exact Model.runsAs_problem component_single hweighted p

end Metaheuristics
