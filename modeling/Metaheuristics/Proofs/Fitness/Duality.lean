import Metaheuristics.Fitness.Vector
import Metaheuristics.Proofs.Arithmetic.Order
import Metaheuristics.Proofs.Fitness.Carrying

/-!
# Minimising and maximising

Two orders of fitness are dual by `f` when `f` turns each value around and is undone by itself
(`FitnessOrder.Dual`); negation is such an `f` between minimising and maximising, for scalars and
for lexicographic vectors.  A model that maximises the negated objective then runs as the model that
minimises the objective does, draw by draw and call by call, with every fitness negated
(`maximize_negated`).
-/

namespace Metaheuristics

variable {γ σ V : Type}

/-! ## Dual orders -/

/-- **Dual orders.** -/
structure FitnessOrder.Dual (f : V → V) (o o' : FitnessOrder V) : Prop where
  involutive : ∀ x, f (f x) = x
  compare : ∀ x y, o'.compare (f x) (f y) = o.compare x y
  worst : o'.worst = f o.worst
  score : ∀ x, o'.score (f x) = o.score x
  distance : ∀ x y, o'.distance (f x) (f y) = o.distance x y

/-- Of two dual orders one is the other one, read through `f`. -/
theorem FitnessOrder.Dual.carries {f : V → V} {o o' : FitnessOrder V} (h : o.Dual f o') :
    o.Carries f o' :=
  ⟨h.compare, h.worst, h.score, h.distance⟩

theorem Direction.compareNumbers_neg (x y : Float) :
    compareNumbers (-x) (-y) = (compareNumbers x y).swap := by
  simp only [compareNumbers, Arithmetic.neg_lt_neg_iff]
  by_cases hxy : x < y
  · rw [if_neg (Arithmetic.lt_asymm hxy), if_pos hxy, if_pos hxy]; rfl
  · by_cases hyx : y < x
    · rw [if_pos hyx, if_neg hxy, if_pos hyx]; rfl
    · rw [if_neg hyx, if_neg hxy, if_neg hxy, if_neg hyx]; rfl

theorem Direction.compare_neg (x y : Float) :
    maximize.compare (-x) (-y) = minimize.compare x y := by
  simp only [Direction.compare, Arithmetic.isNaN_neg, compareNumbers_neg, Ordering.swap_swap]

theorem Direction.dual_neg : FitnessOrder.Dual (- ·) minimize.order maximize.order where
  involutive := Arithmetic.neg_neg_self
  compare := Direction.compare_neg
  worst := rfl
  score _ := rfl
  distance := Arithmetic.abs_neg_sub_neg

theorem Lexicographic.compare_neg (x y : List Float) :
    compare .maximize (x.map (- ·)) (y.map (- ·)) = compare .minimize x y := by
  induction x generalizing y with
  | nil => rfl
  | cons a x ih =>
    obtain _ | ⟨b, y⟩ := y
    · rfl
    · simp only [List.map_cons, compare, Direction.compare_neg, ih]

theorem Lexicographic.dual_neg (n : Nat) :
    FitnessOrder.Dual (List.map (- ·)) (order ⟨.minimize, n⟩) (order ⟨.maximize, n⟩) where
  involutive x := by
    rw [List.map_map]
    exact (List.map_congr_left fun a _ => Arithmetic.neg_neg_self a).trans (List.map_id x)
  compare := Lexicographic.compare_neg
  worst := by simp [order, Direction.worst]
  score x := by cases x <;> rfl
  distance x y := by
    simp only [order, List.zipWith_map, Arithmetic.abs_neg_sub_neg]

/-! ## Dual models -/

namespace Model

/-- The model whose objective gives `f` of each fitness.  The observer still sees the fitness
itself, since `f` is undone by itself. -/
def mirrored (f : V → V) (m : Model γ σ V) : Model γ σ V :=
  { m with
    objective := fun position => Except.map (Option.map f) <$> m.objective position
    observe := fun tracker best => m.observe tracker (best.map f) }

theorem translates_mirrored {f : V → V} {o o' : FitnessOrder V} (h : o.Dual f o')
    (m : Model γ σ V) :
    (m.ranked o).Translates id f ((m.mirrored f).ranked o') :=
  translates_carried h.involutive h.carries m

/-- **The runs of `m'` are those of `m`** with fitness read through `f`: for the same settings and
from the same world the same failure, or the same outcome up to `f`, and the same world at the end.
-/
def SameRuns [Random.Source γ] (f : V → V) (m m' : Model γ σ V) : Prop :=
  ∀ (host : Host σ) (rounds : Nat) (w : World γ σ),
    (∀ settings, (Swarm.run m' settings host rounds).exec w
      = ((Swarm.run m settings host rounds).exec w).map
        (Except.map (Option.map (Outcome.map f))) id) ∧
    (∀ settings, (Multiverse.run m' settings host rounds).exec w
      = ((Multiverse.run m settings host rounds).exec w).map
        (Except.map (Option.map (Outcome.map f))) id) ∧
    (∀ settings, (Annealing.run m' settings host rounds).exec w
      = ((Annealing.run m settings host rounds).exec w).map
        (Except.map (Option.map (Annealing.Outcome.map f))) id)

theorem sameRuns_mirrored [Random.Source γ] {f : V → V} {o o' : FitnessOrder V} (h : o.Dual f o')
    (m : Model γ σ V) : SameRuns f (m.ranked o) ((m.mirrored f).ranked o') := by
  intro host rounds w
  have hruns := (translates_mirrored h m).runsAs
  exact ⟨fun settings => hruns.swarm settings host rounds w,
    fun settings => hruns.multiverse settings host rounds w,
    fun settings => hruns.annealing settings host rounds w⟩

end Model

namespace Problem

/-- The problem whose objective gives `f` of each fitness, with the bounds and the constraints as
they are. -/
def mirrored (f : V → V) (p : Problem γ σ V) : Problem γ σ V :=
  { p with
    objective := fun position => Except.map (Option.map f) <$> p.objective position
    observer := p.observer.map fun observe tracker best => observe tracker (best.map f) }

theorem toModel_mirrored [Random.Source γ] (f : V → V) (p : Problem γ σ V) :
    (p.mirrored f).toModel = p.toModel.mirrored f := by
  obtain ⟨order, bounds, objective, constraints, generator, distance, _ | observe⟩ := p <;> rfl

end Problem

theorem Model.sameRuns_problem [Random.Source γ] {f : V → V} {o o' : FitnessOrder V}
    (h : o.Dual f o') (p : Problem γ σ V) :
    SameRuns f (p.ranked o).toModel ((p.mirrored f).ranked o').toModel := by
  rw [Problem.toModel_ranked, Problem.toModel_ranked, Problem.toModel_mirrored]
  exact sameRuns_mirrored h p.toModel

/-- **Maximising the negated objective** is minimising the objective, for scalars and for
lexicographic vectors, and for models of every kind as for problems put together from parts. -/
theorem maximize_negated [Random.Source γ] :
    ((∀ m : Model γ σ Float, Model.SameRuns (- ·) (m.ranked Direction.minimize.order)
        ((m.mirrored (- ·)).ranked Direction.maximize.order)) ∧
      ∀ p : Problem γ σ Float, Model.SameRuns (- ·) (p.ranked Direction.minimize.order).toModel
        ((p.mirrored (- ·)).ranked Direction.maximize.order).toModel) ∧
    ∀ n : Nat,
      (∀ m : Model γ σ (List Float), Model.SameRuns (List.map (- ·))
        (m.ranked (Lexicographic.order ⟨.minimize, n⟩))
        ((m.mirrored (List.map (- ·))).ranked (Lexicographic.order ⟨.maximize, n⟩))) ∧
      ∀ p : Problem γ σ (List Float), Model.SameRuns (List.map (- ·))
        (p.ranked (Lexicographic.order ⟨.minimize, n⟩)).toModel
        ((p.mirrored (List.map (- ·))).ranked (Lexicographic.order ⟨.maximize, n⟩)).toModel := by
  refine ⟨⟨?_, ?_⟩, fun n => ⟨?_, ?_⟩⟩
  · exact Model.sameRuns_mirrored Direction.dual_neg
  · exact Model.sameRuns_problem Direction.dual_neg
  · exact Model.sameRuns_mirrored (Lexicographic.dual_neg n)
  · exact Model.sameRuns_problem (Lexicographic.dual_neg n)

end Metaheuristics
