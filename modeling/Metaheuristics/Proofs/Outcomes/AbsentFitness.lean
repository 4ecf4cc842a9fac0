import Metaheuristics.Proofs.Annealing.Pool
import Metaheuristics.Proofs.Fitness.Worst
import Metaheuristics.Proofs.Multiverse.Pool
import Metaheuristics.Proofs.Outcomes.TopOfRun
import Metaheuristics.Proofs.Swarm.Pool

/-!
# Absent fitness in runs

A swarm compares candidates without fitness as they are, and none of them is ever better than one
with a fitness.  A multiverse and annealing put the worst fitness of the order in place of an absent
one.  That comes to the same except for values that the worst one is better than: what is not a
number, a vector with such a component behind worst ones, and a vector whose weighted sum is not a
number though no weight is zero (`absent_lt_iff`).  On such a value an infeasible candidate outranks
an evaluated one (`absent_lt_not_a_number`).
-/

namespace Metaheuristics

variable {γ σ V : Type}

section
variable {m : Model γ σ V} {c d : Candidate V} {v : V}

theorem Model.compareCandidates_absent (hcompare : m.compare = compareOptional m.order.compare)
    (hc : c.fitness = none) (hd : d.fitness = some v) : m.compareCandidates c d ≠ .lt := by
  rw [Model.compareCandidates, hcompare, hc, hd]
  intro h
  cases h

/-- **The worst fitness in place of an absent one** is better than what is worse than it. -/
theorem Model.complete_lt_iff (hcompare : m.compare = compareOptional m.order.compare)
    (hworst : m.worst = m.order.worst) (hc : c.fitness = none) (hd : d.fitness = some v) :
    m.compareCandidates (m.complete c) (m.complete d) = .lt ↔
      m.order.compare m.order.worst v = .lt := by
  simp only [Model.compareCandidates, Model.complete, Model.present, hcompare, hc, hd,
    Option.getD_none, Option.getD_some, compareOptional, hworst]

end

/-- **When a candidate without fitness is preferred** to one with a fitness.  The candidates that an
engine compares are evaluated ones, in a multiverse and in annealing completed by the worst
fitness. -/
theorem absent_lt_iff [Random.Source γ] (m : Model γ σ V)
    (hcompare : m.compare = compareOptional m.order.compare) (hworst : m.worst = m.order.worst)
    (host : Host σ) (w : World γ σ) :
    (∀ settings legs stop p v,
      Swarm.Takes m.watched settings host.watched w.watched legs stop p v →
        p.engine.pool ⊆ evaluated v.state.2 ∧ ∀ leg ∈ legs,
          leg.compared Swarm.State.pool Swarm.candidates ⊆ evaluated v.state.2) ∧
    (∀ settings legs stop p v,
      Multiverse.Takes m.watched settings host.watched w.watched legs stop p v →
        p.engine.pool ⊆ (evaluated v.state.2).map m.complete ∧ ∀ leg ∈ legs,
          leg.compared Multiverse.State.pool id ⊆ (evaluated v.state.2).map m.complete) ∧
    (∀ settings legs stop p v,
      Annealing.Takes m.watched settings host.watched w.watched legs stop p v →
        p.engine.pool ⊆ (evaluated v.state.2).map m.complete ∧ ∀ leg ∈ legs,
          leg.compared Annealing.State.pool Annealing.Batch.fresh
            ⊆ (evaluated v.state.2).map m.complete) ∧
    (∀ c d v, c.fitness = none → d.fitness = some v →
      m.compareCandidates c d ≠ .lt ∧
      (m.compareCandidates (m.complete c) (m.complete d) = .lt ↔
        m.order.compare m.order.worst v = .lt)) ∧
    (∀ (direction : Direction) (x : Float),
      direction.order.compare direction.order.worst x = .lt ↔ x.isNaN = true) ∧
    (∀ (ranking : Lexicographic) (value : List Float), value.length = ranking.objectives →
      (ranking.order.compare ranking.order.worst value = .lt ↔ ∃ k x rest,
        value = List.replicate k ranking.direction.worst ++ x :: rest ∧ x.isNaN = true)) ∧
    ∀ (ranking : WeightedSum) (value : List Float),
      ranking.order.compare ranking.order.worst value = .lt ↔
        ranking.weights ≠ [] ∧ (∀ weight ∈ ranking.weights, 0.0 < weight) ∧
          (ranking.scalarize value).isNaN = true := by
  refine ⟨?_, ?_, ?_, ?_, ?_, ?_, ?_⟩
  · exact fun settings legs stop p v h => Swarm.sourced_of_takes h
  · exact fun settings legs stop p v h => Multiverse.sourced_of_takes h
  · exact fun settings legs stop p v h => Annealing.sourced_of_takes h
  · exact fun c d v hc hd => ⟨Model.compareCandidates_absent hcompare hc hd,
      Model.complete_lt_iff hcompare hworst hc hd⟩
  · exact fun direction x => direction.worst_lt_iff x
  · exact fun ranking value hvalue => Lexicographic.worst_lt_iff hvalue
  · exact fun ranking value => ranking.worst_lt_iff value

/-! ## A value that is not a number -/

namespace Undefined

/-- A value that is not a number at the left end of the unit interval, and none elsewhere.  The runs
start at the two ends. -/
def model : Model Random.SplitMix Unit Float :=
  { Model.ofObjective (γ := Random.SplitMix) Direction.minimize.order [Interval.bound] fun x =>
      pure (.ok (if x = [0.0] then some Arithmetic.notANumber else none)) with
    initial := fun _ w => ([[0.0], [1.0]], w) }

def swarm : Swarm.Settings :=
  { Swarm.Settings.standard with
    particleAmount := 2
    solutionAmount := 2
    criteria := Interval.criteria }

def multiverse : Multiverse.Settings :=
  { Multiverse.Settings.standard with
    universeAmount := 2
    solutionAmount := 2
    criteria := Interval.criteria }

def annealing : Annealing.Settings :=
  { Annealing.Settings.standard with
    markovLength := 3
    initialAmount := 2
    solutionAmount := 2
    criteria := Interval.criteria }

/-- The candidate at the left end, with its value. -/
def present : Candidate Float := ⟨[0.0], some Arithmetic.notANumber⟩

/-- The candidate at the right end, which has none. -/
def absent : Candidate Float := ⟨[1.0], none⟩

theorem swarm_outcome :
    ∃ o w', (Swarm.run model.watched swarm Interval.host.watched 3).exec Interval.world.watched
        = (.ok (some o), w') ∧ 0 < o.iterations :=
  Run.exists_outcome (by decide +kernel)

theorem multiverse_outcome :
    ∃ o w', (Multiverse.run model.watched multiverse Interval.host.watched 3).exec
        Interval.world.watched = (.ok (some o), w') ∧
      absent ∈ evaluated w'.state.2 ∧ present ∈ evaluated w'.state.2 ∧
      o.solutions.head? = some (model.complete absent) :=
  Run.exists_outcome_world (by decide +kernel)

theorem annealing_outcome :
    ∃ o w', (Annealing.run model.watched annealing Interval.host.watched 3).exec
        Interval.world.watched = (.ok (some o), w') ∧
      absent ∈ evaluated w'.state.2 ∧ present ∈ evaluated w'.state.2 ∧
      o.solutions.head? = some (model.complete absent) :=
  Run.exists_outcome_world (by decide +kernel)

end Undefined

/-- Three runs with a value that is not a number, and a vector that ends with one. -/
theorem absent_lt_iff_undefined :
    (∃ legs stop p v, Swarm.Takes Undefined.model.watched Undefined.swarm Interval.host.watched
        Interval.world.watched legs stop p v ∧
      p.engine.pool ⊆ evaluated v.state.2 ∧ ∀ leg ∈ legs,
        leg.compared Swarm.State.pool Swarm.candidates ⊆ evaluated v.state.2) ∧
    (∃ legs stop p v, Multiverse.Takes Undefined.model.watched Undefined.multiverse
        Interval.host.watched Interval.world.watched legs stop p v ∧
      p.engine.pool ⊆ (evaluated v.state.2).map Undefined.model.complete ∧ ∀ leg ∈ legs,
        leg.compared Multiverse.State.pool id
          ⊆ (evaluated v.state.2).map Undefined.model.complete) ∧
    (∃ legs stop p v, Annealing.Takes Undefined.model.watched Undefined.annealing
        Interval.host.watched Interval.world.watched legs stop p v ∧
      p.engine.pool ⊆ (evaluated v.state.2).map Undefined.model.complete ∧ ∀ leg ∈ legs,
        leg.compared Annealing.State.pool Annealing.Batch.fresh
          ⊆ (evaluated v.state.2).map Undefined.model.complete) ∧
    Undefined.model.compareCandidates Undefined.absent Undefined.present ≠ .lt ∧
    (Undefined.model.compareCandidates (Undefined.model.complete Undefined.absent)
        (Undefined.model.complete Undefined.present) = .lt ↔
      Direction.minimize.compare Direction.minimize.worst Arithmetic.notANumber = .lt) ∧
    (Lexicographic.compare .maximize (List.replicate 2 Direction.maximize.worst)
        [-Arithmetic.infinity, Arithmetic.notANumber] = .lt ↔
      ∃ k x rest, [-Arithmetic.infinity, Arithmetic.notANumber]
        = List.replicate k Direction.maximize.worst ++ x :: rest ∧ x.isNaN = true) := by
  obtain ⟨hswarm, hmultiverse, hannealing, habsent, -, hvector, -⟩ :=
    absent_lt_iff Undefined.model rfl rfl Interval.host Interval.world
  obtain ⟨o₁, w₁, h₁, -⟩ := Undefined.swarm_outcome
  obtain ⟨o₂, w₂, h₂, -⟩ := Undefined.multiverse_outcome
  obtain ⟨o₃, w₃, h₃, -⟩ := Undefined.annealing_outcome
  obtain ⟨stop₁, -, p₁, hp₁, -⟩ := Swarm.visits_of_run h₁
  obtain ⟨stop₂, -, p₂, hp₂, -⟩ := Multiverse.visits_of_run h₂
  obtain ⟨stop₃, -, p₃, hp₃, -⟩ := Annealing.visits_of_run h₃
  obtain ⟨legs₁, ht₁⟩ := hp₁.takes
  obtain ⟨legs₂, ht₂⟩ := hp₂.takes
  obtain ⟨legs₃, ht₃⟩ := hp₃.takes
  have hpair := habsent Undefined.absent Undefined.present _ rfl rfl
  refine ⟨⟨legs₁, stop₁, p₁, w₁, ht₁, ?_⟩, ⟨legs₂, stop₂, p₂, w₂, ht₂, ?_⟩,
    ⟨legs₃, stop₃, p₃, w₃, ht₃, ?_⟩, hpair.1, hpair.2, ?_⟩
  · exact hswarm Undefined.swarm legs₁ stop₁ p₁ w₁ ht₁
  · exact hmultiverse Undefined.multiverse legs₂ stop₂ p₂ w₂ ht₂
  · exact hannealing Undefined.annealing legs₃ stop₃ p₃ w₃ ht₃
  · exact hvector ⟨.maximize, 2⟩ [-Arithmetic.infinity, Arithmetic.notANumber] rfl

/-- **A candidate without fitness outranks one with a fitness** in a multiverse and in annealing:
the run puts it first. -/
theorem absent_lt_not_a_number :
    Undefined.model.compareCandidates (Undefined.model.complete Undefined.absent)
        (Undefined.model.complete Undefined.present) = .lt ∧
      (∃ o w', (Multiverse.run Undefined.model.watched Undefined.multiverse Interval.host.watched
          3).exec Interval.world.watched = (.ok (some o), w') ∧
        Undefined.absent ∈ evaluated w'.state.2 ∧ Undefined.present ∈ evaluated w'.state.2 ∧
        o.solutions.head? = some (Undefined.model.complete Undefined.absent)) ∧
      ∃ o w', (Annealing.run Undefined.model.watched Undefined.annealing Interval.host.watched
          3).exec Interval.world.watched = (.ok (some o), w') ∧
        Undefined.absent ∈ evaluated w'.state.2 ∧ Undefined.present ∈ evaluated w'.state.2 ∧
        o.solutions.head? = some (Undefined.model.complete Undefined.absent) :=
  ⟨by decide +kernel, Undefined.multiverse_outcome, Undefined.annealing_outcome⟩

end Metaheuristics
