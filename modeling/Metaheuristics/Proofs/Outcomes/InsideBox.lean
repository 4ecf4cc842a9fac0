import Metaheuristics.Proofs.Annealing.Box
import Metaheuristics.Proofs.Multiverse.Box
import Metaheuristics.Proofs.Outcomes.TopOfRun
import Metaheuristics.Proofs.Swarm.Box

/-!
# No position leaves the box

The three engines move their candidates by different rules and clamp them at different places.  On a
model that starts inside its bounds none of them ever hands a position outside the box to a
callback, whether the run fails or not, and none has such a solution; nor does a particle move with
a velocity beyond its limit (`inside_box`).
-/

namespace Metaheuristics

variable {γ σ V : Type}

theorem callsInBox_of_ensures {m : Model γ σ V} {α : Type} {Q : α → Prop}
    {x : Run γ (σ × List (Call V)) α}
    (h : Run.Ensures (fun s => CallsInBox m.bounds s.2) x Q) (w : World γ σ) :
    CallsInBox m.bounds (x.calls w) :=
  (h w.watched fun _ hc => absurd hc List.not_mem_nil).1

section
variable [Random.Source γ]

theorem Model.ofObjective_startsInside (order : FitnessOrder V) (bounds : List Bound)
    (objective : Position → StateM σ (Except EvaluationError (Option V))) :
    (Model.ofObjective order bounds objective : Model γ σ V).StartsInside :=
  fun amount w => uniform_inBox bounds amount w.random

theorem Problem.toModel_startsInside {problem : Problem γ σ V} (h : problem.generator = none) :
    problem.toModel.StartsInside := by
  unfold Model.StartsInside Problem.toModel
  simp only [h]
  exact fun amount w => uniform_inBox problem.bounds amount w.random

/-- **No position leaves the box**, and no velocity exceeds its limit.  Uniform starting candidates
are in the box, and where the starting candidates are, so are all positions that callbacks are given
and all solutions. -/
theorem inside_box (m : Model γ σ V) (hm : m.StartsInside) (host : Host σ) (w : World γ σ) :
    (∀ settings : Swarm.Settings,
      (∀ rounds, CallsInBox m.bounds
        ((Swarm.run m.watched settings host.watched rounds).calls w)) ∧
      (∀ rounds o w', (Swarm.run m settings host rounds).exec w = (.ok (some o), w') →
        AllInBox m.bounds o.solutions) ∧
      (∀ stop p v, Swarm.Visits m settings host w stop p v → 0 < p.tracker.iteration →
        ∀ q ∈ p.engine.particles, ∀ x ∈ q.velocity, settings.Limits x) ∧
      (settings.check = .ok () → ∀ (p q : Swarm.Particle V) (shared : Position)
        (u u' : World γ σ), (p.move settings m.bounds shared).exec u = (.ok q, u') →
        ∀ x ∈ q.velocity, settings.Limits x)) ∧
    (∀ settings : Multiverse.Settings,
      (∀ rounds, CallsInBox m.bounds
        ((Multiverse.run m.watched settings host.watched rounds).calls w)) ∧
      ∀ rounds o w', (Multiverse.run m settings host rounds).exec w = (.ok (some o), w') →
        AllInBox m.bounds o.solutions) ∧
    (∀ settings : Annealing.Settings,
      (∀ rounds, CallsInBox m.bounds
        ((Annealing.run m.watched settings host.watched rounds).calls w)) ∧
      ∀ rounds o w', (Annealing.run m settings host rounds).exec w = (.ok (some o), w') →
        AllInBox m.bounds o.solutions) ∧
    (∀ (order : FitnessOrder V) (bounds : List Bound)
      (objective : Position → StateM σ (Except EvaluationError (Option V))),
      (Model.ofObjective order bounds objective : Model γ σ V).StartsInside) ∧
    ∀ problem : Problem γ σ V, problem.generator = none → problem.toModel.StartsInside := by
  have hwatched := m.watched_confined
  have hplain := m.confined_true
  have hinside := hm.watched
  refine ⟨fun settings => ⟨fun rounds => ?_, fun rounds o w' h => ?_, fun stop p v h hp => ?_,
    fun hcheck p q shared u u' h => ?_⟩,
    fun settings => ⟨fun rounds => ?_, fun rounds o w' h => ?_⟩,
    fun settings => ⟨fun rounds => ?_, fun rounds o w' h => ?_⟩,
    Model.ofObjective_startsInside, fun _ => Problem.toModel_startsInside⟩
  · exact callsInBox_of_ensures (Swarm.ensures_run hwatched hinside host.watched rounds) w
  · have hsolutions := ((Swarm.ensures_run hplain hm host rounds).of_ok trivial h).2
    exact hsolutions o rfl
  · exact Swarm.limits_of_visits hm h hp
  · exact Swarm.Particle.limits_of_move hcheck h
  · exact callsInBox_of_ensures (Multiverse.ensures_run hwatched hinside host.watched rounds) w
  · have hsolutions := ((Multiverse.ensures_run hplain hm host rounds).of_ok trivial h).2
    exact hsolutions o rfl
  · exact callsInBox_of_ensures (Annealing.ensures_run hwatched hinside host.watched rounds) w
  · have hsolutions := ((Annealing.ensures_run hplain hm host rounds).of_ok trivial h).2
    exact hsolutions o rfl

end

theorem Interval.model_startsInside : Interval.model.StartsInside :=
  Problem.toModel_startsInside rfl

/-- A particle at rest in the middle of the unit interval. -/
def Interval.particle : Swarm.Particle Float := ⟨none, [0.5], [0.0], ⟨[0.5], none⟩⟩

theorem Interval.particle_moves : ∃ q u, (Interval.particle.move Interval.swarm [Interval.bound]
    [1.0]).exec Interval.world = (.ok q, u) := by
  have hok : ((Interval.particle.move Interval.swarm [Interval.bound] [1.0]).exec
      Interval.world).1.toOption.isSome = true := by decide +kernel
  rcases h : (Interval.particle.move Interval.swarm [Interval.bound] [1.0]).exec Interval.world
    with ⟨e | q, u⟩
  · rw [h] at hok
    cases hok
  · exact ⟨q, u, rfl⟩

/-- Three runs on the unit interval stay in it, and a particle that sets out to its end moves with
no more than the limit. -/
theorem inside_box_interval :
    (CallsInBox [Interval.bound] ((Swarm.run Interval.model.watched Interval.swarm
        Interval.host.watched 3).calls Interval.world) ∧
      (∃ o w' stop p, (Swarm.run Interval.model Interval.swarm Interval.host 3).exec Interval.world
          = (.ok (some o), w') ∧ AllInBox [Interval.bound] o.solutions ∧
        Swarm.Visits Interval.model Interval.swarm Interval.host Interval.world stop p w' ∧
        ∀ q ∈ p.engine.particles, ∀ x ∈ q.velocity, Interval.swarm.Limits x) ∧
      ∃ q u, (Interval.particle.move Interval.swarm [Interval.bound] [1.0]).exec Interval.world
          = (.ok q, u) ∧ ∀ x ∈ q.velocity, Interval.swarm.Limits x) ∧
    (CallsInBox [Interval.bound] ((Multiverse.run Interval.model.watched Interval.multiverse
        Interval.host.watched 3).calls Interval.world) ∧
      ∃ o w', (Multiverse.run Interval.model Interval.multiverse Interval.host 3).exec
          Interval.world = (.ok (some o), w') ∧ AllInBox [Interval.bound] o.solutions) ∧
    CallsInBox [Interval.bound] ((Annealing.run Interval.model.watched Interval.annealing
        Interval.host.watched 3).calls Interval.world) ∧
      ∃ o w', (Annealing.run Interval.model Interval.annealing Interval.host 3).exec
          Interval.world = (.ok (some o), w') ∧ AllInBox [Interval.bound] o.solutions := by
  obtain ⟨hswarm, hmultiverse, hannealing, -⟩ :=
    inside_box Interval.model Interval.model_startsInside Interval.host Interval.world
  obtain ⟨o₁, w₁, h₁, hpos⟩ := Interval.swarm_outcome
  obtain ⟨o₂, w₂, h₂, -⟩ := Interval.multiverse_outcome
  obtain ⟨o₃, w₃, h₃, -⟩ := Interval.annealing_outcome
  obtain ⟨stop, reason, p, hp, rfl⟩ := Swarm.visits_of_run h₁
  obtain ⟨q, u, hq⟩ := Interval.particle_moves
  refine ⟨⟨(hswarm _).1 3, ⟨_, w₁, stop, p, h₁, ?_, hp, ?_⟩, q, u, hq, ?_⟩,
    ⟨(hmultiverse _).1 3, o₂, w₂, h₂, ?_⟩, (hannealing _).1 3, o₃, w₃, h₃, ?_⟩
  · exact (hswarm Interval.swarm).2.1 3 _ w₁ h₁
  · exact (hswarm Interval.swarm).2.2.1 stop p w₁ hp hpos
  · exact (hswarm Interval.swarm).2.2.2 (by decide +kernel) Interval.particle q [1.0] _ u hq
  · exact (hmultiverse Interval.multiverse).2 3 o₂ w₂ h₂
  · exact (hannealing Interval.annealing).2 3 o₃ w₃ h₃

end Metaheuristics
