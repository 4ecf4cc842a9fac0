import Metaheuristics.Proofs.Annealing.Traces
import Metaheuristics.Proofs.Multiverse.Traces
import Metaheuristics.Proofs.Outcomes.TopOfRun
import Metaheuristics.Proofs.Swarm.Traces

/-!
# Errors and infeasibility over whole runs

When constraints and objective are functions, all that a run calls follows from the candidates it
evaluates (`runs_accounted`): each one is checked against the constraints, and where it satisfies
all of them, and only there, it is handed to the objective.  The order of the constraints does not
matter.  The run fails with the first error of the objective, evaluates nothing after it, and leaves
the iteration that the error has occurred in without release, entry of the history and observer.
Settings that are refused end a run before it has drawn or called anything.
-/

namespace Metaheuristics

variable {γ σ V S α : Type}

/-- **A run whose errors are accounted for.**  `x` is the run, `y` the same run on the watched
model, and `check` the check of its settings. -/
structure Accounted (m : Model γ σ V) (r : Replies V) (check : Except SettingsError Unit)
    (w : World γ σ) (head : Progress V S → World γ (σ × List (Call V)) → Prop)
    (view : α → Outcome V) (x : Run γ σ (Option α)) (y : Run γ (σ × List (Call V)) (Option α)) :
    Prop where
  /-- The calls of the run are those of its evaluations and of its completed iterations, and an
  error is that of the last candidate: one of an iteration that has not been completed, or a
  starting candidate, after which no iteration has begun. -/
  account : ∃ a, Account.Of m r head view (x.exec w).1 (y.calls w) a ∧
    ∀ error, (x.exec w).1 = .error (.evaluation error) →
      ∃ c, a.positions.getLast? = some c ∧ r.Passes c ∧ r.objective c = .error error ∧
        (a.unfinished.getLast? = some c ∨
          a.opening.getLast? = some c ∧ a.laps = [] ∧ a.unfinished = [])
  /-- Settings that are refused end the run in the world in which it has begun. -/
  refused : ∀ error, check = .error error →
    x.exec w = (.error (.settings error), w) ∧ y.calls w = []

theorem accounted {m : Model γ σ V} {r : Replies V} {check : Except SettingsError Unit}
    {w : World γ σ} {head : Progress V S → World γ (σ × List (Call V)) → Prop}
    {view : α → Outcome V} {f : Unit → Run γ σ (Option α)}
    {g : Unit → Run γ (σ × List (Call V)) (Option α)}
    (h : ∃ a, Account.Of m r head view ((Run.require check >>= f).exec w).1
      ((Run.require check >>= g).calls w) a) :
    Accounted m r check w head view (Run.require check >>= f) (Run.require check >>= g) where
  account := by
    obtain ⟨a, ha⟩ := h
    exact ⟨a, ha, fun error herror => ha.failing herror⟩
  refused error hcheck := by
    refine ⟨Run.exec_require_error hcheck f w, ?_⟩
    unfold Run.calls
    rw [Run.exec_require_error hcheck g]
    rfl

variable [Random.Source γ]

/-- **Errors are accounted for in every run** on a problem whose constraints and objective are
functions, and the order of the constraints does not matter to it. -/
theorem runs_accounted (p : Problem γ σ V) (r : Replies V) (hp : p.RepliesWith r) (host : Host σ)
    (rounds : Nat) (w : World γ σ) :
    (∀ constraints, constraints.Perm p.constraints →
      Problem.toModel { p with constraints } = p.toModel) ∧
    (∀ settings : Swarm.Settings, Accounted p.toModel r settings.check w
      (fun q v => ∃ stop, Swarm.Visits p.toModel.watched settings host.watched w.watched stop q v)
      id (Swarm.run p.toModel settings host rounds)
      (Swarm.run p.toModel.watched settings host.watched rounds)) ∧
    (∀ settings : Multiverse.Settings, Accounted p.toModel r settings.check w
      (fun q v => ∃ stop,
        Multiverse.Visits p.toModel.watched settings host.watched w.watched stop q v)
      id (Multiverse.run p.toModel settings host rounds)
      (Multiverse.run p.toModel.watched settings host.watched rounds)) ∧
    ∀ settings : Annealing.Settings, Accounted p.toModel r settings.check w
      (fun q v => ∃ stop,
        Annealing.Visits p.toModel.watched settings host.watched w.watched stop q v)
      Annealing.Outcome.toOutcome (Annealing.run p.toModel settings host rounds)
      (Annealing.run p.toModel.watched settings host.watched rounds) := by
  have hm := hp.toModel
  refine ⟨fun _ hperm => hp.toModel_perm hperm, fun settings => ?_, fun settings => ?_,
    fun settings => ?_⟩
  · exact accounted (Swarm.exists_account hm host rounds w)
  · exact accounted (Multiverse.exists_account hm host rounds w)
  · exact accounted (Annealing.exists_account hm host rounds w)

namespace Interval

/-- The error of an objective that is not defined far to the right. -/
def tooFar : EvaluationError := ⟨"too far"⟩

/-- The distance from one half, which fails far to the right, under the constraint of `problem`. -/
def replies : Replies Float where
  constraints := [fun x => x.head?.map fun a => a ≤ 0.75]
  objective x :=
    if x.head?.any (0.65 < ·) then .error tooFar else .ok (x.head?.map fun a => (a - 0.5).abs)

/-- The problem with the objective that fails. -/
def fragile : Problem Random.SplitMix Unit Float :=
  { problem with objective := fun x => pure (replies.objective x) }

theorem fragile_repliesWith : fragile.RepliesWith replies where
  constraints := .cons (fun _ _ => rfl) .nil
  objective _ _ := rfl

/-- Annealing that would heat up. -/
def heating : Annealing.Settings := { annealing with gradient := 2.0 }

theorem fragile_swarm : ((Swarm.run fragile.toModel swarm host 3).exec world).1
    = .error (.evaluation tooFar) := Run.result_eq_error (by decide +kernel)

theorem fragile_annealing : ((Annealing.run fragile.toModel annealing host 3).exec world).1
    = .error (.evaluation tooFar) := Run.result_eq_error (by decide +kernel)

end Interval

/-- Three runs on the unit interval: two that fail with a candidate for which the objective is not
defined, and one that is not begun. -/
theorem runs_accounted_interval :
    (∃ a x, (Swarm.run Interval.fragile.toModel.watched Interval.swarm
        Interval.host.watched 3).calls Interval.world = Account.calls Interval.replies a ∧
      a.positions.getLast? = some x ∧ Interval.replies.objective x = .error Interval.tooFar) ∧
    (∃ a x, (Annealing.run Interval.fragile.toModel.watched Interval.annealing
        Interval.host.watched 3).calls Interval.world = Account.calls Interval.replies a ∧
      a.positions.getLast? = some x ∧ Interval.replies.objective x = .error Interval.tooFar) ∧
    (Annealing.run Interval.fragile.toModel Interval.heating Interval.host 3).exec Interval.world
      = (.error (.settings (.outOfRange .gradient .openUnit 2.0)), Interval.world) := by
  obtain ⟨-, hswarm, -, hannealing⟩ := runs_accounted Interval.fragile Interval.replies
    Interval.fragile_repliesWith Interval.host 3 Interval.world
  obtain ⟨a, ha, hfails⟩ := (hswarm Interval.swarm).account
  obtain ⟨b, hb, hfails'⟩ := (hannealing Interval.annealing).account
  obtain ⟨x, hlast, -, hx, -⟩ := hfails Interval.tooFar Interval.fragile_swarm
  obtain ⟨y, hlast', -, hy, -⟩ := hfails' Interval.tooFar Interval.fragile_annealing
  have hheating : Interval.heating.check = .error (.outOfRange .gradient .openUnit 2.0) := by decide
  exact ⟨⟨a, x, ha.calls_eq, hlast, hx⟩, ⟨b, y, hb.calls_eq, hlast', hy⟩,
    ((hannealing Interval.heating).refused _ hheating).1⟩

end Metaheuristics
