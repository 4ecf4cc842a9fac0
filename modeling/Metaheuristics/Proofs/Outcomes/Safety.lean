import Metaheuristics.Proofs.Annealing.Safety
import Metaheuristics.Proofs.Multiverse.Safety
import Metaheuristics.Proofs.Outcomes.BestOfRun
import Metaheuristics.Proofs.Swarm.Safety

/-!
# Checked runs break no agreement

A run with checked settings can break an agreement in two places only: where the model is asked for
starting candidates, and where it is asked to compare (`checked_runs_guarded`).  When the model
starts badly, the run says so before anything is evaluated.  When it starts well and orders its
fitness, the run has a result or ends with an error of the objective, and no index is out of range,
no population empty, no sample too large, no limit inverted and no sort refused on the way.  A model
that starts well but is in no order can lead to a sort that the machine refuses, and to nothing else.
-/

namespace Metaheuristics

variable {γ σ V α : Type}

/-- **A run that breaks no agreement**: it has a result, unless the objective reports an error. -/
def Run.Answers (w : World γ σ) (x : Run γ σ α) : Prop :=
  (∃ a w', x.exec w = (.ok a, w')) ∨ ∃ error w', x.exec w = (.error (.evaluation error), w')

/-- **A run that is guarded by its start**: it is safe after a good one, and ends with a bad one.
`x` is the run and `y` the same run on the watched model. -/
structure GuardedByStart (m : Model γ σ V) (amount : Nat) (w : World γ σ) (x : Run γ σ α)
    (y : Run γ (σ × List (Call V)) α) : Prop where
  /-- After a good start, a model that orders its fitness breaks no agreement. -/
  ordered : m.StartsWell amount w → ∀ P, m.Ordered P → Run.Answers w x
  /-- On other models a sort may be refused, and that is all. -/
  unordered : m.StartsWell amount w →
    Run.Answers w x ∨ ∃ w', x.exec w = (.error (.violation .unorderedComparison), w')
  /-- A start that is not good ends the run, and nothing has been called. -/
  startsBadly : ¬ m.StartsWell amount w → ∃ broken, m.StartsBadly amount w broken ∧
    x.exec w = (.error (.violation broken), (m.initial amount w).2) ∧ y.calls w = []

theorem guardedByStart {m : Model γ σ V} {amount : Nat} {w : World γ σ} {x : Run γ σ α}
    {y : Run γ (σ × List (Call V)) α}
    (hsafe : m.StartsWell amount w → ∀ (A : Violation → Prop) (P : Option V → Prop), m.Gives P →
      Run.Sortable A P m.compare → Run.Safe A w x fun _ => True)
    (hx : ∀ broken, m.StartsBadly amount w broken →
      x.exec w = (.error (.violation broken), (m.initial amount w).2))
    (hy : ∀ broken, m.watched.StartsBadly amount w.watched broken →
      y.exec w.watched = (.error (.violation broken), (m.watched.initial amount w.watched).2)) :
    GuardedByStart m amount w x y where
  ordered h P hm := by
    have hsafe := hsafe h (fun _ => False) P hm.toGives (Or.inl hm.preorder)
    rcases hsafe with ⟨a, w', hok, -⟩ | hfail | ⟨_, _, hnone, -⟩
    · exact Or.inl ⟨a, w', hok⟩
    · exact Or.inr hfail
    · exact hnone.elim
  unordered h := by
    have hsafe := hsafe h (· = .unorderedComparison) _ m.gives_true (Or.inr rfl)
    rcases hsafe with ⟨a, w', hok, -⟩ | hfail | ⟨_, w', rfl, hrefused⟩
    · exact Or.inl (Or.inl ⟨a, w', hok⟩)
    · exact Or.inl (Or.inr hfail)
    · exact Or.inr ⟨w', hrefused⟩
  startsBadly h := by
    obtain ⟨broken, hbroken⟩ := Model.exists_startsBadly h
    refine ⟨broken, hbroken, hx broken hbroken, ?_⟩
    unfold Run.calls
    rw [hy broken hbroken.watched]
    rfl

variable [Random.Source γ]

/-- **Checked runs break no agreement** after a good start on a model that orders its fitness, and a
bad start ends them before anything is called, for every engine. -/
theorem checked_runs_guarded (m : Model γ σ V) (host : Host σ) (rounds : Nat) (w : World γ σ) :
    (∀ settings : Swarm.Settings, settings.check = .ok () →
      GuardedByStart m settings.particleAmount w (Swarm.run m settings host rounds)
        (Swarm.run m.watched settings host.watched rounds)) ∧
    (∀ settings : Multiverse.Settings, settings.check = .ok () →
      GuardedByStart m settings.universeAmount w (Multiverse.run m settings host rounds)
        (Multiverse.run m.watched settings host.watched rounds)) ∧
    ∀ settings : Annealing.Settings, settings.check = .ok () →
      settings.disturbanceAmount ≤ m.dimension →
      GuardedByStart m settings.initialAmount w (Annealing.run m settings host rounds)
        (Annealing.run m.watched settings host.watched rounds) := by
  refine ⟨fun settings hcheck => ?_, fun settings hcheck => ?_, fun settings hcheck hamount => ?_⟩
  · exact guardedByStart
      (fun h _ _ hm hsort => Swarm.safe_run hcheck h host rounds hm hsort)
      (fun _ h => Swarm.run_of_startsBadly hcheck h host rounds)
      fun _ h => Swarm.run_of_startsBadly hcheck h host.watched rounds
  · exact guardedByStart
      (fun h _ _ hm hsort => Multiverse.safe_run hcheck h host rounds hm hsort)
      (fun _ h => Multiverse.run_of_startsBadly hcheck h host rounds)
      fun _ h => Multiverse.run_of_startsBadly hcheck h host.watched rounds
  · have hdimension := Annealing.Settings.checkDimension_eq_ok.mpr hamount
    exact guardedByStart
      (fun h _ _ hm hsort => Annealing.safe_run hcheck hdimension h host rounds hm hsort)
      (fun _ h => Annealing.run_of_startsBadly hcheck hdimension h host rounds)
      fun _ h => Annealing.run_of_startsBadly (m := m.watched) hcheck hdimension h host.watched
        rounds

namespace Interval

theorem startsWell (amount : Nat) : model.StartsWell amount world :=
  Model.startsWell_toModel rfl amount world

/-- The model with starting candidates of another kind. -/
def starting (candidates : Nat → List Position) : Model Random.SplitMix Unit Float :=
  { model with initial := fun amount w => (candidates amount, w) }

/-- A model that gives no candidates. -/
def empty : Model Random.SplitMix Unit Float := starting fun _ => []

/-- A model whose dimension is not the number of its bounds. -/
def planar : Model Random.SplitMix Unit Float := { model with dimension := 2 }

/-- A model whose candidates have no coordinates. -/
def pointless : Model Random.SplitMix Unit Float := starting fun amount => List.replicate amount []

theorem not_startsWell_empty : ¬ empty.StartsWell 3 world := fun h => by cases h.count

theorem not_startsWell_planar : ¬ planar.StartsWell 3 world := fun h => by cases h.dimension

theorem not_startsWell_pointless : ¬ pointless.StartsWell 2 world :=
  fun h => by cases h.lengths [] List.mem_cons_self

/-- A model whose candidates all beat each other. -/
def circular : Model Random.SplitMix Unit Float := { model with compare := fun _ _ => .lt }

/-- A host that refuses whatever it may refuse. -/
def strict : Host Unit := { host with sorting := .strict }

theorem circular_refused :
    ((Swarm.run circular swarm strict 3).exec world).1 = .error (.violation .unorderedComparison) :=
  Run.result_eq_error (by decide +kernel)

theorem circular_startsWell (amount : Nat) : circular.StartsWell amount world := by
  obtain ⟨hcount, hdimension, hlengths⟩ := startsWell amount
  exact ⟨hcount, hdimension, hlengths⟩

end Interval

/-- Runs on the unit interval on a strict machine: three with uniform starting candidates; a swarm
whose particles all beat each other, and which is not sorted; and three that are given no
candidates, a wrong dimension, and candidates without coordinates. -/
theorem checked_runs_guarded_interval :
    (Run.Answers Interval.world (Swarm.run Interval.model Interval.swarm Interval.strict 3) ∧
      Run.Answers Interval.world
        (Multiverse.run Interval.model Interval.multiverse Interval.strict 3) ∧
      Run.Answers Interval.world
        (Annealing.run Interval.model Interval.annealing Interval.strict 3)) ∧
    (∃ w', (Swarm.run Interval.circular Interval.swarm Interval.strict 3).exec Interval.world
        = (.error (.violation .unorderedComparison), w')) ∧
    (Swarm.run Interval.empty.watched Interval.swarm Interval.strict.watched 3).calls
        Interval.world = [] ∧
      (Multiverse.run Interval.planar.watched Interval.multiverse Interval.strict.watched 3).calls
        Interval.world = [] ∧
      (Annealing.run Interval.pointless.watched Interval.annealing Interval.strict.watched 3).calls
        Interval.world = [] := by
  obtain ⟨hswarm, hmultiverse, hannealing⟩ :=
    checked_runs_guarded Interval.model Interval.strict 3 Interval.world
  obtain ⟨hcircular, -, -⟩ :=
    checked_runs_guarded Interval.circular Interval.strict 3 Interval.world
  obtain ⟨hempty, -, -⟩ := checked_runs_guarded Interval.empty Interval.strict 3 Interval.world
  obtain ⟨-, hplanar, -⟩ := checked_runs_guarded Interval.planar Interval.strict 3 Interval.world
  obtain ⟨-, -, hpointless⟩ :=
    checked_runs_guarded Interval.pointless Interval.strict 3 Interval.world
  obtain ⟨_, -, -, hempty⟩ := (hempty Interval.swarm (by decide)).startsBadly
    Interval.not_startsWell_empty
  obtain ⟨_, -, -, hplanar⟩ := (hplanar Interval.multiverse (by decide)).startsBadly
    Interval.not_startsWell_planar
  obtain ⟨_, -, -, hpointless⟩ :=
    (hpointless Interval.annealing (by decide) (by decide)).startsBadly
      Interval.not_startsWell_pointless
  refine ⟨⟨?_, ?_, ?_⟩, ?_, hempty, hplanar, hpointless⟩
  · exact (hswarm Interval.swarm (by decide)).ordered (Interval.startsWell 3) _
      Interval.model_ordered
  · exact (hmultiverse Interval.multiverse (by decide)).ordered (Interval.startsWell 3) _
      Interval.model_ordered
  · exact (hannealing Interval.annealing (by decide) (by decide)).ordered (Interval.startsWell 2) _
      Interval.model_ordered
  · refine ((hcircular Interval.swarm (by decide)).unordered
      (Interval.circular_startsWell 3)).resolve_left ?_
    rintro (⟨o, w', hrun⟩ | ⟨error, w', hrun⟩)
    · cases (congrArg Prod.fst hrun).symm.trans Interval.circular_refused
    · cases (congrArg Prod.fst hrun).symm.trans Interval.circular_refused

end Metaheuristics
