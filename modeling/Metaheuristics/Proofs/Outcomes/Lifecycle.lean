import Metaheuristics.Proofs.Annealing.Course
import Metaheuristics.Proofs.Multiverse.Course
import Metaheuristics.Proofs.Outcomes.BestOfRun
import Metaheuristics.Proofs.Swarm.Course

/-!
# The life of a run

What a run that yields an outcome has done, read off the iterations behind its end
(`run_lifecycle`).  The iterations of the outcome, the entries of its history, the calls of `flush`
and the calls of the observer are equally many, and so many candidates have been evaluated at the
start and in each iteration.  A limit on the iterations or on those without a new best is exclusive:
a limit of `n` ends the run with `n + 1` iterations behind the head, at the first head where this is
so.
-/

namespace Metaheuristics

variable {γ σ V S B : Type} {m : Model γ σ V} {host : Host σ} {w : World γ σ} {rounds : Nat}

/-- **The life of a run** with the iterations `legs` and the callbacks `calls`, in which
`candidates` candidates are evaluated. -/
structure Outcome.Lifecycle (m : Model γ σ V) (criteria : StopCriteria) (record : S → Candidate V)
    (challengers : B → List (Candidate V)) (candidates : Nat) (legs : List (Leg S B))
    (calls : List (Call V)) (o : Outcome V) : Prop where
  iterations : o.iterations = legs.length
  history : o.history.length = o.iterations
  flushes : flushes calls = o.iterations
  observations : observations calls = o.iterations
  evaluated : (evaluated calls).length = candidates
  /-- An iteration finds a new best where one of its challengers is better than the record. -/
  challenged : ∀ leg ∈ legs, leg.Challenged m record challengers
  /-- On a model that orders its fitness, the other iterations are those that keep the record. -/
  kept : ∀ P, m.Ordered P → ∀ leg ∈ legs,
    leg.better = false ↔ record leg.after = record leg.before
  iterations_le : ∀ n, criteria.iterationLimit = some n → o.iterations ≤ n + 1
  iterationLimit : o.reason = .iterationLimit →
    ∃ n, criteria.iterationLimit = some n ∧ o.iterations = n + 1
  stagnationLimit : o.reason = .stagnationLimit →
    ∃ n, criteria.stagnationLimit = some n ∧ ∃ earlier last, legs = earlier ++ last ∧
      last.length = n + 1 ∧ ∀ leg ∈ last, leg.better = false ∧ record leg.after = record leg.before
  /-- No head before the last one has a stagnation of `n + 1` iterations behind it. -/
  heads : ∀ n, criteria.stagnationLimit = some n → ∀ earlier last later,
    legs = earlier ++ last ++ later → later ≠ [] → last.length = n + 1 →
      ∃ leg ∈ last, leg.better = true

theorem Search.Ends.lifecycle {K : S → Prop} {pool pace : Nat} {criteria : StopCriteria}
    {e : Engine γ (σ × List (Call V)) V S B} {s : S} {v₀ v : World γ (σ × List (Call V))}
    {legs : List (Leg S B)} {p : Progress V S} {o : Outcome V} {record : S → Candidate V}
    {challengers : B → List (Candidate V)} (hpaced : e.Paced K pace) (hs : K s)
    (hstart : Evaluates pool w.watched v₀)
    (h : Search.Ends host.watched m.watched criteria e (Search.begin s) v₀ legs o.reason p v)
    (hiterations : o.iterations = p.tracker.iteration) (hhistory : o.history = p.history.toList)
    (hchallenges : ∀ {stop}, Search.Course host.watched m.watched criteria e (Search.begin s) v₀
      legs stop p v → ∀ leg ∈ legs, leg.Challenged m.watched record challengers)
    (hkept : ∀ P, m.Ordered P → ∀ leg ∈ legs,
      leg.better = false ↔ record leg.after = record leg.before) :
    o.Lifecycle m criteria record challengers (pool + o.iterations * pace) legs v.state.2 := by
  obtain ⟨stop, hcourse⟩ := h.course
  have hchallenged : ∀ leg ∈ legs, leg.Challenged m record challengers :=
    fun leg hleg => (hchallenges hcourse leg hleg).of_watched
  have hlegs : o.iterations = legs.length := by
    rw [hiterations, hcourse.iteration]
    exact Nat.zero_add _
  have hsize : p.history.size = legs.length := by
    rw [hcourse.history]
    exact Nat.zero_add _
  obtain ⟨-, hevaluated, hflushes, hobservations⟩ := hcourse.tally hpaced hs
  have hevaluated₀ : (evaluated v₀.state.2).length = pool := hstart.evaluated.trans (Nat.zero_add _)
  have hflushes₀ : flushes v₀.state.2 = 0 := hstart.flushes
  have hobservations₀ : observations v₀.state.2 = 0 := hstart.observations
  constructor
  case iterations => exact hlegs
  case history => rw [hhistory, Array.length_toList, hsize, hlegs]
  case flushes => rw [hflushes, hflushes₀, Nat.zero_add, hlegs]
  case observations => rw [hobservations, hobservations₀, Nat.zero_add, hlegs]
  case evaluated => rw [hevaluated, hevaluated₀, hlegs]
  case challenged => exact hchallenged
  case kept => exact hkept
  case iterations_le =>
    intro n hn
    rw [hlegs]
    exact hcourse.iterations_le hn
  case iterationLimit =>
    intro hreason
    rw [hreason] at h
    rw [hlegs]
    exact h.iterationLimit
  case stagnationLimit =>
    intro hreason
    rw [hreason] at h
    obtain ⟨n, hn, earlier, last, rfl, hlength, hlast⟩ := h.stagnationLimit
    refine ⟨n, hn, earlier, last, rfl, hlength, fun leg hleg => ⟨hlast leg hleg, ?_⟩⟩
    exact Challenged.kept (hchallenged leg (List.mem_append_right _ hleg)) (hlast leg hleg)
  case heads =>
    rintro n hn earlier last later rfl hlater hlength
    exact hcourse.better_of_append hlater hn hlength

/-- A run whose ends have a life has one.  `ends` are the ends of the watched run. -/
theorem Run.exists_lifecycle {S B α : Type} {x : Run γ σ (Option α)}
    {y : Run γ (σ × List (Call V)) (Option α)} {f : α → α}
    (hxy : Run.Translates Prod.fst (Option.map f) y x) (hf : ∀ a, f a = a) {T : α → Outcome V}
    {ends : List (Leg S B) → StopReason → Progress V S → World γ (σ × List (Call V)) → Prop}
    {read : StopReason → Progress V S → α} {criteria : StopCriteria} {record : S → Candidate V}
    {challengers : B → List (Candidate V)} {C : Nat → Nat}
    (hends : ∀ {a v}, y.exec w.watched = (.ok (some a), v) →
      ∃ legs p, ends legs (T a).reason p v ∧ a = read (T a).reason p)
    (hlife : ∀ {legs reason p v}, ends legs reason p v → (T (read reason p)).Lifecycle m criteria
      record challengers (C (T (read reason p)).iterations) legs v.state.2)
    {a : α} {w' : World γ σ} (h : x.exec w = (.ok (some a), w')) :
    ∃ legs p v, ends legs (T a).reason p v ∧ a = read (T a).reason p ∧
      (T a).Lifecycle m criteria record challengers (C (T a).iterations) legs
        (y.calls w) := by
  obtain ⟨v, hrun, hcalls⟩ := Run.watched_eq_ok hxy hf h
  obtain ⟨legs, p, hp, ha⟩ := hends hrun
  have hlifecycle := hlife hp
  rw [← ha] at hlifecycle
  exact ⟨legs, p, v, hp, ha, hcalls ▸ hlifecycle⟩

section
variable [Random.Source γ] {v : World γ (σ × List (Call V))} {reason : StopReason}

theorem Swarm.lifecycle_of_ends {settings : Settings}
    {legs : List (Leg (State V) (List (Particle V)))} {p : Progress V (State V)}
    (h : Ends m.watched settings host.watched w.watched legs reason p v) :
    (outcome reason p).Lifecycle m settings.criteria State.best (challengers m)
      (settings.particleAmount * (p.tracker.iteration + 1)) legs v.state.2 := by
  have hkept := fun P (hm : m.Ordered P) => better_iff_of_ends hm h
  obtain ⟨-, s, v₀, hs, hends⟩ := h
  obtain ⟨hstart, hlength⟩ := evaluates_start hs
  rw [Nat.mul_succ, Nat.mul_comm, Nat.add_comm]
  exact hends.lifecycle (o := outcome reason p) paced hlength hstart rfl rfl challenged_of_course
    hkept

theorem Multiverse.lifecycle_of_ends {settings : Settings}
    {legs : List (Leg (State V) (List (Candidate V)))} {p : Progress V (State V)}
    (h : Ends m.watched settings host.watched w.watched legs reason p v) :
    (outcome reason p).Lifecycle m settings.criteria State.best (challengers m)
      (settings.universeAmount * (p.tracker.iteration + 1)) legs v.state.2 := by
  have hkept := fun P (hm : m.Ordered P) => better_iff_of_ends hm h
  obtain ⟨-, s, v₀, hs, hends⟩ := h
  obtain ⟨hstart, hlength⟩ := evaluates_start hs
  rw [Nat.mul_succ, Nat.mul_comm, Nat.add_comm]
  exact hends.lifecycle (o := outcome reason p) paced hlength hstart rfl rfl challenged_of_course
    hkept

theorem Annealing.lifecycle_of_ends {settings : Settings} {legs : List (Leg (State V) (Batch V))}
    {p : Progress V (State V)}
    (h : Ends m.watched settings host.watched w.watched legs reason p v) :
    (outcome reason p).toOutcome.Lifecycle m settings.criteria State.record challengers
      (settings.initialAmount + p.tracker.iteration * settings.markovLength) legs v.state.2 := by
  have hkept := fun P (hm : m.Ordered P) => better_iff_of_ends hm h
  obtain ⟨-, -, s, v₀, hs, hends⟩ := h
  exact hends.lifecycle (o := (outcome reason p).toOutcome) paced trivial (evaluates_start hs) rfl
    rfl challenged_of_course hkept

/-- **The life of every run** with an outcome, and **the end of every run** with a limit on its
iterations. -/
theorem run_lifecycle (m : Model γ σ V) (host : Host σ) (w : World γ σ) (rounds : Nat) :
    (∀ settings : Swarm.Settings,
      (∀ o w', (Swarm.run m settings host rounds).exec w = (.ok (some o), w') →
        ∃ legs p v, Swarm.Ends m.watched settings host.watched w.watched legs o.reason p v ∧
          o = Swarm.outcome o.reason p ∧
          o.Lifecycle m settings.criteria Swarm.State.best (Swarm.challengers m)
            (settings.particleAmount * (o.iterations + 1)) legs
            ((Swarm.run m.watched settings host.watched rounds).calls w)) ∧
      ∀ n, settings.criteria.iterationLimit = some n → n + 1 < rounds →
        ∀ w', (Swarm.run m settings host rounds).exec w ≠ (.ok none, w')) ∧
    (∀ settings : Multiverse.Settings,
      (∀ o w', (Multiverse.run m settings host rounds).exec w = (.ok (some o), w') →
        ∃ legs p v, Multiverse.Ends m.watched settings host.watched w.watched legs o.reason p v ∧
          o = Multiverse.outcome o.reason p ∧
          o.Lifecycle m settings.criteria Multiverse.State.best (Multiverse.challengers m)
            (settings.universeAmount * (o.iterations + 1)) legs
            ((Multiverse.run m.watched settings host.watched rounds).calls w)) ∧
      ∀ n, settings.criteria.iterationLimit = some n → n + 1 < rounds →
        ∀ w', (Multiverse.run m settings host rounds).exec w ≠ (.ok none, w')) ∧
    ∀ settings : Annealing.Settings,
      (∀ o w', (Annealing.run m settings host rounds).exec w = (.ok (some o), w') →
        ∃ legs p v, Annealing.Ends m.watched settings host.watched w.watched legs o.reason p v ∧
          o = Annealing.outcome o.reason p ∧
          o.toOutcome.Lifecycle m settings.criteria Annealing.State.record Annealing.challengers
            (settings.initialAmount + o.iterations * settings.markovLength) legs
            ((Annealing.run m.watched settings host.watched rounds).calls w)) ∧
      ∀ n, settings.criteria.iterationLimit = some n → n + 1 < rounds →
        ∀ w', (Annealing.run m settings host rounds).exec w ≠ (.ok none, w') := by
  refine ⟨fun settings => ⟨?_, ?_⟩, fun settings => ⟨?_, ?_⟩, fun settings => ⟨?_, ?_⟩⟩
  · exact fun o w' h => Run.exists_lifecycle (T := id)
      (C := fun n => settings.particleAmount * (n + 1))
      (Swarm.translates_run settings m.watched_translates host.watched_translates rounds)
      Outcome.map_id Swarm.ends_of_run Swarm.lifecycle_of_ends h
  · exact fun n hn hrounds w' => Swarm.run_ne_none hn hrounds
  · exact fun o w' h => Run.exists_lifecycle (T := id)
      (C := fun n => settings.universeAmount * (n + 1))
      (Multiverse.translates_run settings m.watched_translates host.watched_translates rounds)
      Outcome.map_id Multiverse.ends_of_run Multiverse.lifecycle_of_ends h
  · exact fun n hn hrounds w' => Multiverse.run_ne_none hn hrounds
  · exact fun o w' h => Run.exists_lifecycle (T := Annealing.Outcome.toOutcome)
      (C := fun n => settings.initialAmount + n * settings.markovLength)
      (Annealing.translates_run settings m.watched_translates host.watched_translates rounds)
      Annealing.Outcome.map_id Annealing.ends_of_run Annealing.lifecycle_of_ends h
  · exact fun n hn hrounds w' => Annealing.run_ne_none hn hrounds

end

/-- The life of three runs on the unit interval, which end after two iterations. -/
theorem run_lifecycle_interval :
    (∃ o w' legs, (Swarm.run Interval.model Interval.swarm Interval.host 3).exec Interval.world
        = (.ok (some o), w') ∧
      o.Lifecycle Interval.model Interval.criteria Swarm.State.best
        (Swarm.challengers Interval.model) (3 * (o.iterations + 1)) legs
        ((Swarm.run Interval.model.watched Interval.swarm Interval.host.watched 3).calls
          Interval.world) ∧
      (∀ leg ∈ legs, leg.better = false ↔ leg.after.best = leg.before.best) ∧
      Interval.swarm.criteria.iterationLimit = some 1 ∧ o.iterations ≤ 2 ∧
      ∀ w'', (Swarm.run Interval.model Interval.swarm Interval.host 3).exec Interval.world
        ≠ (.ok none, w'')) ∧
    (∃ o w' legs, (Multiverse.run Interval.model Interval.multiverse Interval.host 3).exec
        Interval.world = (.ok (some o), w') ∧
      o.Lifecycle Interval.model Interval.criteria Multiverse.State.best
        (Multiverse.challengers Interval.model) (3 * (o.iterations + 1)) legs
        ((Multiverse.run Interval.model.watched Interval.multiverse Interval.host.watched 3).calls
          Interval.world) ∧
      (∀ leg ∈ legs, leg.better = false ↔ leg.after.best = leg.before.best) ∧
      Interval.multiverse.criteria.iterationLimit = some 1 ∧ o.iterations ≤ 2 ∧
      ∀ w'', (Multiverse.run Interval.model Interval.multiverse Interval.host 3).exec
        Interval.world ≠ (.ok none, w'')) ∧
    ∃ o w' legs, (Annealing.run Interval.model Interval.annealing Interval.host 3).exec
        Interval.world = (.ok (some o), w') ∧
      o.toOutcome.Lifecycle Interval.model Interval.criteria Annealing.State.record
        Annealing.challengers (2 + o.iterations * 3) legs
        ((Annealing.run Interval.model.watched Interval.annealing Interval.host.watched 3).calls
          Interval.world) ∧
      (∀ leg ∈ legs, leg.better = false ↔ leg.after.record = leg.before.record) ∧
      Interval.annealing.criteria.iterationLimit = some 1 ∧ o.iterations ≤ 2 ∧
      ∀ w'', (Annealing.run Interval.model Interval.annealing Interval.host 3).exec
        Interval.world ≠ (.ok none, w'') := by
  obtain ⟨hswarm, hmultiverse, hannealing⟩ :=
    run_lifecycle Interval.model Interval.host Interval.world 3
  obtain ⟨o₁, w₁, h₁, -⟩ := Interval.swarm_outcome
  obtain ⟨o₂, w₂, h₂, -⟩ := Interval.multiverse_outcome
  obtain ⟨o₃, w₃, h₃, -⟩ := Interval.annealing_outcome
  obtain ⟨legs₁, -, -, -, -, hlife₁⟩ := (hswarm Interval.swarm).1 o₁ w₁ h₁
  obtain ⟨legs₂, -, -, -, -, hlife₂⟩ := (hmultiverse Interval.multiverse).1 o₂ w₂ h₂
  obtain ⟨legs₃, -, -, -, -, hlife₃⟩ := (hannealing Interval.annealing).1 o₃ w₃ h₃
  refine ⟨⟨o₁, w₁, legs₁, h₁, hlife₁, ?_, rfl, hlife₁.iterations_le 1 rfl, ?_⟩,
    ⟨o₂, w₂, legs₂, h₂, hlife₂, ?_, rfl, hlife₂.iterations_le 1 rfl, ?_⟩,
    ⟨o₃, w₃, legs₃, h₃, hlife₃, ?_, rfl, hlife₃.iterations_le 1 rfl, ?_⟩⟩
  · exact hlife₁.kept _ Interval.model_ordered
  · exact (hswarm Interval.swarm).2 1 rfl (by decide)
  · exact hlife₂.kept _ Interval.model_ordered
  · exact (hmultiverse Interval.multiverse).2 1 rfl (by decide)
  · exact hlife₃.kept _ Interval.model_ordered
  · exact (hannealing Interval.annealing).2 1 rfl (by decide)

end Metaheuristics
