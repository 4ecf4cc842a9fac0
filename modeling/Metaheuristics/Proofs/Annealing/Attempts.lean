import Metaheuristics.Proofs.Annealing.Moves
import Metaheuristics.Proofs.Annealing.Pool

/-!
# The log of a chain

All trials of a run, in their order: the chain before and after each, the position that was tried,
what its evaluation gave, and whether it was accepted (`Attempt`).  A log is kept through the trials
of an iteration (`Tries`) and through a run (`Logged`); every position of the loop has one
(`Visits.logged`).

A run has moments that are no positions of the loop, after each trial of an iteration (`Moment`).
What holds of the chain at the start and is kept by every trial holds at every moment of a run
(`Moment.invariant`).
-/

namespace Metaheuristics.Annealing

variable {γ σ V : Type}

/-! ## Attempts -/

/-- **A trial that has been made.** -/
structure Attempt (V : Type) where
  /-- The chain before the trial. -/
  before : Chain V
  /-- The chain after the trial. -/
  after : Chain V
  /-- The position that was tried. -/
  position : Position
  /-- The fitness of the position, absent where it could not be evaluated. -/
  fitness : Option V
  accepted : Bool

namespace Attempt

/-- The candidate that was evaluated. -/
def candidate (a : Attempt V) : Candidate V := ⟨a.position, a.fitness⟩

/-- The point that was tried. -/
def point (m : Model γ σ V) (a : Attempt V) : Point V := ⟨a.position, m.present a.fitness⟩

/-- Whether the point is better than the current one. -/
def improves (m : Model γ σ V) (a : Attempt V) : Bool :=
  m.isBetter (some (a.point m).fitness) (some a.before.current.fitness)

/-- Whether the best point is a better one after the trial than before. -/
def replaces (m : Model γ σ V) (a : Attempt V) : Bool :=
  m.isBetter (some a.after.best.fitness) (some a.before.best.fitness)

theorem point_eq {a : Attempt V} {value : V} (h : a.fitness = some value) (m : Model γ σ V) :
    a.point m = ⟨a.position, value⟩ := by
  rw [point, h]
  rfl

/-- A point has a value if it is accepted, provided that no point without one is. -/
theorem exists_value {a : Attempt V} (h : a.fitness = none → a.accepted = false)
    (haccepted : a.accepted = true) : ∃ value, a.fitness = some value := by
  refine Option.ne_none_iff_exists'.mp fun habsent => ?_
  rw [h habsent] at haccepted
  cases haccepted

end Attempt

/-- The accepted points of a log. -/
def acceptedPoints (m : Model γ σ V) (log : List (Attempt V)) : List (Candidate V) :=
  (log.filter (·.accepted)).map fun a => (a.point m).toCandidate

theorem acceptedPoints_append (m : Model γ σ V) (log log' : List (Attempt V)) :
    acceptedPoints m (log ++ log') = acceptedPoints m log ++ acceptedPoints m log' := by
  rw [acceptedPoints, List.filter_append, List.map_append]
  rfl

/-! ## Trials -/

/-- The batch after a position has been tried. -/
def Batch.tried (m : Model γ σ V) (settings : Settings) (b : Batch V) (x : Position)
    (fitness : Option V) (accepted : Bool) : Batch V :=
  if accepted then
    b.accept m settings ⟨x, m.present fitness⟩
      (m.isBetter (some (m.present fitness)) (some b.chain.current.fitness))
  else b

variable [Random.Source γ]

/-- **One trial with its record.** -/
inductive Makes (m : Model γ σ V) (settings : Settings) (math : Elementary) (temperature : Float)
    (b : Batch V) (w : World γ σ) : Attempt V → Batch V → World γ σ → Prop
  | intro {x v fitness v' accepted w'}
      (perturbs : (perturb settings m.bounds b.chain.step b.chain.current.position).exec w
        = (.ok x, v))
      (evaluates : (Run.tryCall (m.evaluate x)).exec v = (.ok fitness, v'))
      (decides : (accepts m math temperature
        (m.isBetter (some (m.present fitness)) (some b.chain.current.fitness))
        b.chain.current.fitness (m.present fitness)).exec v' = (.ok accepted, w')) :
      Makes m settings math temperature b w
        ⟨b.chain, (b.tried m settings x fitness accepted).chain, x, fitness, accepted⟩
        (b.tried m settings x fitness accepted) w'

/-- **Some trials with their records**, from the batch `b₀` on. -/
inductive Tries (m : Model γ σ V) (settings : Settings) (math : Elementary) (temperature : Float)
    (b₀ : Batch V) (w₀ : World γ σ) : List (Attempt V) → Batch V → World γ σ → Prop
  | start : Tries m settings math temperature b₀ w₀ [] b₀ w₀
  | step {log b w a b' w'} (earlier : Tries m settings math temperature b₀ w₀ log b w)
      (makes : Makes m settings math temperature b w a b' w') :
      Tries m settings math temperature b₀ w₀ (log ++ [a]) b' w'

section
variable {m : Model γ σ V} {settings : Settings} {math : Elementary} {temperature : Float}
  {b₀ b b' : Batch V} {w₀ w w' : World γ σ} {a : Attempt V} {log : List (Attempt V)}

theorem makes_of_trial (h : (trial m settings math temperature b).exec w = (.ok b', w')) :
    ∃ a, Makes m settings math temperature b w a b' w' := by
  obtain ⟨x, v, fitness, v', accepted, hperturb, hevaluate, hdecide, rfl⟩ := trial_eq_ok h
  exact ⟨_, .intro hperturb hevaluate hdecide⟩

theorem tries_of_trials {amount : Nat}
    (hlog : Tries m settings math temperature b₀ w₀ log b w)
    (h : (trials m settings math temperature amount b).exec w = (.ok b', w')) :
    ∃ more, Tries m settings math temperature b₀ w₀ (log ++ more) b' w' ∧
      more.length = amount := by
  induction amount generalizing b w log with
  | zero =>
    obtain ⟨rfl, rfl⟩ := Run.pure_eq_ok.mp h
    exact ⟨[], by rwa [List.append_nil], rfl⟩
  | succ amount ih =>
    obtain ⟨b'', v, htrial, h⟩ := Run.bind_eq_ok.mp h
    obtain ⟨a, ha⟩ := makes_of_trial htrial
    obtain ⟨more, hmore, hlength⟩ := ih (hlog.step ha) h
    refine ⟨a :: more, ?_, congrArg (· + 1) hlength⟩
    rwa [List.append_assoc] at hmore

namespace Makes

variable (h : Makes m settings math temperature b w a b' w')
include h

theorem chains : a.before = b.chain ∧ a.after = b'.chain := by
  cases h
  exact ⟨rfl, rfl⟩

theorem batch : b' = if a.accepted then b.accept m settings (a.point m) (a.improves m) else b := by
  cases h
  rfl

theorem current (haccepted : a.accepted = true) : b'.chain.current = a.point m := by
  rw [h.batch, if_pos haccepted]
  exact (Batch.accept_eq m settings b _ _).2.1

theorem accepted : b'.accepted.toList = b.accepted.toList ++ acceptedPoints m [a] := by
  rw [h.batch]
  rcases haccepted : a.accepted with _ | _
  · simp [acceptedPoints, haccepted]
  · rw [if_pos rfl, (Batch.accept_eq m settings b _ _).1, Array.toList_push]
    simp [acceptedPoints, haccepted]

theorem accepted_of_improves (himproves : a.improves m = true) : a.accepted = true := by
  cases h with
  | intro _ _ decides =>
    exact ((ensures_accepts (I := fun _ => True) m math temperature _ _ _).of_ok trivial
      decides).2 himproves

theorem ordered {P : Option V → Prop} (hm : m.Ordered P) : P a.fitness := by
  cases h with
  | intro _ evaluates _ => exact hm.tryCall_evaluate evaluates

end Makes

theorem Makes.evaluates (h : Makes m settings math temperature b w a b' w') :
    ∃ v v' : World γ σ, (Run.tryCall (m.evaluate a.position)).exec v = (.ok a.fitness, v') ∧
      v.state = w.state ∧ w'.state = v'.state := by
  cases h with
  | @intro x v fitness v' accepted w' perturbs evaluates decides =>
    refine ⟨v, v', evaluates, ?_, ?_⟩
    · exact Run.Ensures.state_eq
        (fun I => ensures_perturb m.bounds b.chain.step b.chain.current.position) perturbs
    · exact Run.Ensures.state_eq
        (fun I => ensures_accepts (I := I) m math temperature _ _ _) decides

/-- A watched trial evaluates one candidate. -/
theorem Makes.evaluated {w w' : World γ (σ × List (Call V))}
    (h : Makes m.watched settings math temperature b w a b' w') :
    evaluated w'.state.2 = evaluated w.state.2 ++ [a.candidate] := by
  obtain ⟨v, v', hevaluate, hv, hw'⟩ := h.evaluates
  rw [hw', Model.tryCall_evaluate_eq_ok hevaluate, hv]
  rfl

theorem Makes.objective_mem {w w' : World γ (σ × List (Call V))}
    (h : Makes m.watched settings math temperature b w a b' w') {value : V}
    (hvalue : a.fitness = some value) :
    Call.objective a.position (.ok (some value)) ∈ w'.state.2 := by
  rw [← mem_evaluated_some, h.evaluated, Attempt.candidate, hvalue]
  exact List.mem_append_right _ (List.mem_singleton_self _)

theorem Tries.accepted (h : Tries m settings math temperature b₀ w₀ log b w) :
    b.accepted.toList = b₀.accepted.toList ++ acceptedPoints m log := by
  induction h with
  | start => exact (List.append_nil _).symm
  | step _ makes ih =>
    rw [makes.accepted, ih, acceptedPoints_append, List.append_assoc]

theorem Tries.evaluated {w₀ w : World γ (σ × List (Call V))}
    (h : Tries m.watched settings math temperature b₀ w₀ log b w) :
    evaluated w.state.2 = evaluated w₀.state.2 ++ log.map Attempt.candidate := by
  induction h with
  | start => exact (List.append_nil _).symm
  | step _ makes ih =>
    rw [makes.evaluated, ih, List.map_append, List.append_assoc]
    rfl

end

/-! ## Runs -/

/-- **The positions of the loop in a run** that begins in the world `w`, with the log of all trials
behind them. -/
inductive Logged (m : Model γ σ V) (settings : Settings) (host : Host σ) (w : World γ σ) :
    List (Attempt V) → (stop : Bool) → Progress V (State V) → World γ σ → Prop
  | start {s v} (checks : settings.check = .ok ())
      (fits : settings.checkDimension m.dimension = .ok ())
      (starts : (start m settings host).exec w = (.ok s, v)) :
      Logged m settings host w [] false (Search.begin s) v
  | step {log p v s as b u u' stop w'} (head : Logged m settings host w log false p v)
      (enters : Search.verdict host settings.criteria (engine m settings host) p v.state
        = .ok s)
      (tries : Tries m settings host.math s.temperature ⟨s.chain, #[], false⟩ v as b u)
      (complete : as.length = settings.markovLength)
      (flushes : (Run.call m.flush).exec u = (.ok (), u'))
      (observes : (Run.call (m.observe (p.tracker.next b.better) (some b.chain.best.fitness))).exec
        u' = (.ok stop, w')) :
      Logged m settings host w (log ++ as) stop
        ⟨p.tracker.next b.better, s.absorbed m settings b, p.history.push b.chain.best.fitness⟩ w'

/-- **The moments of a run** that begins in the world `w`: the positions of the loop, and those
after each trial of an iteration.  They come with the log of all trials so far, the number of
completed iterations, and the number of trials since. -/
inductive Moment (m : Model γ σ V) (settings : Settings) (host : Host σ) (w : World γ σ) :
    List (Attempt V) → (iterations trials : Nat) → Chain V → World γ σ → Prop
  | position {log stop p v} (logged : Logged m settings host w log stop p v) :
      Moment m settings host w log p.tracker.iteration 0 p.engine.chain v
  | trial {log p v s as b u} (head : Logged m settings host w log false p v)
      (enters : Search.verdict host settings.criteria (engine m settings host) p v.state
        = .ok s)
      (tries : Tries m settings host.math s.temperature ⟨s.chain, #[], false⟩ v as b u)
      (within : as.length ≤ settings.markovLength) :
      Moment m settings host w (log ++ as) p.tracker.iteration as.length b.chain u

section
variable {m : Model γ σ V} {settings : Settings} {host : Host σ} {w v : World γ σ} {stop : Bool}
  {p : Progress V (State V)} {log : List (Attempt V)}

/-- **Every position of the loop has a log.** -/
theorem Visits.logged (h : Visits m settings host w stop p v) :
    ∃ log, Logged m settings host w log stop p v := by
  obtain ⟨hcheck, hdimension, s, v₀, hs, hreaches⟩ := h
  induction hreaches with
  | start => exact ⟨[], .start hcheck hdimension hs⟩
  | step _ enters iterates ih =>
    obtain ⟨log, hlog⟩ := ih
    obtain ⟨b, u, s', better, u', hexplore, habsorb, rfl, v', hflush, hobserve⟩ :=
      Search.iterate_eq_ok iterates
    obtain ⟨rfl, rfl, rfl⟩ := absorb_eq_ok habsorb
    obtain ⟨as, htries, hlength⟩ := tries_of_trials .start hexplore
    exact ⟨log ++ as, hlog.step enters htries hlength hflush hobserve⟩

/-- **Every trial of an iteration leads to a moment**, also where a later one fails. -/
theorem Visits.moment {s : State V} {trials : Nat} {b : Batch V} {u : World γ σ}
    (h : Visits m settings host w false p v)
    (henters : Search.verdict host settings.criteria (engine m settings host) p v.state
      = .ok s) (hwithin : trials ≤ settings.markovLength)
    (htrials : (Annealing.trials m settings host.math s.temperature trials
      ⟨s.chain, #[], false⟩).exec v = (.ok b, u)) :
    ∃ log, Moment m settings host w log p.tracker.iteration trials b.chain u := by
  obtain ⟨log, hlog⟩ := h.logged
  obtain ⟨as, htries, rfl⟩ := tries_of_trials .start htrials
  exact ⟨log ++ as, .trial hlog henters htries hwithin⟩

/-- A state in which an iteration begins has the chain of the head, at a temperature above the
floor. -/
theorem enters_eq {s : State V}
    (h : Search.verdict host settings.criteria (engine m settings host) p v.state = .ok s) :
    s.chain = p.engine.chain ∧ ¬ s.temperature ≤ settings.finalTemperature := by
  have henter : cool settings p.tracker.iteration p.engine = some s := Search.enter_of_verdict h
  refine ⟨(cool_eq_some henter).1, ?_⟩
  unfold cool at henter
  simp only at henter
  split_ifs at henter with hfloor
  rw [← Option.some.inj henter]
  exact hfloor

/-- **A trial comes next** in a run that begins in the world `w`, at some temperature and with the
batch `b` of the trials of the iteration before it. -/
def Poised (m : Model γ σ V) (settings : Settings) (host : Host σ) (w : World γ σ)
    (temperature : Float) (b : Batch V) (u : World γ σ) : Prop :=
  ∃ p v s trials, Visits m settings host w false p v ∧
    Search.verdict host settings.criteria (engine m settings host) p v.state = .ok s ∧
    s.temperature = temperature ∧ trials < settings.markovLength ∧
    (Annealing.trials m settings host.math temperature trials ⟨s.chain, #[], false⟩).exec v
      = (.ok b, u)

theorem Poised.moment {temperature : Float} {b : Batch V} {u : World γ σ}
    (h : Poised m settings host w temperature b u) :
    settings.check = .ok () ∧ ¬ temperature ≤ settings.finalTemperature ∧
      ∃ log iterations trials, Moment m settings host w log iterations trials b.chain u := by
  obtain ⟨p, v, s, trials, hvisits, henters, rfl, hlt, htrials⟩ := h
  obtain ⟨log, hlog⟩ := hvisits.moment henters hlt.le htrials
  exact ⟨hvisits.1, (enters_eq henters).2, log, _, _, hlog⟩

/-! ## Lengths -/

theorem Logged.length (h : Logged m settings host w log stop p v) :
    log.length = p.tracker.iteration * settings.markovLength := by
  induction h with
  | start => exact (Nat.zero_mul _).symm
  | step _ _ _ complete _ _ ih =>
    rw [List.length_append, ih, complete]
    exact (Nat.succ_mul _ _).symm

theorem Moment.length {iterations trials : Nat} {chain : Chain V}
    (h : Moment m settings host w log iterations trials chain v) :
    log.length = iterations * settings.markovLength + trials := by
  cases h with
  | position logged => exact logged.length
  | trial head _ _ _ => rw [List.length_append, head.length]

/-! ## Invariants -/

section
variable {I : List (Attempt V) → Chain V → Prop}
  (hstart : ∀ (s : State V) (v : World γ σ), settings.check = .ok () →
    (Annealing.start m settings host).exec w = (.ok s, v) → I [] s.chain)
  (hstep : ∀ (log : List (Attempt V)) (temperature : Float) (b : Batch V) (u : World γ σ)
    (a : Attempt V) (b' : Batch V) (u' : World γ σ), ¬ temperature ≤ settings.finalTemperature →
    I log b.chain → Makes m settings host.math temperature b u a b' u' →
    I (log ++ [a]) b'.chain)
include hstep

theorem Tries.invariant {temperature : Float} {b₀ b : Batch V} {u₀ u : World γ σ}
    {earlier as : List (Attempt V)} (htemperature : ¬ temperature ≤ settings.finalTemperature)
    (hb₀ : I earlier b₀.chain) (h : Tries m settings host.math temperature b₀ u₀ as b u) :
    I (earlier ++ as) b.chain := by
  induction h with
  | start => rwa [List.append_nil]
  | step _ makes ih =>
    rw [← List.append_assoc]
    exact hstep _ _ _ _ _ _ _ htemperature ih makes

include hstart

theorem Logged.invariant (h : Logged m settings host w log stop p v) : I log p.engine.chain := by
  induction h with
  | start checks _ starts => exact hstart _ _ checks starts
  | step _ enters tries _ _ _ ih =>
    obtain ⟨hchain, htemperature⟩ := enters_eq enters
    exact tries.invariant hstep htemperature (by rwa [hchain])

/-- **What every trial keeps** holds at every moment of a run. -/
theorem Moment.invariant {iterations trials : Nat} {chain : Chain V}
    (h : Moment m settings host w log iterations trials chain v) : I log chain := by
  cases h with
  | position logged => exact logged.invariant hstart hstep
  | trial head enters tries _ =>
    obtain ⟨hchain, htemperature⟩ := enters_eq enters
    refine tries.invariant hstep htemperature ?_
    rw [hchain]
    exact head.invariant hstart hstep

end

theorem Logged.elite (h : Logged m settings host w log stop p v) :
    ∃ cs v₀, (populate m settings).exec w = (.ok cs, v₀) ∧
      p.engine.elite ⊆ cs ++ acceptedPoints m log := by
  induction h with
  | start _ _ starts =>
    obtain ⟨cs, v₀, hcs, hgather⟩ := Run.bind_eq_ok.mp starts
    obtain ⟨leader, -, rfl, -⟩ := gather_eq_ok hgather
    refine ⟨cs, v₀, hcs, fun c hc => List.mem_append_left _ ?_⟩
    exact Ranking.mem_sort.mp (List.mem_of_mem_take hc)
  | @step log p v s as b u u' stop w' _ enters tries _ _ _ ih =>
    obtain ⟨cs, v₀, hcs, helite⟩ := ih
    have hs : s.elite = p.engine.elite := (cool_eq_some (Search.enter_of_verdict enters)).2
    refine ⟨cs, v₀, hcs, fun c hc => ?_⟩
    rw [acceptedPoints_append, ← List.append_assoc]
    rcases Elite.mem_of_mem_refresh hc with hc | hc
    · rw [hs] at hc
      exact List.mem_append_left _ (helite hc)
    · refine List.mem_append_right _ ?_
      have hmem : c ∈ b.accepted.toList := Ranking.mem_sort.mp (List.mem_of_mem_take hc)
      rw [tries.accepted] at hmem
      simpa using hmem

end

/-! ## Watched runs -/

section
variable {m : Model γ σ V} {settings : Settings} {host : Host σ} {w : World γ σ} {stop : Bool}
  {p : Progress V (State V)} {log : List (Attempt V)} {v : World γ (σ × List (Call V))}

/-- **All candidates of a log have been evaluated**, in their order, after those of the start. -/
theorem Logged.evaluated
    (h : Logged m.watched settings host.watched w.watched log stop p v) :
    ∃ s v₀, (Annealing.start m.watched settings host.watched).exec w.watched = (.ok s, v₀) ∧
      evaluated v.state.2 = evaluated v₀.state.2 ++ log.map Attempt.candidate := by
  induction h with
  | start _ _ starts => exact ⟨_, _, starts, (List.append_nil _).symm⟩
  | step _ _ tries _ flushes observes ih =>
    obtain ⟨s, v₀, hs, hevaluated⟩ := ih
    refine ⟨s, v₀, hs, ?_⟩
    rw [Search.evaluated_of_tells flushes observes, tries.evaluated, hevaluated, List.map_append,
      List.append_assoc]

theorem Moment.evaluated {iterations trials : Nat} {chain : Chain V}
    (h : Moment m.watched settings host.watched w.watched log iterations trials chain v) :
    ∃ s v₀, (Annealing.start m.watched settings host.watched).exec w.watched = (.ok s, v₀) ∧
      evaluated v.state.2 = evaluated v₀.state.2 ++ log.map Attempt.candidate := by
  cases h with
  | position logged => exact logged.evaluated
  | trial head _ tries _ =>
    obtain ⟨s, v₀, hs, hevaluated⟩ := head.evaluated
    exact ⟨s, v₀, hs, by rw [tries.evaluated, hevaluated, List.map_append, List.append_assoc]⟩

theorem Moment.objective_mem {iterations trials : Nat} {chain : Chain V} {a : Attempt V} {value : V}
    (h : Moment m.watched settings host.watched w.watched log iterations trials chain v)
    (ha : a ∈ log) (hvalue : a.fitness = some value) :
    Call.objective a.position (.ok (some value)) ∈ v.state.2 := by
  obtain ⟨s, v₀, -, hevaluated⟩ := h.evaluated
  rw [← mem_evaluated_some, hevaluated, ← hvalue]
  exact List.mem_append_right _ (List.mem_map_of_mem (f := Attempt.candidate) ha)

end

end Metaheuristics.Annealing
