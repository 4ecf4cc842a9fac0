import Mathlib.Logic.Function.Iterate
import Metaheuristics.Proofs.Annealing.Attempts
import Metaheuristics.Proofs.Search.Observing

/-!
# The accounts of a chain

Whether a point improves on the current point and whether it improves on the best one are tested
apart, and only accepted points are looked at for the second.  Since the best point is never worse
than the current one, a point that is better than the best is better than the current one too
(`Attempt.Regular.improves_of_better`).  So every new best is found in an improving trial, and the
counters of the chain and its step are read off the log (`Accounts`).  The accounts are kept by
every trial (`Accounts.next`), hence balanced at every moment of a run (`accounts_of_moment`).
-/

namespace Metaheuristics.Annealing

variable {γ σ V : Type} {P : Option V → Prop} {m : Model γ σ V} {settings : Settings}

/-- **The accounts of a chain** behind which there are the trials of `log`. -/
structure Accounts (m : Model γ σ V) (settings : Settings) (log : List (Attempt V))
    (chain : Chain V) : Prop where
  /-- The best point is not worse than the current one. -/
  best_le : m.compare (some chain.best.fitness) (some chain.current.fitness) ≠ .gt
  accepted : chain.acceptedMoves = log.countP (·.accepted)
  improving : chain.improvingMoves = log.countP (·.improves m)
  /-- The step has shrunk once for each new best. -/
  step : chain.step = (· * settings.stepDecay)^[log.countP (·.replaces m)] settings.step
  accepted_of_improves : ∀ a ∈ log, a.improves m = true → a.accepted = true
  /-- Another best point is a better one. -/
  replaces_iff : ∀ a ∈ log, a.replaces m = true ↔ a.after.best ≠ a.before.best
  /-- A new best is found in an improving trial, which is counted. -/
  counted : ∀ a ∈ log, a.replaces m = true →
    a.improves m = true ∧ a.after.improvingMoves = a.before.improvingMoves + 1

/-- New bests, improving moves, accepted moves and trials are fewer each than the next. -/
theorem Accounts.counts_le {log : List (Attempt V)} {chain : Chain V}
    (h : Accounts m settings log chain) :
    log.countP (·.replaces m) ≤ chain.improvingMoves ∧
      chain.improvingMoves ≤ chain.acceptedMoves ∧ chain.acceptedMoves ≤ log.length := by
  rw [h.accepted, h.improving]
  exact ⟨List.countP_mono_left fun a ha hreplaces => (h.counted a ha hreplaces).1,
    List.countP_mono_left h.accepted_of_improves, List.countP_le_length⟩

/-! ## One trial -/

theorem Chain.accept_eq (m : Model γ σ V) (settings : Settings) (chain : Chain V) (point : Point V)
    (improving : Bool) :
    (chain.accept m settings point improving).1 = {
      current := point
      best := if m.isBetter (some point.fitness) (some chain.best.fitness) then point
        else chain.best
      step := if m.isBetter (some point.fitness) (some chain.best.fitness)
        then chain.step * settings.stepDecay else chain.step
      acceptedMoves := chain.acceptedMoves + 1
      improvingMoves := if improving then chain.improvingMoves + 1 else chain.improvingMoves } := by
  unfold Chain.accept
  simp only
  split_ifs <;> rfl

/-- **A trial with its consequence for the chain.** -/
structure Attempt.Regular (m : Model γ σ V) (settings : Settings) (a : Attempt V) : Prop where
  after : a.after = if a.accepted then (a.before.accept m settings (a.point m) (a.improves m)).1
    else a.before
  accepted_of_improves : a.improves m = true → a.accepted = true

theorem Makes.regular [Random.Source γ] {math : Elementary} {temperature : Float} {b b' : Batch V}
    {w w' : World γ σ} {a : Attempt V} (h : Makes m settings math temperature b w a b' w') :
    a.Regular m settings where
  after := by
    rw [h.chains.2, h.batch, h.chains.1]
    split_ifs <;> rfl
  accepted_of_improves := h.accepted_of_improves

/-- **A chain of points that the model orders**, with its accounts. -/
structure Chain.Balanced (P : Option V → Prop) (m : Model γ σ V) (settings : Settings)
    (log : List (Attempt V)) (chain : Chain V) : Prop where
  best : P (some chain.best.fitness)
  current : P (some chain.current.fitness)
  accounts : Accounts m settings log chain

namespace Attempt.Regular

variable (hm : m.Ordered P) {a : Attempt V} {log : List (Attempt V)}
  (hbefore : a.before.Balanced P m settings log) (hpoint : P (some (a.point m).fitness))
include hm hbefore

theorem isBetter_self : m.isBetter (some a.before.best.fitness) (some a.before.best.fitness)
    = false := by
  rw [Model.isBetter, hm.preorder.refl hbefore.best]
  rfl

theorem replaces_eq (ha : a.Regular m settings) : a.replaces m
    = (a.accepted && m.isBetter (some (a.point m).fitness) (some a.before.best.fitness)) := by
  rw [replaces, ha.after]
  rcases a.accepted with _ | _
  · exact isBetter_self hm hbefore
  · rw [if_pos rfl, Chain.accept_eq, Bool.true_and]
    dsimp only
    split_ifs with hbetter
    · rfl
    · rw [isBetter_self hm hbefore, Bool.eq_false_iff.mpr hbetter]

theorem replaces_iff (ha : a.Regular m settings) :
    a.replaces m = true ↔ a.after.best ≠ a.before.best := by
  constructor
  · intro hreplaces heq
    rw [replaces, heq, isBetter_self hm hbefore] at hreplaces
    cases hreplaces
  · intro hne
    rw [ha.after] at hne
    rw [ha.replaces_eq hm hbefore]
    rcases haccepted : a.accepted with _ | _ <;> rw [haccepted] at hne
    · exact absurd rfl hne
    · rw [if_pos rfl, Chain.accept_eq] at hne
      rw [Bool.true_and]
      by_contra hbetter
      exact hne (if_neg hbetter)

theorem counters (ha : a.Regular m settings) :
    a.after.acceptedMoves = a.before.acceptedMoves + (if a.accepted then 1 else 0) ∧
      a.after.improvingMoves = a.before.improvingMoves + (if a.improves m then 1 else 0) ∧
      a.after.step
        = if a.replaces m then a.before.step * settings.stepDecay else a.before.step := by
  rw [ha.replaces_eq hm hbefore, ha.after]
  rcases haccepted : a.accepted with _ | _
  · have himproves : a.improves m = false := Bool.eq_false_iff.mpr fun h => by
      rw [ha.accepted_of_improves h] at haccepted
      cases haccepted
    rw [himproves]
    exact ⟨rfl, rfl, rfl⟩
  · rw [if_pos rfl, Chain.accept_eq, Bool.true_and]
    refine ⟨rfl, ?_, rfl⟩
    rcases a.improves m with _ | _ <;> rfl

include hpoint

theorem improves_of_better
    (hbetter : m.isBetter (some (a.point m).fitness) (some a.before.best.fitness) = true) :
    a.improves m = true :=
  beq_iff_eq.mpr (hm.preorder.lt_of_lt_of_ne_gt hpoint hbefore.best hbefore.current
    (beq_iff_eq.mp hbetter) hbefore.accounts.best_le)

theorem best_le (ha : a.Regular m settings) :
    m.compare (some a.after.best.fitness) (some a.after.current.fitness) ≠ .gt := by
  rw [ha.after]
  split_ifs
  · rw [Chain.accept_eq]
    dsimp only
    split_ifs with hbetter
    · rw [hm.preorder.refl hpoint]
      decide
    · exact (hm.preorder.ne_gt_iff hbefore.best hpoint).mpr fun hlt =>
        hbetter (beq_iff_eq.mpr hlt)
  · exact hbefore.accounts.best_le

omit hm in
theorem ordered (ha : a.Regular m settings) :
    P (some a.after.best.fitness) ∧ P (some a.after.current.fitness) := by
  rw [ha.after]
  split_ifs
  · rw [Chain.accept_eq]
    dsimp only
    refine ⟨?_, hpoint⟩
    split_ifs
    · exact hpoint
    · exact hbefore.best
  · exact ⟨hbefore.best, hbefore.current⟩

/-- **The accounts after one more trial.** -/
theorem balanced (ha : a.Regular m settings) : a.after.Balanced P m settings (log ++ [a]) := by
  have h := hbefore.accounts
  obtain ⟨hbest, hcurrent⟩ := ha.ordered hbefore hpoint
  obtain ⟨haccepted, himproving, hstep⟩ := ha.counters hm hbefore
  have hall {Q : Attempt V → Prop} (hlog : ∀ a ∈ log, Q a) (hQ : Q a) :
      ∀ a' ∈ log ++ [a], Q a' := by
    intro a' ha'
    rcases List.mem_append.mp ha' with ha' | ha'
    · exact hlog a' ha'
    · rwa [List.mem_singleton.mp ha']
  have hcounted (hreplaces : a.replaces m = true) : a.improves m = true := by
    rw [ha.replaces_eq hm hbefore, Bool.and_eq_true] at hreplaces
    exact improves_of_better hm hbefore hpoint hreplaces.2
  refine ⟨hbest, hcurrent, ha.best_le hm hbefore hpoint, ?_, ?_, ?_,
    hall h.accepted_of_improves ha.accepted_of_improves,
    hall h.replaces_iff (ha.replaces_iff hm hbefore), hall h.counted fun hreplaces => ?_⟩
  · rw [haccepted, h.accepted, List.countP_append, List.countP_singleton]
  · rw [himproving, h.improving, List.countP_append, List.countP_singleton]
  · rw [hstep, h.step, List.countP_append, List.countP_singleton]
    rcases a.replaces m with _ | _
    · rfl
    · exact (Function.iterate_succ_apply' (· * settings.stepDecay) _ _).symm
  · refine ⟨hcounted hreplaces, ?_⟩
    rw [himproving, if_pos (hcounted hreplaces)]

end Attempt.Regular

/-! ## Runs -/

section
variable {host : Host σ} {w v : World γ σ}

theorem balanced_of_start (hm : m.Ordered P) {s : State V}
    (h : (start m settings host).exec w = (.ok s, v)) : s.chain.Balanced P m settings [] := by
  obtain ⟨cs, u, hcs, hgather⟩ := Run.bind_eq_ok.mp h
  obtain ⟨leader, hleader, rfl, -⟩ := gather_eq_ok hgather
  have hP : P (some (m.present leader.fitness)) :=
    hm.present (ordered_of_populate hm hcs leader (Ranking.mem_sort.mp (List.mem_of_head? hleader)))
  refine ⟨hP, hP, ?_, rfl, rfl, rfl, ?_, ?_, ?_⟩
  · show m.compare (some (m.present leader.fitness)) (some (m.present leader.fitness)) ≠ .gt
    rw [hm.preorder.refl hP]
    decide
  all_goals exact List.forall_mem_nil _

variable [Random.Source γ]

/-- **The accounts are balanced at every moment of a run.** -/
theorem accounts_of_moment (hm : m.Ordered P) {log : List (Attempt V)} {iterations trials : Nat}
    {chain : Chain V} (h : Moment m settings host w log iterations trials chain v) :
    Accounts m settings log chain := by
  refine Chain.Balanced.accounts (P := P) (h.invariant (I := Chain.Balanced P m settings)
    (fun s v _ hs => balanced_of_start hm hs) ?_)
  intro log temperature b u a b' u' _ hb hmakes
  rw [← hmakes.chains.1] at hb
  rw [← hmakes.chains.2]
  exact hmakes.regular.balanced hm hb (hm.present (hmakes.ordered hm))

end

/-! ## The observer -/

section
variable [Random.Source γ] {math : Elementary} {temperature : Float} {log : List (Attempt V)}
  {b₀ b : Batch V} {w w' : World γ (σ × List (Call V))} {v : World γ (σ × List (Call V))}

theorem Makes.told {b' : Batch V} {a : Attempt V}
    (h : Makes m.watched settings math temperature b w a b' w') :
    told w'.state.2 = told w.state.2 := by
  obtain ⟨v, v', hevaluate, hv, hw'⟩ := h.evaluates
  rw [hw', Model.told_of_evaluate hevaluate, hv]

theorem Tries.told (h : Tries m.watched settings math temperature b₀ w log b w') :
    told w'.state.2 = told w.state.2 := by
  induction h with
  | start => rfl
  | step _ makes ih => rw [makes.told, ih]

theorem silent {host : Host σ} : (engine m.watched settings host.watched).Silent := by
  intro t s w b v s' better v' hexplore habsorb
  obtain ⟨-, -, rfl⟩ := absorb_eq_ok habsorb
  obtain ⟨log, htries, -⟩ := tries_of_trials .start hexplore
  exact htries.told

omit [Random.Source γ] in
theorem told_of_start {host : Host σ} {s : State V}
    (h : (start m.watched settings host.watched).exec w = (.ok s, v)) :
    told v.state.2 = told w.state.2 := by
  obtain ⟨cs, u, hcs, hgather⟩ := Run.bind_eq_ok.mp h
  obtain ⟨-, -, -, rfl⟩ := gather_eq_ok hgather
  obtain ⟨positions, u', hpositions, hsettle⟩ := Run.bind_eq_ok.mp hcs
  rw [Model.told_of_settle hsettle, Model.told_of_startingPositions hpositions]

theorem better_iff_isBetter (hm : m.Ordered P) {host : Host σ} {w₀ : World γ σ}
    {legs : List (Leg (State V) (Batch V))} {stop : Bool} {p : Progress V (State V)}
    (h : Takes m.watched settings host.watched w₀.watched legs stop p v) :
    ∀ leg ∈ legs, leg.better = true ↔
      m.isBetter (some leg.after.chain.best.fitness) (some leg.before.chain.best.fitness)
        = true := by
  obtain ⟨hcheck, hdimension, s, v₀, hs, hcourse⟩ := h
  have hordered : ∀ leg ∈ legs, P leg.before.record.fitness :=
    hcourse.forall_legs fun _ _ _ _ _ _ _ _ _ hhead _ _ _ =>
      (tracks_of_visits hm ⟨hcheck, hdimension, s, v₀, hs, hhead.reaches⟩).leads.ordered
  intro leg hleg
  have hchallenged : leg.Challenged m State.record challengers :=
    (challenged_of_course hcourse leg hleg).of_watched
  constructor
  · intro hbetter
    exact beq_iff_eq.mpr (hchallenged.replaced hm (hordered leg hleg)
      (ordered_of_course hm.watched hcourse leg hleg) hbetter)
  · intro hlt
    by_contra hbetter
    have hkept : leg.after.record = leg.before.record :=
      Challenged.kept hchallenged (Bool.eq_false_iff.mpr hbetter)
    have hself : m.compare leg.after.record.fitness leg.before.record.fitness = .lt :=
      beq_iff_eq.mp hlt
    rw [hkept, hm.preorder.refl (hordered leg hleg)] at hself
    cases hself

/-- **The observer sees every new best** of a run. -/
theorem sees_of_visits (hm : m.Ordered P) {host : Host σ} {w₀ : World γ σ} {stop : Bool}
    {p : Progress V (State V)}
    (h : Visits m.watched settings host.watched w₀.watched stop p v) :
    ∃ s v₀, (start m.watched settings host.watched).exec w₀.watched = (.ok s, v₀) ∧
      (told v.state.2).length = p.tracker.iteration ∧
      ((Tracker.start .standard, some s.chain.best.fitness) :: told v.state.2).IsChain
        (SeesBetter m) := by
  obtain ⟨legs, htakes⟩ := h.takes
  have hlegs := better_iff_isBetter hm htakes
  obtain ⟨-, -, s, v₀, hs, hcourse⟩ := htakes
  obtain ⟨hlength, -, hchain⟩ := hcourse.told silent (told_of_start hs) hlegs
  refine ⟨s, v₀, hs, ?_, hchain⟩
  rw [hlength, hcourse.iteration]
  exact (Nat.zero_add _).symm

end

end Metaheuristics.Annealing
