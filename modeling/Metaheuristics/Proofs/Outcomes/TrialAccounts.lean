import Metaheuristics.Proofs.Annealing.Accounting
import Metaheuristics.Proofs.Outcomes.BestOfRun

/-!
# The accounts of annealing

After every trial of a run the counters of the chain and its step are read off the log of the trials
so far: improving moves are accepted moves, every new best is an improving move, and the step has
shrunk once for each (`trials_are_accounted`).  The best point is never worse than the current one,
and the observer can tell from the stagnation which iterations have made the best fitness better.
-/

namespace Metaheuristics

variable {γ σ V : Type} [Random.Source γ]

/-- **The accounts of a run of annealing.**  Every position of the loop and every trial leads to a
moment of the run, the accounts are balanced at each of them, and the outcome and the observer are
told accordingly. -/
theorem trials_are_accounted {P : Option V → Prop} {m : Model γ σ V} (hm : m.Ordered P)
    (settings : Annealing.Settings) (host : Host σ) (w : World γ σ) :
    (∀ stop p v, Annealing.Visits m settings host w stop p v →
      ∃ log, Annealing.Moment m settings host w log p.tracker.iteration 0 p.engine.chain v) ∧
    (∀ p v s trials b u, Annealing.Visits m settings host w false p v →
      Search.verdict host settings.criteria (Annealing.engine m settings host) p v.state
        = .ok s → trials ≤ settings.markovLength →
      (Annealing.trials m settings host.math s.temperature trials ⟨s.chain, #[], false⟩).exec v
        = (.ok b, u) →
      ∃ log, Annealing.Moment m settings host w log p.tracker.iteration trials b.chain u) ∧
    (∀ log iterations trials chain v,
      Annealing.Moment m settings host w log iterations trials chain v →
      Annealing.Accounts m settings log chain ∧
        log.length = iterations * settings.markovLength + trials ∧
        log.countP (·.replaces m) ≤ chain.improvingMoves ∧
        chain.improvingMoves ≤ chain.acceptedMoves ∧ chain.acceptedMoves ≤ log.length) ∧
    (∀ rounds o w', (Annealing.run m settings host rounds).exec w = (.ok (some o), w') →
      o.improvingMoves ≤ o.acceptedMoves ∧
        o.acceptedMoves ≤ o.iterations * settings.markovLength ∧
        ∃ n ≤ o.improvingMoves, o.finalStep = (· * settings.stepDecay)^[n] settings.step) ∧
    ∀ stop p v, Annealing.Visits m.watched settings host.watched w.watched stop p v →
      ∃ s v₀, (Annealing.start m.watched settings host.watched).exec w.watched = (.ok s, v₀) ∧
        (told v.state.2).length = p.tracker.iteration ∧
        ((Tracker.start .standard, some s.chain.best.fitness) :: told v.state.2).IsChain
          (SeesBetter m) := by
  refine ⟨fun stop p v h => ?_, fun p v s trials b u h => h.moment,
    fun log iterations trials chain v h => ?_, fun rounds o w' h => ?_,
    fun stop p v h => Annealing.sees_of_visits hm h⟩
  · obtain ⟨log, hlog⟩ := h.logged
    exact ⟨log, .position hlog⟩
  · have haccounts := Annealing.accounts_of_moment hm h
    exact ⟨haccounts, h.length, haccounts.counts_le⟩
  · obtain ⟨stop, reason, p, hvisits, rfl⟩ := Annealing.visits_of_run h
    obtain ⟨log, hlog⟩ := hvisits.logged
    have haccounts := Annealing.accounts_of_moment hm (.position hlog)
    obtain ⟨hreplaced, himproving, haccepted⟩ := haccounts.counts_le
    rw [hlog.length] at haccepted
    exact ⟨himproving, haccepted, _, hreplaced, haccounts.step⟩

/-- The accounts at the end of a run on the unit interval. -/
theorem trials_are_accounted_interval :
    ∃ o w' log chain, (Annealing.run Interval.model Interval.annealing Interval.host 3).exec
        Interval.world = (.ok (some o), w') ∧ 0 < o.iterations ∧
      Annealing.Moment Interval.model Interval.annealing Interval.host Interval.world log
        o.iterations 0 chain w' ∧
      Annealing.Accounts Interval.model Interval.annealing log chain ∧
      log.length = o.iterations * 3 ∧ o.improvingMoves ≤ o.acceptedMoves := by
  obtain ⟨hpositions, -, hmoments, houtcomes, -⟩ := trials_are_accounted Interval.model_ordered
    Interval.annealing Interval.host Interval.world
  obtain ⟨o, w', hrun, hpos⟩ := Interval.annealing_outcome
  obtain ⟨stop, reason, p, hvisits, rfl⟩ := Annealing.visits_of_run hrun
  obtain ⟨log, hlog⟩ := hpositions stop p w' hvisits
  obtain ⟨haccounts, hlength, -⟩ := hmoments _ _ _ _ _ hlog
  exact ⟨_, w', log, p.engine.chain, hrun, hpos, hlog, haccounts, hlength,
    (houtcomes 3 _ w' hrun).1⟩

end Metaheuristics
