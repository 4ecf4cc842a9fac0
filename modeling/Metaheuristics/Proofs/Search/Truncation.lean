import Metaheuristics.Proofs.Search.Challenges
import Metaheuristics.Proofs.Search.Endings

/-!
# Searches under a smaller iteration limit

A head of the loop looks at the iteration limit before anything else, and no other part of the loop
looks at it.  So of two searches that differ in their iteration limit only, the one with the smaller
limit is the beginning of the other one (`loop_withIterationLimit`): it ends where the other one
ends, or at the head behind which its limit is passed, and from there the other one goes on
(`Truncated`).  Without a time limit this holds also when the two searches see different clocks.

What lies behind a head is not changed by what comes later: the history only grows
(`Course.history_append`), and the record never gets worse (`Course.record_le`).
-/

namespace Metaheuristics

/-- The host with another clock. -/
def Host.withClock {σ : Type} (host : Host σ) (clock : σ → Duration) : Host σ :=
  { host with elapsed := clock }

namespace Tracker

variable {t : Tracker} {criteria : StopCriteria} {elapsed : Duration}

theorem stopReason_withIterationLimit (n : Nat) :
    t.stopReason (criteria.withIterationLimit n) elapsed =
      if n < t.iteration then some .iterationLimit
      else t.stopReason { criteria with iterationLimit := none } elapsed := by
  unfold stopReason StopCriteria.withIterationLimit
  by_cases hn : n < t.iteration
  · simp [hn]
  · simp [hn]

theorem stopReason_of_timeLimit (h : criteria.timeLimit = none) (elapsed elapsed' : Duration) :
    t.stopReason criteria elapsed = t.stopReason criteria elapsed' := by
  unfold stopReason
  rw [h]
  rfl

end Tracker

namespace Search

variable {γ σ V S B : Type} {host : Host σ} {m : Model γ σ V} {criteria : StopCriteria}
  {e : Engine γ σ V S B} {p₀ p : Progress V S} {w₀ w w' : World γ σ} {legs : List (Leg S B)}
  {stop : Bool}

/-! ## What is not changed later -/

theorem Course.history_append (h : Course host m criteria e p₀ w₀ legs stop p w) :
    ∃ later, p.history.toList = p₀.history.toList ++ later ∧ later.length = legs.length := by
  induction h with
  | start => exact ⟨[], (List.append_nil _).symm, rfl⟩
  | @step legs p w s b v s' better v' u stop w' _ _ _ _ _ _ ih =>
    obtain ⟨later, hlater, hlength⟩ := ih
    refine ⟨later ++ [m.present (e.best s')], ?_, ?_⟩
    · rw [Array.toList_push, hlater, List.append_assoc]
    · rw [List.length_append, List.length_append, hlength]
      rfl

theorem Course.record_le {P : Option V → Prop} (hm : m.Ordered P) {record : S → Candidate V}
    {challengers : B → List (Candidate V)}
    (h : Course host m criteria e p₀ w₀ legs stop p w)
    (hchallenged : ∀ leg ∈ legs, leg.Challenged m record challengers)
    (hordered : ∀ leg ∈ legs, ∀ c ∈ challengers leg.batch, P c.fitness)
    (hp₀ : P (record p₀.engine).fitness) :
    P (record p.engine).fitness ∧
      m.compareCandidates (record p.engine) (record p₀.engine) ≠ .gt := by
  induction h with
  | start =>
    refine ⟨hp₀, ?_⟩
    rw [hm.candidates.refl hp₀]
    decide
  | @step legs p w s b v s' better v' u stop w' _ _ _ _ _ _ ih =>
    have hlast : ⟨p.engine, b, s', better⟩ ∈ legs ++ [⟨p.engine, b, s', better⟩] :=
      List.mem_append_right _ (List.mem_singleton_self _)
    obtain ⟨hbefore, hle⟩ := ih (fun leg hleg => hchallenged leg (List.mem_append_left _ hleg))
      fun leg hleg => hordered leg (List.mem_append_left _ hleg)
    have hwinner : record s' = (challengers b).foldl (preferred m.compareCandidates)
        (record p.engine) := (hchallenged _ hlast).winner
    obtain ⟨hafter, hlater, -⟩ := foldl_preferred_le hm.candidates hbefore (hordered _ hlast)
    rw [← hwinner] at hafter hlater
    exact ⟨hafter, hm.candidates.trans _ _ _ hafter hbefore hp₀ hlater hle⟩

/-! ## The smaller limit -/

section
variable {n n' : Nat} (clock : σ → Duration)

theorem verdict_withIterationLimit (hle : n ≤ n') (htime : criteria.timeLimit = none)
    (p : Progress V S) (state : σ) :
    verdict (host.withClock clock) (criteria.withIterationLimit n) e p state =
      if n < p.tracker.iteration then .error .iterationLimit
      else verdict host (criteria.withIterationLimit n') e p state := by
  unfold verdict
  rw [Tracker.stopReason_withIterationLimit, Tracker.stopReason_withIterationLimit]
  by_cases hn : n < p.tracker.iteration
  · rw [if_pos hn, if_pos hn]
  · have hn' : ¬ n' < p.tracker.iteration := by omega
    have htime' : { criteria with iterationLimit := none }.timeLimit = none := htime
    rw [if_neg hn, if_neg hn, if_neg hn',
      Tracker.stopReason_of_timeLimit htime' _ (host.elapsed state)]
    rfl

/-- **A search cut short**: it ends at `q`, no later than its limit of `n` iterations allows, and
the search that ends at `p` goes on from there. -/
structure Truncated (host : Host σ) (m : Model γ σ V) (criteria : StopCriteria)
    (e : Engine γ σ V S B) (n : Nat) (reason : StopReason) (q : Progress V S) (v : World γ σ)
    (reason' : StopReason) (p : Progress V S) (w : World γ σ) : Prop where
  goes_on : ∃ legs stop, Course host m criteria e q v legs stop p w
  iteration_le : q.tracker.iteration ≤ n + 1
  same : q.tracker.iteration = n + 1 ∨ reason = reason' ∧ q = p

theorem Truncated.iteration {reason reason' : StopReason} {q : Progress V S} {v : World γ σ}
    (h : Truncated host m criteria e n reason q v reason' p w) :
    q.tracker.iteration = min (n + 1) p.tracker.iteration := by
  obtain ⟨legs, stop, hcourse⟩ := h.goes_on
  have hiteration := hcourse.iteration
  have hle := h.iteration_le
  rcases h.same with hlimit | ⟨-, rfl⟩ <;> omega

theorem Truncated.history {reason reason' : StopReason} {q : Progress V S} {v : World γ σ}
    (h : Truncated host m criteria e n reason q v reason' p w)
    (hq : q.history.size = q.tracker.iteration) :
    q.history.toList = p.history.toList.take (n + 1) := by
  obtain ⟨legs, stop, hcourse⟩ := h.goes_on
  obtain ⟨later, hlater, -⟩ := hcourse.history_append
  have hlength : q.history.toList.length = q.tracker.iteration := hq
  rcases h.same with hlimit | ⟨-, rfl⟩
  · rw [hlater, List.take_append_of_le_length (by omega), List.take_of_length_le (by omega)]
  · exact (List.take_of_length_le (by have hle := h.iteration_le; omega)).symm

/-- **The loop under the smaller limit** ends where the other one ends, or on its way there. -/
theorem loop_withIterationLimit (hle : n ≤ n') (htime : criteria.timeLimit = none)
    {rounds : Nat} {p p' : Progress V S} {reason' : StopReason}
    (hp : p.tracker.iteration ≤ n + 1)
    (h : (loop host m (criteria.withIterationLimit n') e rounds p).exec w
      = (.ok (some (reason', p')), w')) :
    ∃ reason q v, (loop (host.withClock clock) m (criteria.withIterationLimit n) e rounds p).exec w
        = (.ok (some (reason, q)), v) ∧
      Truncated host m (criteria.withIterationLimit n') e n reason q v reason' p' w' := by
  induction rounds generalizing p w with
  | zero => cases (Run.pure_eq_ok.mp h).1
  | succ rounds ih =>
    have hverdict :
        verdict (host.withClock clock) (criteria.withIterationLimit n) e p w.state = _ :=
      verdict_withIterationLimit clock hle htime p w.state
    by_cases hn : n < p.tracker.iteration
    · -- the smaller limit is passed at this head, from which the other loop goes on
      rw [if_pos hn] at hverdict
      have hstops : (loop (host.withClock clock) m (criteria.withIterationLimit n) e (rounds + 1)
          p).exec w = (.ok (some (.iterationLimit, p)), w) := loop_of_reason hverdict
      refine ⟨_, p, w, hstops, ?_, hp, Or.inl (by omega)⟩
      rcases reaches_of_loop .start h with ⟨hreaches, -⟩ | ⟨hreaches, -⟩
      · obtain ⟨legs, hlegs⟩ := hreaches.course
        exact ⟨legs, false, hlegs⟩
      · obtain ⟨legs, hlegs⟩ := hreaches.course
        exact ⟨legs, true, hlegs⟩
    · rw [if_neg hn] at hverdict
      obtain ⟨_, _, hget, h⟩ := Run.bind_eq_ok.mp h
      obtain ⟨rfl, rfl⟩ := Run.pure_eq_ok.mp hget
      rcases hv : verdict host (criteria.withIterationLimit n') e p w.state with reason | s <;>
        rw [hv] at h hverdict
      · obtain ⟨heq, rfl⟩ := Run.pure_eq_ok.mp h
        obtain ⟨rfl, rfl⟩ := Prod.mk.inj (Option.some.inj heq)
        exact ⟨reason, p, w, loop_of_reason hverdict, ⟨[], false, .start⟩, hp, Or.inr ⟨rfl, rfl⟩⟩
      · obtain ⟨⟨q, stop⟩, v, hiterate, h⟩ := Run.bind_eq_ok.mp h
        have hq : q.tracker.iteration ≤ n + 1 := by
          obtain ⟨_, _, _, _, _, -, -, rfl, -⟩ := iterate_eq_ok hiterate
          show p.tracker.iteration + 1 ≤ n + 1
          omega
        cases stop
        · obtain ⟨reason, q', v', hloop, htruncated⟩ := ih hq h
          exact ⟨reason, q', v', (loop_of_iterate hverdict hiterate).trans hloop, htruncated⟩
        · obtain ⟨heq, rfl⟩ := Run.pure_eq_ok.mp h
          obtain ⟨rfl, rfl⟩ := Prod.mk.inj (Option.some.inj heq)
          exact ⟨.observer, q, v, loop_of_iterate hverdict hiterate, ⟨[], false, .start⟩, hq,
            Or.inr ⟨rfl, rfl⟩⟩

/-- **What a search yields under the smaller limit**, when it yields something under the larger
one. -/
theorem result_withIterationLimit {α : Type} {read : StopReason × Progress V S → α} {s : S}
    {a : α} {rounds : Nat} (hle : n ≤ n') (htime : criteria.timeLimit = none)
    (h : Run.exec (do
        let result ← run host m (criteria.withIterationLimit n') e rounds s
        return result.map read) w = (.ok (some a), w')) :
    ∃ reason q v reason' p stop stop',
      Run.exec (do
        let result ← run (host.withClock clock) m (criteria.withIterationLimit n) e rounds s
        return result.map read) w = (.ok (some (read (reason, q))), v) ∧
      a = read (reason', p) ∧
      Reaches (host.withClock clock) m (criteria.withIterationLimit n) e (begin s) w stop q v ∧
      Reaches host m (criteria.withIterationLimit n') e (begin s) w stop' p w' ∧
      Truncated host m (criteria.withIterationLimit n') e n reason q v reason' p w' := by
  obtain ⟨result, u, hresult, h⟩ := Run.bind_eq_ok.mp h
  obtain ⟨heq, rfl⟩ := Run.pure_eq_ok.mp h
  obtain ⟨⟨reason', p⟩, rfl, rfl⟩ := Option.map_eq_some_iff.mp heq
  obtain ⟨reason, q, v, hloop, htruncated⟩ :=
    loop_withIterationLimit clock hle htime (Nat.zero_le _) hresult
  obtain ⟨stop, hq⟩ := reaches_of_run hloop
  obtain ⟨stop', hp⟩ := reaches_of_run hresult
  exact ⟨reason, q, v, reason', p, stop, stop',
    Run.bind_eq_ok.mpr ⟨some (reason, q), v, hloop, rfl⟩, rfl, hq, hp, htruncated⟩

end

end Search

end Metaheuristics
