import Mathlib.Tactic.SplitIfs
import Metaheuristics.Proofs.Search.Course

/-!
# How a search ends

A search that ends does so at a head where there is a reason to stop, or after an iteration at the
end of which the observer asked for it (`Ends`).  The reasons at a head come in a fixed order
(`verdict_eq_error`), and a head that is passed has none of them (`verdict_eq_ok`), so an ending
says something of every head before it as well:

* a limit of `n` iterations is passed after `n + 1` of them and not later (`Ends.iterations_le`,
  `Ends.iterationLimit`);
* a limit of `n` iterations without a new best is passed at the first head with `n + 1` of them
  behind it (`Ends.stagnationLimit`, `Ends.better_of_append`).

A search in which no head of some number is passed ends, if its head may be passed often enough
(`run_ne_none`).
-/

namespace Metaheuristics

/-! ## Limits -/

namespace Tracker

variable {t : Tracker} {criteria : StopCriteria} {elapsed : Duration}

theorem stopReason_eq_iterationLimit
    (h : t.stopReason criteria elapsed = some .iterationLimit) :
    ∃ n, criteria.iterationLimit = some n ∧ n < t.iteration := by
  unfold stopReason at h
  by_cases hiteration : criteria.iterationLimit.any (· < t.iteration) = true
  · simpa [Option.any_eq_true] using hiteration
  · rw [if_neg hiteration] at h
    split_ifs at h <;> cases h

theorem stopReason_eq_stagnationLimit
    (h : t.stopReason criteria elapsed = some .stagnationLimit) :
    ∃ n, criteria.stagnationLimit = some n ∧ n < t.notBetter := by
  unfold stopReason at h
  by_cases hstagnation : criteria.stagnationLimit.any (· < t.notBetter) = true
  · simpa [Option.any_eq_true] using hstagnation
  · rw [if_neg hstagnation] at h
    split_ifs at h <;> cases h

theorem stopReason_ne_temperatureFloor : t.stopReason criteria elapsed ≠ some .temperatureFloor := by
  unfold stopReason
  split_ifs <;> exact fun h => nomatch h

theorem le_of_stopReason_eq_none (h : t.stopReason criteria elapsed = none) :
    (∀ n, criteria.iterationLimit = some n → t.iteration ≤ n) ∧
      ∀ n, criteria.stagnationLimit = some n → t.notBetter ≤ n := by
  unfold stopReason at h
  split_ifs at h with hiteration hstagnation
  constructor
  · intro n hn
    simpa [hn] using hiteration
  · intro n hn
    simpa [hn] using hstagnation

theorem stopReason_unlimited (t : Tracker) (elapsed : Duration) :
    t.stopReason .unlimited elapsed = none := rfl

end Tracker

namespace Search

variable {γ σ V S B : Type} {host : Host σ} {m : Model γ σ V} {criteria : StopCriteria}
  {e : Engine γ σ V S B} {p₀ p : Progress V S} {w₀ w w' : World γ σ} {reason : StopReason}
  {legs : List (Leg S B)} {rounds : Nat}

/-! ## Heads -/

theorem verdict_eq_error {state : σ} (h : verdict host criteria e p state = .error reason) :
    p.tracker.stopReason criteria (host.elapsed state) = some reason ∨
      reason = .temperatureFloor ∧ e.enter p.tracker.iteration p.engine = none ∨
      reason = .cancelled ∧ host.cancelled state = true := by
  unfold verdict at h
  split at h
  · next hstop => exact Or.inl (by rw [hstop, Except.error.inj h])
  · split at h
    · next henter => exact Or.inr (Or.inl ⟨(Except.error.inj h).symm, henter⟩)
    · split at h
      · next hcancelled => exact Or.inr (Or.inr ⟨(Except.error.inj h).symm, hcancelled⟩)
      · cases h

theorem verdict_eq_ok {state : σ} {s : S} (h : verdict host criteria e p state = .ok s) :
    p.tracker.stopReason criteria (host.elapsed state) = none ∧
      e.enter p.tracker.iteration p.engine = some s ∧ host.cancelled state = false := by
  refine ⟨?_, enter_of_verdict h, ?_⟩ <;> unfold verdict at h <;> split at h
  · cases h
  · assumption
  · cases h
  · split at h
    · cases h
    · split at h
      · cases h
      · next hcancelled => exact Bool.eq_false_iff.mpr hcancelled

/-! ## Endings -/

/-- **A search that has ended**: at a head with a reason to stop, or with the observer asking for
it. -/
def Ends (host : Host σ) (m : Model γ σ V) (criteria : StopCriteria) (e : Engine γ σ V S B)
    (p₀ : Progress V S) (w₀ : World γ σ) (legs : List (Leg S B)) (reason : StopReason)
    (p : Progress V S) (w : World γ σ) : Prop :=
  (Course host m criteria e p₀ w₀ legs false p w ∧
      verdict host criteria e p w.state = .error reason) ∨
    Course host m criteria e p₀ w₀ legs true p w ∧ reason = .observer

theorem Ends.course (h : Ends host m criteria e p₀ w₀ legs reason p w) :
    ∃ stop, Course host m criteria e p₀ w₀ legs stop p w := by
  rcases h with ⟨h, -⟩ | ⟨h, -⟩
  · exact ⟨false, h⟩
  · exact ⟨true, h⟩

theorem ends_of_result {α : Type} {read : StopReason × Progress V S → α} {s : S} {a : α}
    (h : Run.exec (do
        let result ← run host m criteria e rounds s
        return result.map read) w = (.ok (some a), w')) :
    ∃ legs reason p, Ends host m criteria e (begin s) w legs reason p w' ∧
      a = read (reason, p) := by
  obtain ⟨result, v, hresult, h⟩ := Run.bind_eq_ok.mp h
  obtain ⟨heq, rfl⟩ := Run.pure_eq_ok.mp h
  obtain ⟨⟨reason, p⟩, rfl, rfl⟩ := Option.map_eq_some_iff.mp heq
  rcases reaches_of_loop Reaches.start hresult with ⟨hp, hverdict⟩ | ⟨hp, hobserver⟩
  · obtain ⟨legs, hlegs⟩ := hp.course
    exact ⟨legs, reason, p, Or.inl ⟨hlegs, hverdict⟩, rfl⟩
  · obtain ⟨legs, hlegs⟩ := hp.course
    exact ⟨legs, reason, p, Or.inr ⟨hlegs, hobserver⟩, rfl⟩

/-- A search without limits, which nobody cancels and no observer ends, ends when the engine is
through. -/
theorem Ends.through (hcriteria : criteria = .unlimited)
    (hcancelled : ∀ state, host.cancelled state = false)
    (hobserve : ∀ t fitness state, (m.observe t fitness state).1 = false)
    (h : Ends host m criteria e p₀ w₀ legs reason p w) :
    reason = .temperatureFloor ∧ e.enter p.tracker.iteration p.engine = none := by
  rcases h with ⟨-, hverdict⟩ | ⟨hcourse, -⟩
  · rcases verdict_eq_error hverdict with hstop | hthrough | ⟨-, hcancel⟩
    · rw [hcriteria, Tracker.stopReason_unlimited] at hstop
      cases hstop
    · exact hthrough
    · rw [hcancelled] at hcancel
      cases hcancel
  · cases hcourse with
    | step _ _ _ _ _ observes =>
      have hstop := Except.ok.inj (Prod.mk.inj observes).1
      rw [hobserve] at hstop
      cases hstop

theorem Ends.temperatureFloor (h : Ends host m criteria e p₀ w₀ legs .temperatureFloor p w) :
    e.enter p.tracker.iteration p.engine = none := by
  rcases h with ⟨-, hverdict⟩ | ⟨-, hreason⟩
  · rcases verdict_eq_error hverdict with hstop | ⟨-, henter⟩ | ⟨hreason, -⟩
    · exact absurd hstop Tracker.stopReason_ne_temperatureFloor
    · exact henter
    · cases hreason
  · cases hreason

section
variable {s : S} {n : Nat}

/-- **A limit of `n` iterations** lets no more than `n + 1` of them complete. -/
theorem Course.iterations_le {stop : Bool}
    (h : Course host m criteria e (begin s) w₀ legs stop p w)
    (hn : criteria.iterationLimit = some n) : legs.length ≤ n + 1 := by
  cases h with
  | start => exact Nat.zero_le _
  | step head enters _ _ _ _ =>
    have hle := (Tracker.le_of_stopReason_eq_none (verdict_eq_ok enters).1).1 n hn
    rw [head.iteration] at hle
    rw [List.length_append, List.length_singleton]
    have hzero : (begin s : Progress V S).tracker.iteration = 0 := rfl
    omega

theorem Ends.iterationLimit (h : Ends host m criteria e (begin s) w₀ legs .iterationLimit p w) :
    ∃ n, criteria.iterationLimit = some n ∧ legs.length = n + 1 := by
  rcases h with ⟨h, hverdict⟩ | ⟨-, hreason⟩
  · rcases verdict_eq_error hverdict with hstop | ⟨hreason, -⟩ | ⟨hreason, -⟩
    · obtain ⟨n, hn, hlt⟩ := Tracker.stopReason_eq_iterationLimit hstop
      rw [h.iteration] at hlt
      have hle := h.iterations_le hn
      have hzero : (begin s : Progress V S).tracker.iteration = 0 := rfl
      exact ⟨n, hn, by omega⟩
    · cases hreason
    · cases hreason
  · cases hreason

/-- **A search that ends with stagnation** has found nothing better in the last `n + 1` iterations,
`n` being the limit. -/
theorem Ends.stagnationLimit
    (h : Ends host m criteria e (begin s) w₀ legs .stagnationLimit p w) :
    ∃ n, criteria.stagnationLimit = some n ∧ ∃ earlier last, legs = earlier ++ last ∧
      last.length = n + 1 ∧ ∀ leg ∈ last, leg.better = false := by
  rcases h with ⟨h, hverdict⟩ | ⟨-, hreason⟩
  · rcases verdict_eq_error hverdict with hstop | ⟨hreason, -⟩ | ⟨hreason, -⟩
    · obtain ⟨n, hn, hlt⟩ := Tracker.stopReason_eq_stagnationLimit hstop
      obtain ⟨earlier, last, rfl, hlength, hlast, -⟩ := h.stagnation rfl
      refine ⟨n, hn, earlier ++ last.take (last.length - (n + 1)),
        last.drop (last.length - (n + 1)), ?_, ?_, fun leg hleg => ?_⟩
      · rw [List.append_assoc, List.take_append_drop]
      · rw [List.length_drop]
        omega
      · exact hlast leg (List.mem_of_mem_drop hleg)
    · cases hreason
    · cases hreason
  · cases hreason

theorem Course.better_of_append {stop : Bool} {earlier last later : List (Leg S B)}
    (h : Course host m criteria e (begin s) w₀ (earlier ++ last ++ later) stop p w)
    (hlater : later ≠ []) (hn : criteria.stagnationLimit = some n)
    (hlength : last.length = n + 1) : ∃ leg ∈ last, leg.better = true := by
  obtain ⟨q, v, s', hq, hverdict⟩ := h.head_of_append rfl hlater
  have hle := (Tracker.le_of_stopReason_eq_none (verdict_eq_ok hverdict).1).2 n hn
  obtain ⟨front, quiet, hsplit, hquiet, -, hfront⟩ := hq.stagnation rfl
  -- the stagnation is shorter than `last`, so the leg before it belongs to `last`
  rcases List.append_eq_append_iff.mp hsplit with ⟨rest, rfl, rfl⟩ | ⟨rest, rfl, rfl⟩
  · rw [List.length_append] at hlength
    have hrest : rest ≠ [] := by
      rintro rfl
      rw [List.length_nil] at hlength
      omega
    refine ⟨rest.getLast hrest, List.mem_append_left _ (List.getLast_mem hrest), hfront _ ?_⟩
    rw [List.getLast?_append, List.getLast?_eq_some_getLast hrest]
    rfl
  · rw [List.length_append] at hquiet
    omega

end

/-! ## Termination -/

/-- **A search ends** when no head with the number `bound` or a later one is passed, and its head
may be passed more often than that. -/
theorem loop_ne_none {bound : Nat} {p₀ : Progress V S} {w₀ : World γ σ}
    (hbound : ∀ q v s, Reaches host m criteria e p₀ w₀ false q v →
      verdict host criteria e q v.state = .ok s → q.tracker.iteration < bound)
    (hp : Reaches host m criteria e p₀ w₀ false p w) (hle : p.tracker.iteration ≤ bound)
    (hrounds : bound < rounds + p.tracker.iteration) :
    (loop host m criteria e rounds p).exec w ≠ (.ok none, w') := by
  induction rounds generalizing p w with
  | zero => omega
  | succ rounds ih =>
    intro h
    obtain ⟨_, _, hget, h⟩ := Run.bind_eq_ok.mp h
    obtain ⟨rfl, rfl⟩ := Run.pure_eq_ok.mp hget
    rcases hv : verdict host criteria e p w.state with reason' | s <;> rw [hv] at h
    · cases (Run.pure_eq_ok.mp h).1
    · obtain ⟨⟨q, stop⟩, v, hiterate, h⟩ := Run.bind_eq_ok.mp h
      have hlt := hbound p w s hp hv
      have hcount : q.tracker.iteration = p.tracker.iteration + 1 := by
        obtain ⟨_, _, _, _, _, -, -, rfl, -⟩ := iterate_eq_ok hiterate
        rfl
      cases stop
      · exact ih (hp.step hv hiterate) (by omega) (by omega) h
      · cases (Run.pure_eq_ok.mp h).1

theorem run_ne_none {bound : Nat} {s : S}
    (hbound : ∀ q v s', Reaches host m criteria e (begin s) w₀ false q v →
      verdict host criteria e q v.state = .ok s' → q.tracker.iteration < bound)
    (hrounds : bound < rounds) : (run host m criteria e rounds s).exec w₀ ≠ (.ok none, w') :=
  loop_ne_none hbound .start (Nat.zero_le _) hrounds

theorem iteration_lt_of_limit {n : Nat} (hn : criteria.iterationLimit = some n) {state : σ} {s : S}
    (h : verdict host criteria e p state = .ok s) : p.tracker.iteration < n + 1 :=
  Nat.lt_succ_of_le ((Tracker.le_of_stopReason_eq_none (verdict_eq_ok h).1).1 n hn)

theorem run_eq_none_of_result {α : Type} {read : StopReason × Progress V S → α} {s : S}
    (h : Run.exec (do
        let result ← run host m criteria e rounds s
        return result.map read) w = (.ok none, w')) :
    (run host m criteria e rounds s).exec w = (.ok none, w') := by
  obtain ⟨result, v, hresult, h⟩ := Run.bind_eq_ok.mp h
  obtain ⟨heq, rfl⟩ := Run.pure_eq_ok.mp h
  rw [hresult, Option.map_eq_none_iff.mp heq]

end Search

end Metaheuristics
