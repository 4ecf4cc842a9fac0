import Metaheuristics.Proofs.Runs.Results
import Metaheuristics.Search

/-!
# Where a search gets to

The positions of the loop in a run are the heads it passes and, where the observer ends the run, the
end of the last iteration (`Reaches`).  At a head the loop ends for a reason, fails with the
iteration, or goes on after it (`loop_of_reason`, `loop_of_failure`, `loop_of_iterate`).  A loop
that ends has reached the position it ends in, and at its last head the reason to stop holds
(`reaches_of_loop`).  What holds at the start and is kept by every iteration holds wherever a search
gets to, by induction on `Reaches`; an iteration is a batch explored and absorbed (`iterate_eq_ok`).
-/

namespace Metaheuristics.Search

variable {γ σ V S B : Type} {host : Host σ} {m : Model γ σ V} {criteria : StopCriteria}
  {e : Engine γ σ V S B}

/-- **The positions of the loop** that starts at `p₀` in the world `w₀`.  `stop` is whether the
observer has ended the run. -/
inductive Reaches (host : Host σ) (m : Model γ σ V) (criteria : StopCriteria)
    (e : Engine γ σ V S B) (p₀ : Progress V S) (w₀ : World γ σ) :
    (stop : Bool) → Progress V S → World γ σ → Prop
  | start : Reaches host m criteria e p₀ w₀ false p₀ w₀
  | step {p w s stop p' w'} (head : Reaches host m criteria e p₀ w₀ false p w)
      (enters : verdict host criteria e p w.state = .ok s)
      (iterates : (iterate m e p s).exec w = (.ok (p', stop), w')) :
      Reaches host m criteria e p₀ w₀ stop p' w'

/-- The state in which a search begins. -/
def begin (s : S) : Progress V S := ⟨.start .standard, s, #[]⟩

theorem iterate_eq_ok {p p' : Progress V S} {s : S} {stop : Bool} {w w' : World γ σ}
    (h : (iterate m e p s).exec w = (.ok (p', stop), w')) :
    ∃ batch v s' better v', (e.explore p.tracker s).exec w = (.ok batch, v) ∧
      (e.absorb s batch).exec v = (.ok (s', better), v') ∧
      p' = ⟨p.tracker.next better, s', p.history.push (m.present (e.best s'))⟩ ∧
      ∃ u, (Run.call m.flush).exec v' = (.ok (), u) ∧
        (Run.call (m.observe p'.tracker (e.best s'))).exec u = (.ok stop, w') := by
  obtain ⟨batch, v, hexplore, h⟩ := Run.bind_eq_ok.mp h
  obtain ⟨⟨s', better⟩, v', habsorb, h⟩ := Run.bind_eq_ok.mp h
  obtain ⟨⟨⟩, u, hflush, h⟩ := Run.bind_eq_ok.mp h
  obtain ⟨stop', u', hobserve, h⟩ := Run.bind_eq_ok.mp h
  obtain ⟨hp, rfl⟩ := Run.pure_eq_ok.mp h
  obtain ⟨rfl, rfl⟩ := Prod.mk.inj hp
  exact ⟨batch, v, s', better, v', hexplore, habsorb, rfl, u, hflush, hobserve⟩

theorem enter_of_verdict {p : Progress V S} {state : σ} {s : S}
    (h : verdict host criteria e p state = .ok s) :
    e.enter p.tracker.iteration p.engine = some s := by
  unfold verdict at h
  split at h
  · cases h
  · split at h
    · cases h
    · rename_i s' hs
      split at h
      · cases h
      · rw [hs, Except.ok.inj h]

/-! ## Loops -/

theorem loop_of_reason {rounds : Nat} {p : Progress V S} {w : World γ σ} {reason : StopReason}
    (hv : verdict host criteria e p w.state = .error reason) :
    (loop host m criteria e (rounds + 1) p).exec w = (.ok (some (reason, p)), w) := by
  refine Run.bind_eq_ok.mpr ⟨w, w, rfl, ?_⟩
  rw [hv]
  rfl

theorem loop_of_failure {rounds : Nat} {p : Progress V S} {w w' : World γ σ} {s : S}
    {failure : Failure} (hv : verdict host criteria e p w.state = .ok s)
    (hiterate : (iterate m e p s).exec w = (.error failure, w')) :
    (loop host m criteria e (rounds + 1) p).exec w = (.error failure, w') := by
  refine Run.bind_eq_error.mpr (Or.inr ⟨w, w, rfl, ?_⟩)
  rw [hv]
  exact Run.bind_eq_error.mpr (Or.inl hiterate)

theorem loop_of_iterate {rounds : Nat} {p p' : Progress V S} {w w' : World γ σ} {s : S}
    {stop : Bool} (hv : verdict host criteria e p w.state = .ok s)
    (hiterate : (iterate m e p s).exec w = (.ok (p', stop), w')) :
    (loop host m criteria e (rounds + 1) p).exec w =
      if stop then (.ok (some (.observer, p')), w')
      else (loop host m criteria e rounds p').exec w' := by
  refine (Run.exec_bind_ok (rfl : Run.exec get w = (.ok w, w))).trans ?_
  dsimp only
  rw [hv]
  refine (Run.exec_bind_ok hiterate).trans ?_
  cases stop <;> rfl

theorem reaches_of_loop {p₀ p p' : Progress V S} {w₀ w w' : World γ σ} {rounds : Nat}
    {reason : StopReason} (hp : Reaches host m criteria e p₀ w₀ false p w)
    (h : (loop host m criteria e rounds p).exec w = (.ok (some (reason, p')), w')) :
    (Reaches host m criteria e p₀ w₀ false p' w' ∧
        verdict host criteria e p' w'.state = .error reason) ∨
      Reaches host m criteria e p₀ w₀ true p' w' ∧ reason = .observer := by
  induction rounds generalizing p w with
  | zero => cases (Run.pure_eq_ok.mp h).1
  | succ rounds ih =>
    obtain ⟨_, _, hget, h⟩ := Run.bind_eq_ok.mp h
    obtain ⟨rfl, rfl⟩ := Run.pure_eq_ok.mp hget
    rcases hv : verdict host criteria e p w.state with reason' | s <;> rw [hv] at h
    · obtain ⟨heq, rfl⟩ := Run.pure_eq_ok.mp h
      obtain ⟨rfl, rfl⟩ := Prod.mk.inj (Option.some.inj heq)
      exact Or.inl ⟨hp, hv⟩
    · obtain ⟨⟨q, stop⟩, v, hiterate, h⟩ := Run.bind_eq_ok.mp h
      have hq := Reaches.step hp hv hiterate
      cases stop
      · exact ih hq h
      · obtain ⟨heq, rfl⟩ := Run.pure_eq_ok.mp h
        obtain ⟨rfl, rfl⟩ := Prod.mk.inj (Option.some.inj heq)
        exact Or.inr ⟨hq, rfl⟩

theorem reaches_of_run {s : S} {p : Progress V S} {w w' : World γ σ} {rounds : Nat}
    {reason : StopReason}
    (h : (run host m criteria e rounds s).exec w = (.ok (some (reason, p)), w')) :
    ∃ stop, Reaches host m criteria e (begin s) w stop p w' := by
  rcases reaches_of_loop Reaches.start h with ⟨hp, -⟩ | ⟨hp, -⟩
  · exact ⟨false, hp⟩
  · exact ⟨true, hp⟩

/-- **What a search that ends yields** is read off a position that it has reached. -/
theorem reaches_of_result {α : Type} {read : StopReason × Progress V S → α} {s : S} {a : α}
    {w w' : World γ σ} {rounds : Nat}
    (h : Run.exec (do
        let result ← run host m criteria e rounds s
        return result.map read) w = (.ok (some a), w')) :
    ∃ stop reason p, Reaches host m criteria e (begin s) w stop p w' ∧ a = read (reason, p) := by
  obtain ⟨result, v, hresult, h⟩ := Run.bind_eq_ok.mp h
  obtain ⟨heq, rfl⟩ := Run.pure_eq_ok.mp h
  obtain ⟨⟨reason, p⟩, rfl, rfl⟩ := Option.map_eq_some_iff.mp heq
  obtain ⟨stop, hp⟩ := reaches_of_run hresult
  exact ⟨stop, reason, p, hp, rfl⟩

/-- **The history ends with the best fitness so far**, once there has been an iteration. -/
theorem Reaches.history {s : S} {w₀ w : World γ σ} {stop : Bool} {p : Progress V S}
    (h : Reaches host m criteria e (begin s) w₀ stop p w) :
    p.tracker.iteration = 0 ∨ p.history.toList.getLast? = some (m.present (e.best p.engine)) := by
  cases h with
  | start => exact Or.inl rfl
  | step _ _ hiterates =>
    obtain ⟨_, _, _, _, _, -, -, rfl, -⟩ := iterate_eq_ok hiterates
    exact Or.inr (by rw [Array.toList_push, List.getLast?_concat])

end Metaheuristics.Search
