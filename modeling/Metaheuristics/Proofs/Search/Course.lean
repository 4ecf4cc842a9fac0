import Mathlib.Data.List.Chain
import Metaheuristics.Proofs.Search.Reach

/-!
# The course of a search

The iterations that lie behind a position of the loop, in order (`Course`): the state of the engine
before and after each, the batch it explored, and whether the engine found a new best in it.  Every
position that a search reaches has a course (`Reaches.course`), and every part of a course leads to
a head of the loop that was passed (`Course.head_of_append`).

The counters of the tracker are read off the course: there are as many iterations and entries of the
history as legs (`Course.iteration`, `Course.history`), and the stagnation is the number of legs at
the end in which nothing better was found (`Course.stagnation`).
-/

namespace Metaheuristics

theorem isChain_concat {α : Type} {R : α → α → Prop} {items : List α} {x y : α}
    (h : items.IsChain R) (hx : items.getLast? = some x) (hxy : R x y) :
    (items ++ [y]).IsChain R := by
  refine List.isChain_append.mpr ⟨h, List.isChain_singleton y, fun x' hx' y' hy' => ?_⟩
  rw [hx, Option.mem_some_iff] at hx'
  rw [List.head?_cons, Option.mem_some_iff] at hy'
  rwa [← hx', ← hy']

/-- **One iteration of a search.** -/
structure Leg (S B : Type) where
  /-- The state of the engine at the head. -/
  before : S
  batch : B
  /-- The state of the engine with the batch taken in. -/
  after : S
  /-- Whether the engine found a new best. -/
  better : Bool

namespace Search

variable {γ σ V S B : Type} {host : Host σ} {m : Model γ σ V} {criteria : StopCriteria}
  {e : Engine γ σ V S B}

/-- **The positions of the loop with the iterations behind them.** -/
inductive Course (host : Host σ) (m : Model γ σ V) (criteria : StopCriteria)
    (e : Engine γ σ V S B) (p₀ : Progress V S) (w₀ : World γ σ) :
    (legs : List (Leg S B)) → (stop : Bool) → Progress V S → World γ σ → Prop
  | start : Course host m criteria e p₀ w₀ [] false p₀ w₀
  | step {legs p w s b v s' better v' u stop w'}
      (head : Course host m criteria e p₀ w₀ legs false p w)
      (enters : verdict host criteria e p w.state = .ok s)
      (explores : (e.explore p.tracker s).exec w = (.ok b, v))
      (absorbs : (e.absorb s b).exec v = (.ok (s', better), v'))
      (flushes : (Run.call m.flush).exec v' = (.ok (), u))
      (observes : (Run.call (m.observe (p.tracker.next better) (e.best s'))).exec u
        = (.ok stop, w')) :
      Course host m criteria e p₀ w₀ (legs ++ [⟨p.engine, b, s', better⟩]) stop
        ⟨p.tracker.next better, s', p.history.push (m.present (e.best s'))⟩ w'

variable {p₀ p : Progress V S} {w₀ w : World γ σ} {legs earlier later : List (Leg S B)}
  {stop : Bool}

/-- **Every position has a course.** -/
theorem Reaches.course (h : Reaches host m criteria e p₀ w₀ stop p w) :
    ∃ legs, Course host m criteria e p₀ w₀ legs stop p w := by
  induction h with
  | start => exact ⟨[], .start⟩
  | step _ enters iterates ih =>
    obtain ⟨legs, hlegs⟩ := ih
    obtain ⟨b, v, s', better, v', hexplore, habsorb, rfl, u, hflush, hobserve⟩ :=
      iterate_eq_ok iterates
    exact ⟨_, hlegs.step enters hexplore habsorb hflush hobserve⟩

theorem Course.reaches (h : Course host m criteria e p₀ w₀ legs stop p w) :
    Reaches host m criteria e p₀ w₀ stop p w := by
  induction h with
  | start => exact .start
  | step _ enters explores absorbs flushes observes ih =>
    refine ih.step enters (Run.bind_eq_ok.mpr ⟨_, _, explores, ?_⟩)
    refine Run.bind_eq_ok.mpr ⟨_, _, absorbs, ?_⟩
    refine Run.bind_eq_ok.mpr ⟨_, _, flushes, ?_⟩
    exact Run.bind_eq_ok.mpr ⟨_, _, observes, rfl⟩

theorem Course.head_of_append (h : Course host m criteria e p₀ w₀ legs stop p w)
    (hlegs : legs = earlier ++ later) (hlater : later ≠ []) :
    ∃ q v s, Course host m criteria e p₀ w₀ earlier false q v ∧
      verdict host criteria e q v.state = .ok s := by
  induction h generalizing later with
  | start => exact absurd (List.append_eq_nil_iff.mp hlegs.symm).2 hlater
  | @step legs p w s b v s' better v' u stop w' head enters _ _ _ _ ih =>
    obtain ⟨later, leg, rfl⟩ : ∃ later' leg, later = later' ++ [leg] :=
      ⟨_, _, (List.dropLast_concat_getLast hlater).symm⟩
    rw [← List.append_assoc] at hlegs
    have hprefix : legs = earlier ++ later := (List.append_inj' hlegs rfl).1
    by_cases hnil : later = []
    · rw [hnil, List.append_nil] at hprefix
      exact ⟨p, w, s, hprefix ▸ head, enters⟩
    · exact ih hprefix hnil

theorem Course.forall_legs {Q : Leg S B → Prop}
    (hstep : ∀ legs p w s b v s' better v', Course host m criteria e p₀ w₀ legs false p w →
      e.enter p.tracker.iteration p.engine = some s →
      (e.explore p.tracker s).exec w = (.ok b, v) →
      (e.absorb s b).exec v = (.ok (s', better), v') → Q ⟨p.engine, b, s', better⟩)
    (h : Course host m criteria e p₀ w₀ legs stop p w) : ∀ leg ∈ legs, Q leg := by
  induction h with
  | start => exact fun leg hleg => nomatch hleg
  | step head enters explores absorbs _ _ ih =>
    intro leg hleg
    rcases List.mem_append.mp hleg with hleg | hleg
    · exact ih leg hleg
    · rw [List.mem_singleton.mp hleg]
      exact hstep _ _ _ _ _ _ _ _ _ head (enter_of_verdict enters) explores absorbs

/-! ## Counters -/

theorem Course.iteration (h : Course host m criteria e p₀ w₀ legs stop p w) :
    p.tracker.iteration = p₀.tracker.iteration + legs.length := by
  induction h with
  | start => rfl
  | step _ _ _ _ _ _ ih =>
    rw [List.length_append, ← Nat.add_assoc, ← ih]
    rfl

theorem Course.history (h : Course host m criteria e p₀ w₀ legs stop p w) :
    p.history.size = p₀.history.size + legs.length := by
  induction h with
  | start => rfl
  | step _ _ _ _ _ _ ih =>
    rw [Array.size_push, List.length_append, ih]
    rfl

/-- **The stagnation** is the number of legs at the end without a new best. -/
theorem Course.stagnation (h : Course host m criteria e p₀ w₀ legs stop p w)
    (hp₀ : p₀.tracker.notBetter = 0) :
    ∃ earlier last, legs = earlier ++ last ∧ last.length = p.tracker.notBetter ∧
      (∀ leg ∈ last, leg.better = false) ∧
      ∀ leg, earlier.getLast? = some leg → leg.better = true := by
  induction h with
  | start => exact ⟨[], [], rfl, hp₀.symm, by simp, by simp⟩
  | @step legs p w s b v s' better v' u stop w' _ _ _ _ _ _ ih =>
    cases better with
    | true =>
      refine ⟨legs ++ [⟨p.engine, b, s', true⟩], [], (List.append_nil _).symm, rfl, by simp, ?_⟩
      intro leg hleg
      rw [List.getLast?_concat] at hleg
      rw [← Option.some.inj hleg]
    | false =>
      obtain ⟨earlier, last, rfl, hlength, hlast, hearlier⟩ := ih
      refine ⟨earlier, last ++ [⟨p.engine, b, s', false⟩], List.append_assoc _ _ _, ?_, ?_,
        hearlier⟩
      · rw [List.length_append, hlength]
        rfl
      · intro leg hleg
        rcases List.mem_append.mp hleg with hleg | hleg
        · exact hlast leg hleg
        · rw [List.mem_singleton.mp hleg]

end Search

end Metaheuristics
