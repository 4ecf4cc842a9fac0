import Metaheuristics.Proofs.Model.Translation
import Metaheuristics.Proofs.Search.Reach

/-!
# Translations of searches

An engine is a translation of another one when its steps are, with states read through `h` and
batches through `g` (`Engine.Translates`).  Its whole search is then a translation of the other one
(`Search.translates_run`): the same iterations, the same reason to stop, and the states, the fitness
values and the history read through the same functions.  It is enough that the steps are translated
from the states that turn up in the search (`Engine.TranslatesOn`, `Search.translates_run_on`).
-/

namespace Metaheuristics

variable {γ σ τ V U S S' B B' : Type}

/-- The state of the loop with fitness read through `f` and engines through `h`. -/
def Progress.map (f : V → U) (h : S → S') (p : Progress V S) : Progress U S' :=
  ⟨p.tracker, h p.engine, p.history.map f⟩

/-- An outcome with its fitness read through `f`. -/
def Outcome.map (f : V → U) (o : Outcome V) : Outcome U :=
  ⟨o.solutions.map (Candidate.map f), o.iterations, o.reason, o.history.map f⟩

theorem Progress.map_id {h : S → S} (hh : ∀ s, h s = s) (p : Progress V S) : p.map id h = p := by
  rw [Progress.map, hh, Array.map_id]

theorem Outcome.map_id (o : Outcome V) : o.map id = o := by
  rw [Outcome.map, Candidate.map_map_id, List.map_id]

/-- **The engine `e'` does what `e` does**, with fitness, states and batches read through functions.
-/
structure Engine.Translates (view : σ → τ) (f : V → U) (h : S → S') (g : B → B')
    (e : Engine γ σ V S B) (e' : Engine γ τ U S' B') : Prop where
  enter : ∀ k s, e'.enter k (h s) = (e.enter k s).map h
  explore : ∀ t s, Run.Translates view g (e.explore t s) (e'.explore t (h s))
  absorb : ∀ s b, Run.Translates view (Prod.map h id) (e.absorb s b) (e'.absorb (h s) (g b))
  best : ∀ s, e'.best (h s) = (e.best s).map f

/-- **The engine `e'` does what `e` does in the states that turn up**, which are known by the number
of the iteration: those with `I` at the heads of the loop, and those with `J` in the iterations. -/
structure Engine.TranslatesOn (I J : Nat → S → Prop) (view : σ → τ) (f : V → U) (h : S → S')
    (g : B → B') (e : Engine γ σ V S B) (e' : Engine γ τ U S' B') : Prop where
  enter : ∀ k s, I k s → e'.enter k (h s) = (e.enter k s).map h
  entered : ∀ k s s', I k s → e.enter k s = some s' → J k s'
  explore : ∀ t s, J t.iteration s → Run.Translates view g (e.explore t s) (e'.explore t (h s))
  absorb : ∀ k s b, J k s →
    Run.Translates view (Prod.map h id) (e.absorb s b) (e'.absorb (h s) (g b))
  absorbed : ∀ k s b w s' better w', J k s →
    (e.absorb s b).exec w = (.ok (s', better), w') → I (k + 1) s'
  best : ∀ s, e'.best (h s) = (e.best s).map f

theorem Engine.Translates.on {view : σ → τ} {f : V → U} {h : S → S'} {g : B → B'}
    {e : Engine γ σ V S B} {e' : Engine γ τ U S' B'} (he : Engine.Translates view f h g e e') :
    Engine.TranslatesOn (fun _ _ => True) (fun _ _ => True) view f h g e e' where
  enter k s _ := he.enter k s
  entered _ _ _ _ _ := trivial
  explore t s _ := he.explore t s
  absorb _ s b _ := he.absorb s b
  absorbed _ _ _ _ _ _ _ _ _ := trivial
  best := he.best

namespace Search

variable {view : σ → τ} {f : V → U} {h : S → S'} {g : B → B'} {host : Host σ} {host' : Host τ}
  {m : Model γ σ V} {n : Model γ τ U} {criteria : StopCriteria}
  {e : Engine γ σ V S B} {e' : Engine γ τ U S' B'} {I J : Nat → S → Prop}

theorem verdict_map (hh : host.Translates view host') {p : Progress V S}
    (henter : e'.enter p.tracker.iteration (h p.engine)
      = (e.enter p.tracker.iteration p.engine).map h) (s : σ) :
    verdict host' criteria e' (p.map f h) (view s) = (verdict host criteria e p s).map h := by
  simp only [verdict, Progress.map, hh.elapsed, hh.cancelled, henter]
  obtain _ | reason := p.tracker.stopReason criteria (host.elapsed s)
  · obtain _ | s' := e.enter p.tracker.iteration p.engine
    · rfl
    · simp only [Option.map_some]
      split <;> rfl
  · rfl

section
variable (he : Engine.TranslatesOn I J view f h g e e')
include he

theorem translates_iterate (hm : m.Translates view f n) {p : Progress V S} {s : S}
    (hs : J p.tracker.iteration s) :
    Run.Translates view (Prod.map (Progress.map f h) id) (iterate m e p s)
      (iterate n e' (p.map f h) (h s)) := by
  refine Run.Translates.bind (he.explore p.tracker s hs) fun batch => ?_
  refine Run.Translates.bind (he.absorb _ s batch hs) fun (s', better) => ?_
  refine Run.Translates.bind_id (Run.Translates.call hm.flush) fun _ => ?_
  have hobserve (st : σ) : n.observe (p.tracker.next better) (e'.best (h s')) (view st)
      = (id (m.observe (p.tracker.next better) (e.best s') st).1,
        view (m.observe (p.tracker.next better) (e.best s') st).2) := by
    rw [he.best, hm.observe]; rfl
  refine Run.Translates.bind_id (Run.Translates.call hobserve) fun stop => ?_
  refine Run.Translates.pure ?_
  simp only [Progress.map, Prod.map, he.best, hm.present, Array.map_push, id]

/-- **An iteration leads to a state that may turn up** at the next head. -/
theorem invariant_iterate {p p' : Progress V S} {s : S} {stop : Bool} {w w' : World γ σ}
    (hs : J p.tracker.iteration s) (h : (iterate m e p s).exec w = (.ok (p', stop), w')) :
    I p'.tracker.iteration p'.engine := by
  obtain ⟨batch, v, s', better, v', -, habsorb, rfl, -⟩ := iterate_eq_ok h
  exact he.absorbed _ s batch v s' better v' hs habsorb

theorem invariant_reaches {p₀ p : Progress V S} {w₀ w : World γ σ} {stop : Bool}
    (hp₀ : I p₀.tracker.iteration p₀.engine) (h : Reaches host m criteria e p₀ w₀ stop p w) :
    I p.tracker.iteration p.engine := by
  induction h with
  | start => exact hp₀
  | step _ henters hiterates ih =>
    exact invariant_iterate he (he.entered _ _ _ ih (enter_of_verdict henters)) hiterates

theorem translates_loop (hh : host.Translates view host') (hm : m.Translates view f n)
    (rounds : Nat) {p : Progress V S} (hp : I p.tracker.iteration p.engine) :
    Run.Translates view (Option.map (Prod.map id (Progress.map f h)))
      (loop host m criteria e rounds p) (loop host' n criteria e' rounds (p.map f h)) := by
  induction rounds generalizing p with
  | zero => exact Run.Translates.pure rfl
  | succ rounds ih =>
    refine Run.Translates.get fun w => ?_
    rw [show (w.through view).state = view w.state from rfl, verdict_map hh (he.enter _ _ hp)]
    rcases hv : verdict host criteria e p w.state with reason | s
    · exact Run.Translates.pure rfl
    · have hs : J p.tracker.iteration s := he.entered _ _ _ hp (enter_of_verdict hv)
      refine Run.Translates.bind_of_ok (translates_iterate he hm hs) ?_
      rintro v ⟨p', stop⟩ v' hiterate
      exact Run.Translates.ite (Run.Translates.pure rfl) (ih (invariant_iterate he hs hiterate))

end

theorem begin_map (s : S) : (begin s : Progress V S).map f h = begin (h s) := by
  rw [begin, Progress.map, Array.map_empty]; rfl

theorem translates_run_on (hh : host.Translates view host') (hm : m.Translates view f n)
    (he : Engine.TranslatesOn I J view f h g e e') (rounds : Nat) {s : S} (hs : I 0 s) :
    Run.Translates view (Option.map (Prod.map id (Progress.map f h)))
      (run host m criteria e rounds s) (run host' n criteria e' rounds (h s)) := by
  show Run.Translates view _ _ (loop host' n criteria e' rounds (begin (h s)))
  rw [← begin_map]
  exact translates_loop he hh hm rounds (p := begin s) hs

/-- **The whole search is translated.** -/
theorem translates_run (hh : host.Translates view host') (hm : m.Translates view f n)
    (he : Engine.Translates view f h g e e') (rounds : Nat) (s : S) :
    Run.Translates view (Option.map (Prod.map id (Progress.map f h)))
      (run host m criteria e rounds s) (run host' n criteria e' rounds (h s)) :=
  translates_run_on hh hm he.on rounds trivial

theorem Reaches.of_translates (hh : host.Translates view host') (hm : m.Translates view f n)
    (he : Engine.Translates view f h g e e') {p₀ : Progress V S} {w₀ : World γ σ} {stop : Bool}
    {q : Progress U S'} {u : World γ τ}
    (hr : Reaches host' n criteria e' (p₀.map f h) (w₀.through view) stop q u) :
    ∃ p w, Reaches host m criteria e p₀ w₀ stop p w ∧ p.map f h = q ∧ w.through view = u := by
  induction hr with
  | start => exact ⟨p₀, w₀, .start, rfl, rfl⟩
  | step _ henters hiterates ih =>
    obtain ⟨p, w, hp, rfl, rfl⟩ := ih
    rw [show (w.through view).state = view w.state from rfl, verdict_map hh (he.enter _ _)] at henters
    rcases hv : verdict host criteria e p w.state with reason | s <;> rw [hv] at henters
    · cases henters
    · obtain rfl := Except.ok.inj henters
      obtain ⟨⟨p', stop'⟩, w', hit, hpair, rfl⟩ := (translates_iterate he.on hm trivial).eq_ok hiterates
      obtain ⟨rfl, rfl⟩ := Prod.mk.inj hpair
      exact ⟨p', w', .step hp hv hit, rfl, rfl⟩

end Search

end Metaheuristics
