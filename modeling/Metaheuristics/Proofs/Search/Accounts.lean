import Metaheuristics.Proofs.Runs.Traces
import Metaheuristics.Proofs.Search.Reach

/-!
# Accounts of searches

What a search on a watched model has called is accounted for by what it has evaluated: some
candidates at the start, then those of each completed iteration, each followed by the release and
the observer, and in the end those of an iteration that has not been completed (`Account`).  No
evaluation of a completed iteration has failed.  Where one fails, the iteration ends there, and
leaves nothing behind but the calls of its evaluations (`iterate_traced`, `loop_account`).
-/

namespace Metaheuristics

variable {γ σ V S B α : Type}

/-! ## Accounts -/

/-- **A completed iteration**: what it has evaluated, and what its observer was told. -/
structure Lap (V : Type) where
  tried : List Position
  tracker : Tracker
  best : Option V

/-- The calls of a completed iteration. -/
def Lap.calls (r : Replies V) (lap : Lap V) : List (Call V) :=
  lap.tried.flatMap r.calls ++ [.flush, .observe lap.tracker lap.best]

/-- **What a run has evaluated.** -/
structure Account (V : Type) where
  /-- The starting candidates, as far as they have been evaluated. -/
  opening : List Position
  laps : List (Lap V)
  /-- The candidates of an iteration that has not been completed. -/
  unfinished : List Position

namespace Account

/-- **All candidates that have been evaluated**, in their order. -/
def positions (a : Account V) : List Position :=
  a.opening ++ a.laps.flatMap Lap.tried ++ a.unfinished

/-- The calls up to the end of the last completed iteration. -/
def completed (r : Replies V) (a : Account V) : List (Call V) :=
  a.opening.flatMap r.calls ++ a.laps.flatMap (Lap.calls r)

/-- **All calls.** -/
def calls (r : Replies V) (a : Account V) : List (Call V) :=
  a.completed r ++ a.unfinished.flatMap r.calls

/-- The history of the completed iterations. -/
def history (m : Model γ σ V) (a : Account V) : List V :=
  a.laps.map fun lap => m.present lap.best

/-- **The account of a run**: `result` and `calls` are what it has ended with, `head` says which
positions of the loop it has passed, and `read` what is read off the end. -/
structure Of (m : Model γ σ V) (r : Replies V)
    (head : Progress V S → World γ (σ × List (Call V)) → Prop) (read : α → Outcome V)
    (result : Except Failure (Option α)) (calls : List (Call V)) (a : Account V) : Prop where
  calls_eq : calls = a.calls r
  /-- The run fails with the first error of an evaluation, which is the last one. -/
  blames : r.Blames a.positions result
  /-- The evaluations of completed iterations have not failed. -/
  fine : ∀ lap ∈ a.laps, ∀ x ∈ lap.tried, r.error? x = none
  /-- An iteration has begun at a head at which all before it was completed. -/
  begun : a.laps ≠ [] ∨ a.unfinished ≠ [] → (∀ x ∈ a.opening, r.error? x = none) ∧
    ∃ p v, head p v ∧ v.state.2 = a.completed r ∧ p.history.toList = a.history m
  /-- A run with an outcome has completed all its iterations. -/
  ended : ∀ o, result = .ok (some o) → a.unfinished = [] ∧
    (read o).iterations = a.laps.length ∧ (read o).history = a.history m

namespace Of

variable {m : Model γ σ V} {r : Replies V} {view : α → Outcome V}
  {head head' : Progress V S → World γ (σ × List (Call V)) → Prop}

theorem mono {result : Except Failure (Option α)} {calls : List (Call V)} {a : Account V}
    (h : Of m r head view result calls a) (hhead : ∀ p v, head p v → head' p v) :
    Of m r head' view result calls a where
  calls_eq := h.calls_eq
  blames := h.blames
  fine := h.fine
  begun hany := by
    obtain ⟨hopening, p, v, hp, hv⟩ := h.begun hany
    exact ⟨hopening, p, v, hhead p v hp, hv⟩
  ended := h.ended

theorem failing {result : Except Failure (Option α)} {calls : List (Call V)} {a : Account V}
    (h : Of m r head view result calls a) {error : EvaluationError}
    (herror : result = .error (.evaluation error)) :
    ∃ x, a.positions.getLast? = some x ∧ r.Passes x ∧ r.objective x = .error error ∧
      (a.unfinished.getLast? = some x ∨
        a.opening.getLast? = some x ∧ a.laps = [] ∧ a.unfinished = []) := by
  obtain ⟨x, hlast, hxerror⟩ := h.blames.exists_last herror
  obtain ⟨hpasses, hobjective⟩ := Replies.error?_eq_some.mp hxerror
  refine ⟨x, hlast, hpasses, hobjective, ?_⟩
  by_cases hunfinished : a.unfinished = []
  · have hx : x ∈ a.opening ++ a.laps.flatMap Lap.tried := by
      rw [Account.positions, hunfinished, List.append_nil] at hlast
      exact List.mem_of_getLast? hlast
    have hlaps : a.laps = [] := by
      by_contra hlaps
      have hnone : r.error? x = none := by
        rcases List.mem_append.mp hx with hx | hx
        · exact (h.begun (Or.inl hlaps)).1 x hx
        · obtain ⟨lap, hlap, hx⟩ := List.mem_flatMap.mp hx
          exact h.fine lap hlap x hx
      rw [hnone] at hxerror
      cases hxerror
    rw [Account.positions, hunfinished, hlaps, List.append_nil] at hlast
    exact Or.inr ⟨by rwa [List.flatMap_nil, List.append_nil] at hlast, hlaps, hunfinished⟩
  · rw [Account.positions, List.getLast?_append_of_ne_nil _ hunfinished] at hlast
    exact Or.inl hlast

theorem refused {x : Run γ (σ × List (Call V)) (Option α)} {w : World γ σ}
    {error : SettingsError} (h : x.exec w.watched = (.error (.settings error), w.watched)) :
    Of m r head view (x.exec w.watched).1 (x.calls w) ⟨[], [], []⟩ where
  calls_eq := by
    unfold Run.calls
    rw [h]
    rfl
  blames := by
    rw [h]
    exact .nil fun _ heq => by cases heq
  fine _ hlap := by cases hlap
  begun hany := by rcases hany with hany | hany <;> exact absurd rfl hany
  ended _ ho := by
    rw [h] at ho
    cases ho

end Of

end Account

/-- **The calls of an engine are evaluations.** -/
structure Engine.Traced (r : Replies V) (e : Engine γ (σ × List (Call V)) V S B) : Prop where
  explore : ∀ t s, Run.Traced r (e.explore t s)
  absorb : ∀ s b, Run.Traced r (e.absorb s b)

namespace Search

variable {r : Replies V} {host : Host (σ × List (Call V))} {m : Model γ σ V}
  {criteria : StopCriteria} {e : Engine γ (σ × List (Call V)) V S B}

/-! ## Iterations -/

/-- **An iteration** fails with its first evaluation that fails, and calls nothing else; or it is
completed, with the release, the observer and one entry of the history. -/
theorem iterate_traced (he : e.Traced r) (p : Progress V S) (s : S)
    (w : World γ (σ × List (Call V))) :
    (∃ failure xs w', (iterate m.watched e p s).exec w = (.error failure, w') ∧
        w'.state.2 = w.state.2 ++ xs.flatMap r.calls ∧
        r.Blames xs (.error failure : Except Failure Unit)) ∨
      ∃ p' stop lap w', (iterate m.watched e p s).exec w = (.ok (p', stop), w') ∧
        w'.state.2 = w.state.2 ++ Lap.calls r lap ∧ (∀ x ∈ lap.tried, r.error? x = none) ∧
        p'.tracker.iteration = p.tracker.iteration + 1 ∧
        p'.history.toList = p.history.toList ++ [m.present lap.best] := by
  rcases hiterate : (iterate m.watched e p s).exec w with ⟨failure | ⟨p', stop⟩, w'⟩
  · left
    obtain ⟨xs, hcalls, hblames⟩ := he.explore p.tracker s w
    rcases Run.bind_eq_error.mp hiterate with hexplore | ⟨batch, v, hexplore, hiterate⟩
    · rw [hexplore] at hcalls hblames
      exact ⟨failure, xs, w', rfl, hcalls, hblames.error⟩
    · rw [hexplore] at hcalls hblames
      obtain ⟨ys, hcalls', hblames'⟩ := he.absorb s batch v
      rcases Run.bind_eq_error.mp hiterate with habsorb | ⟨_, _, -, htells⟩
      · rw [habsorb] at hcalls' hblames'
        refine ⟨failure, xs ++ ys, w', rfl, ?_, (hblames'.append hblames.fine).error⟩
        rw [hcalls', hcalls, List.flatMap_append, List.append_assoc]
      · cases htells
  · right
    obtain ⟨batch, v, s', better, v', hexplore, habsorb, rfl, u, hflush, hobserve⟩ :=
      iterate_eq_ok hiterate
    obtain ⟨xs, hcalls, hblames⟩ := he.explore p.tracker s w
    obtain ⟨ys, hcalls', hblames'⟩ := he.absorb s batch v
    rw [hexplore] at hcalls hblames
    rw [habsorb] at hcalls' hblames'
    have hevaluated : v'.state.2 = w.state.2 ++ (xs ++ ys).flatMap r.calls := by
      rw [List.flatMap_append, ← List.append_assoc]
      exact hcalls'.trans (congrArg (· ++ _) hcalls)
    refine ⟨_, stop, ⟨xs ++ ys, p.tracker.next better, e.best s'⟩, w', rfl, ?_, ?_, rfl, ?_⟩
    · rw [← (Prod.mk.inj hobserve).2, ← (Prod.mk.inj hflush).2, Lap.calls, ← List.append_assoc,
        ← hevaluated]
      exact List.append_assoc _ _ _
    · exact List.forall_mem_append.mpr ⟨hblames.fine, hblames'.fine⟩
    · exact Array.toList_push

/-! ## The loop -/

/-- **What a loop has done** from the progress `p` and the calls `calls` on: it has completed some
iterations and come to the head `q`, and there it has ended, or has begun an iteration that has not
been completed. -/
structure Goes (r : Replies V) (m : Model γ σ V) (p : Progress V S) (calls : List (Call V))
    (laps : List (Lap V)) (unfinished : List Position) (q : Progress V S)
    (v w' : World γ (σ × List (Call V)))
    (result : Except Failure (Option (StopReason × Progress V S))) : Prop where
  completed : v.state.2 = calls ++ laps.flatMap (Lap.calls r)
  fine : ∀ lap ∈ laps, ∀ x ∈ lap.tried, r.error? x = none
  iteration : q.tracker.iteration = p.tracker.iteration + laps.length
  history : q.history.toList = p.history.toList ++ laps.map fun lap => m.present lap.best
  left : w'.state.2 = v.state.2 ++ unfinished.flatMap r.calls
  blames : r.Blames unfinished result
  ended : ∀ reason p', result = .ok (some (reason, p')) → unfinished = [] ∧ p' = q

theorem Goes.stay (r : Replies V) (m : Model γ σ V) {p : Progress V S}
    (w : World γ (σ × List (Call V))) (result : Option (StopReason × Progress V S))
    (h : ∀ reason p', result = some (reason, p') → p' = p) :
    Goes r m p w.state.2 [] [] p w w (.ok result) where
  completed := (List.append_nil _).symm
  fine _ hlap := by cases hlap
  iteration := rfl
  history := (List.append_nil _).symm
  left := (List.append_nil _).symm
  blames := .nil fun _ h => by cases h
  ended reason p' heq := ⟨rfl, h reason p' (Except.ok.inj heq)⟩

theorem Goes.step {r : Replies V} {m : Model γ σ V} {p p' q : Progress V S} {calls : List (Call V)}
    {lap : Lap V} {laps : List (Lap V)} {unfinished : List Position}
    {v w' : World γ (σ × List (Call V))}
    {result : Except Failure (Option (StopReason × Progress V S))}
    (hfine : ∀ x ∈ lap.tried, r.error? x = none)
    (hiteration : p'.tracker.iteration = p.tracker.iteration + 1)
    (hhistory : p'.history.toList = p.history.toList ++ [m.present lap.best])
    (h : Goes r m p' (calls ++ lap.calls r) laps unfinished q v w' result) :
    Goes r m p calls (lap :: laps) unfinished q v w' result where
  completed := by rw [h.completed, List.flatMap_cons, List.append_assoc]
  fine := List.forall_mem_cons.mpr ⟨hfine, h.fine⟩
  iteration := by
    rw [h.iteration, hiteration, List.length_cons]
    omega
  history := by rw [h.history, hhistory, List.append_assoc]; rfl
  left := h.left
  blames := h.blames
  ended := h.ended

theorem loop_account (he : e.Traced r) (rounds : Nat) {p₀ p : Progress V S}
    {w₀ w : World γ (σ × List (Call V))}
    (hp : Reaches host m.watched criteria e p₀ w₀ false p w) :
    ∃ laps unfinished stop q v, Reaches host m.watched criteria e p₀ w₀ stop q v ∧
      Goes r m p w.state.2 laps unfinished q v
        ((loop host m.watched criteria e rounds p).exec w).2
        ((loop host m.watched criteria e rounds p).exec w).1 := by
  induction rounds generalizing p w with
  | zero => exact ⟨[], [], false, p, w, hp, .stay r m w none fun _ _ h => by cases h⟩
  | succ rounds ih =>
    rcases hv : verdict host criteria e p w.state with reason | s
    · rw [loop_of_reason hv]
      exact ⟨[], [], false, p, w, hp, .stay r m w (some (reason, p)) fun _ _ h => by cases h; rfl⟩
    rcases iterate_traced he p s w with ⟨failure, xs, w', hiterate, hcalls, hblames⟩ |
      ⟨p', stop, lap, w', hiterate, hcalls, hfine, hiteration, hhistory⟩
    · refine ⟨[], xs, false, p, w, hp, ?_⟩
      rw [loop_of_failure hv hiterate]
      exact ⟨(List.append_nil _).symm, fun _ hlap => (by cases hlap), rfl,
        (List.append_nil _).symm, hcalls, hblames.error, fun _ _ h => by cases h⟩
    · have hp' := Reaches.step hp hv hiterate
      rw [loop_of_iterate hv hiterate]
      cases stop
      · obtain ⟨laps, unfinished, stop, q, v, hq, hgoes⟩ := ih hp'
        rw [hcalls] at hgoes
        exact ⟨lap :: laps, unfinished, stop, q, v, hq, .step hfine hiteration hhistory hgoes⟩
      · have hgoes : Goes r m p' w'.state.2 [] [] p' w' w' (.ok (some (.observer, p'))) :=
          .stay r m w' _ fun _ _ h => by cases h; rfl
        rw [hcalls] at hgoes
        exact ⟨[lap], [], true, p', w', hp', .step hfine hiteration hhistory hgoes⟩

/-! ## Runs -/

theorem exists_of_map_eq_some {α β : Type} {f : α → β} {result : Except Failure (Option α)} {b : β}
    (h : result.map (Option.map f) = .ok (some b)) : ∃ a, result = .ok (some a) ∧ f a = b := by
  rcases result with _ | _ | a
  · cases h
  · cases h
  · exact ⟨a, rfl, Option.some.inj (Except.ok.inj h)⟩

/-- **The account of a run** that searches from a start. -/
theorem exists_account (host : Host (σ × List (Call V))) (criteria : StopCriteria)
    {start : Run γ (σ × List (Call V)) S} (hstart : Run.Traced r start) (he : e.Traced r)
    (rounds : Nat) (read : StopReason × Progress V S → α) (view : α → Outcome V)
    (hview : ∀ reason p, (view (read (reason, p))).iterations = p.tracker.iteration ∧
      (view (read (reason, p))).history = p.history.toList) (w : World γ σ) :
    ∃ a, Account.Of m r
      (fun p v => ∃ s v₀ stop, start.exec w.watched = (.ok s, v₀) ∧
        Reaches host m.watched criteria e (begin s) v₀ stop p v) view
      (Run.exec (do
        let s ← start
        let result ← run host m.watched criteria e rounds s
        return result.map read) w.watched).1
      (Run.calls (do
        let s ← start
        let result ← run host m.watched criteria e rounds s
        return result.map read) w) a := by
  unfold Run.calls
  obtain ⟨xs, hcalls, hblames⟩ := hstart w.watched
  have hcalls : (start.exec w.watched).2.state.2 = xs.flatMap r.calls := hcalls
  rcases hs : start.exec w.watched with ⟨failure | s, v₀⟩ <;> rw [hs] at hcalls hblames
  · rw [Run.bind_eq_error.mpr (Or.inl hs)]
    refine ⟨⟨xs, [], []⟩, ?_, ?_, fun _ hlap => (by cases hlap), ?_, fun _ h => by cases h⟩
    · simpa [Account.calls, Account.completed] using hcalls
    · simpa [Account.positions] using hblames.error
    · rintro (h | h) <;> exact absurd rfl h
  · rw [Run.exec_bind, hs]
    dsimp only
    rw [Run.exec_bind_pure]
    obtain ⟨laps, unfinished, stop, q, v, hq, hgoes⟩ :=
      loop_account he rounds (Reaches.start : Reaches host m.watched criteria e (begin s) v₀ false
        (begin s) v₀)
    have hfine : ∀ x ∈ xs ++ laps.flatMap Lap.tried, r.error? x = none := by
      refine List.forall_mem_append.mpr ⟨hblames.fine, fun x hx => ?_⟩
      obtain ⟨lap, hlap, hx⟩ := List.mem_flatMap.mp hx
      exact hgoes.fine lap hlap x hx
    have hcompleted : v.state.2 = (Account.mk xs laps unfinished).completed r :=
      hgoes.completed.trans (congrArg (· ++ _) hcalls)
    have hhistory : q.history.toList = (Account.mk xs laps unfinished).history m := hgoes.history
    refine ⟨⟨xs, laps, unfinished⟩, ?_, (hgoes.blames.append hfine).map _, hgoes.fine,
      fun _ => ⟨hblames.fine, q, v, ⟨s, v₀, stop, rfl, hq⟩, hcompleted, hhistory⟩,
      fun o ho => ?_⟩
    · exact hgoes.left.trans (congrArg (· ++ _) hcompleted)
    · obtain ⟨⟨reason, p'⟩, hresult, rfl⟩ := exists_of_map_eq_some ho
      obtain ⟨hunfinished, rfl⟩ := hgoes.ended reason p' hresult
      obtain ⟨hiterations, hentries⟩ := hview reason p'
      refine ⟨hunfinished, ?_, hentries.trans hhistory⟩
      rw [hiterations, hgoes.iteration]
      exact Nat.zero_add _

end Search

end Metaheuristics
