import Metaheuristics.Proofs.Model.Calls
import Metaheuristics.Proofs.Search.Reach

/-!
# Watched searches

At the end of an iteration the model is told of it, which evaluates nothing: the candidates
evaluated in an iteration are those of its batch (`iterate_eq_ok_evaluated`).
-/

namespace Metaheuristics.Search

variable {γ σ V S B : Type} {m : Model γ σ V} {e : Engine γ (σ × List (Call V)) V S B}

theorem evaluated_of_tells {tracker : Tracker} {best : Option V} {stop : Bool}
    {v u w : World γ (σ × List (Call V))}
    (hflush : (Run.call m.watched.flush).exec v = (.ok (), u))
    (hobserve : (Run.call (m.watched.observe tracker best)).exec u = (.ok stop, w)) :
    evaluated w.state.2 = evaluated v.state.2 := by
  rw [← (Prod.mk.inj hobserve).2, ← (Prod.mk.inj hflush).2]
  show evaluated ((v.state.2 ++ [Call.flush]) ++ [Call.observe _ _]) = _
  rw [evaluated_append, evaluated_append]
  exact (List.append_nil _).trans (List.append_nil _)

/-- **An iteration of a watched search** evaluates what its batch does. -/
theorem iterate_eq_ok_evaluated {p p' : Progress V S} {s : S} {stop : Bool}
    {w w' : World γ (σ × List (Call V))}
    (h : (iterate m.watched e p s).exec w = (.ok (p', stop), w')) :
    ∃ batch v s' better v', (e.explore p.tracker s).exec w = (.ok batch, v) ∧
      (e.absorb s batch).exec v = (.ok (s', better), v') ∧
      p' = ⟨p.tracker.next better, s', p.history.push (m.present (e.best s'))⟩ ∧
      evaluated w'.state.2 = evaluated v'.state.2 := by
  obtain ⟨batch, v, s', better, v', hexplore, habsorb, hp', u, hflush, hobserve⟩ :=
    iterate_eq_ok h
  exact ⟨batch, v, s', better, v', hexplore, habsorb, hp', evaluated_of_tells hflush hobserve⟩

end Metaheuristics.Search
