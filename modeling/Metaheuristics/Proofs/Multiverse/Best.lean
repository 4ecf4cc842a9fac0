import Metaheuristics.Proofs.Model.Ordered
import Metaheuristics.Proofs.Multiverse.Moves
import Metaheuristics.Proofs.Multiverse.Translation
import Metaheuristics.Proofs.Search.Watching
import Metaheuristics.Proofs.Settings.Checks

/-!
# The best universe

On a model that orders its fitness, the best universe is the first of the elite wherever a run gets
to, and no universe that has been evaluated is better (`leads_of_visits`).  What has been evaluated
is read off the calls of the watched model, with the worst fitness in place of an absent one.
-/

namespace Metaheuristics.Multiverse

variable {γ σ V : Type} {P : Option V → Prop} {m : Model γ σ V} {settings : Settings}
  {w w' : World γ (σ × List (Call V))}

theorem settle_of_populate {us : List (Candidate V)}
    (h : (populate m.watched settings).exec w = (.ok us, w')) :
    ∃ positions v, (m.watched.settle positions).exec v = (.ok us, w') ∧
      evaluated v.state.2 = evaluated w.state.2 := by
  obtain ⟨positions, v, hpositions, h⟩ := Run.bind_eq_ok.mp h
  exact ⟨positions, v, h, Model.startingPositions_evaluated hpositions⟩

theorem populate_eq_ok (hm : m.Ordered P) {us : List (Candidate V)}
    (h : (populate m.watched settings).exec w = (.ok us, w')) :
    (evaluated w'.state.2).map m.complete = (evaluated w.state.2).map m.complete ++ us ∧
      ∀ c ∈ us, P c.fitness := by
  obtain ⟨positions, v, hsettle, hv⟩ := settle_of_populate h
  rw [← hv]
  exact hm.settle_eq_ok hsettle

variable [Random.Source γ]

theorem settle_of_explore {math : Elementary} {progress : Float} {s : State V}
    {us : List (Candidate V)}
    (h : (explore m.watched settings math progress s).exec w = (.ok us, w')) :
    ∃ positions v, (m.watched.settle positions).exec v = (.ok us, w') ∧ v.state = w.state := by
  obtain ⟨positions, v, hpositions, h⟩ := Run.bind_eq_ok.mp h
  refine ⟨positions, v, h, Run.Ensures.state_eq (P := fun _ => True) (fun I => ?_) hpositions⟩
  exact Run.Ensures.mono (Run.Ensures.mapM fun x _ =>
    ensures_transformAt m.bounds _ s.best.position x.1 x.2) fun _ _ => trivial

theorem explore_eq_ok (hm : m.Ordered P) {math : Elementary} {progress : Float} {s : State V}
    {us : List (Candidate V)}
    (h : (explore m.watched settings math progress s).exec w = (.ok us, w')) :
    (evaluated w'.state.2).map m.complete = (evaluated w.state.2).map m.complete ++ us ∧
      ∀ c ∈ us, P c.fitness := by
  obtain ⟨positions, v, hsettle, hv⟩ := settle_of_explore h
  rw [← hv]
  exact hm.settle_eq_ok hsettle

theorem Visits.history {host : Host σ} {w₀ w : World γ σ} {stop : Bool} {p : Progress V (State V)}
    (h : Visits m settings host w₀ stop p w) : p.tracker.iteration = 0 ∨
      p.history.toList.getLast? = some (m.present p.engine.best.fitness) := by
  obtain ⟨-, s, v₀, -, hreaches⟩ := h
  exact hreaches.history

theorem Visits.watched {host : Host σ} {w u : World γ σ} {stop : Bool} {p : Progress V (State V)}
    (h : Visits m settings host w stop p u) :
    ∃ v, Visits m.watched settings host.watched w.watched stop p v := by
  obtain ⟨q, v, hq, hp, -⟩ := Visits.of_translates settings m.watched_translates
    host.watched_translates (w := w.watched) h
  rw [Progress.map_id State.map_id] at hp
  exact ⟨v, hp ▸ hq⟩

/-- **The best universe leads** wherever a run gets to. -/
theorem leads_of_visits (hm : m.Ordered P) {host : Host σ} {w₀ : World γ σ} {stop : Bool}
    {p : Progress V (State V)}
    (h : Visits m.watched settings host.watched w₀.watched stop p w) :
    m.Leads P p.engine.best p.engine.elite ((evaluated w.state.2).map m.complete) := by
  obtain ⟨hcheck, s, v, hs, hreaches⟩ := h
  have hcapacity : 0 < settings.solutionAmount := (Settings.check_eq_ok.mp hcheck).2.1
  induction hreaches with
  | start =>
    obtain ⟨us, u, hus, hgather⟩ := Run.bind_eq_ok.mp hs
    obtain ⟨best, hbest, rfl, rfl⟩ := gather_eq_ok hgather
    obtain ⟨hseen, hP⟩ := populate_eq_ok hm hus
    rw [hseen]
    exact Model.Leads.start hm hcapacity hP hbest
  | step _ henters hiterates ih =>
    obtain rfl := Option.some.inj (Search.enter_of_verdict henters)
    obtain ⟨us, u, s', better, u', hexplore, habsorb, rfl, hseen⟩ :=
      Search.iterate_eq_ok_evaluated hiterates
    obtain ⟨leader, hleader, rfl, rfl, rfl⟩ := absorb_eq_ok habsorb
    obtain ⟨_, _, hget, hexplore⟩ := Run.bind_eq_ok.mp hexplore
    obtain ⟨rfl, rfl⟩ := Run.pure_eq_ok.mp hget
    obtain ⟨hevaluated, hP⟩ := explore_eq_ok hm hexplore
    rw [hseen, hevaluated]
    exact Model.Leads.refresh hm hcapacity hP ih hleader

end Metaheuristics.Multiverse
