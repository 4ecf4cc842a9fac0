import Metaheuristics.Proofs.Model.Ordered
import Metaheuristics.Proofs.Search.Watching
import Metaheuristics.Proofs.Swarm.Moves
import Metaheuristics.Proofs.Swarm.Translation

/-!
# The best state of a swarm

On a model that orders its fitness, the best state of a swarm is the first of its elite wherever its
run gets to, and no state that a particle has been evaluated in is better (`leads_of_visits`).  What
has been evaluated is read off the calls of the watched model.
-/

namespace Metaheuristics.Swarm

variable {γ σ V : Type} {P : Option V → Prop} {m : Model γ σ V} {settings : Settings}
  {w w' : World γ (σ × List (Call V))} [Random.Source γ]

theorem populate_eq_ok (hm : m.Ordered P) {ps : List (Particle V)}
    (h : (populate m.watched settings).exec w = (.ok ps, w')) :
    evaluated w'.state.2 = evaluated w.state.2 ++ ps.map (·.snapshot) ∧
      ∀ c ∈ ps.map (·.snapshot), P c.fitness := by
  obtain ⟨positions, v, v', hpositions, hcs, hw', -⟩ := launched_of_populate h
  rw [hw', Model.evaluateAll_eq_ok_evaluated hcs, Model.startingPositions_evaluated hpositions]
  exact ⟨rfl, hm.watched.evaluateAll hcs⟩

theorem candidates_of_explore {s : State V} {ps : List (Particle V)}
    (h : (explore m.watched settings s).exec w = (.ok ps, w')) :
    ∃ positions v, (m.watched.evaluateAll positions).exec v = (.ok (ps.map (·.snapshot)), w') ∧
      v.state = w.state := by
  obtain ⟨moved, v, hmoved, h⟩ := Run.bind_eq_ok.mp h
  refine ⟨_, v, mapM_appraise_eq_ok h, Run.Ensures.state_eq (P := fun _ => True) (fun I => ?_)
    hmoved⟩
  exact Run.Ensures.mono (Run.Ensures.mapM fun p _ =>
    Particle.ensures_move m.bounds s.best.position p) fun _ _ => trivial

theorem explore_eq_ok (hm : m.Ordered P) {s : State V} {ps : List (Particle V)}
    (h : (explore m.watched settings s).exec w = (.ok ps, w')) :
    evaluated w'.state.2 = evaluated w.state.2 ++ ps.map (·.snapshot) ∧
      ∀ c ∈ ps.map (·.snapshot), P c.fitness := by
  obtain ⟨positions, v, hcs, hv⟩ := candidates_of_explore h
  rw [Model.evaluateAll_eq_ok_evaluated hcs, hv]
  exact ⟨rfl, hm.watched.evaluateAll hcs⟩

theorem Visits.history {host : Host σ} {w₀ w : World γ σ} {stop : Bool} {p : Progress V (State V)}
    (h : Visits m settings host w₀ stop p w) : p.tracker.iteration = 0 ∨
      p.history.toList.getLast? = some (m.present p.engine.best.fitness) := by
  obtain ⟨-, s, v₀, -, hreaches⟩ := h
  exact hreaches.history

theorem Visits.watched {host : Host σ} {w u : World γ σ} {stop : Bool} {p : Progress V (State V)}
    (h : Visits m settings host w stop p u) :
    ∃ v, Visits m.watched settings host.watched w.watched stop p v := by
  obtain ⟨q, v, hq, hp, -⟩ := Visits.of_translates settings m.watched_translates
    host.watched_translates (w := w.watched) h
  rw [Progress.map_id State.map_id] at hp
  exact ⟨v, hp ▸ hq⟩

/-- **The best state of a swarm leads** wherever its run gets to. -/
theorem leads_of_visits (hm : m.Ordered P) {host : Host σ} {w₀ : World γ σ} {stop : Bool}
    {p : Progress V (State V)}
    (h : Visits m.watched settings host.watched w₀.watched stop p w) :
    m.Leads P p.engine.best p.engine.elite (evaluated w.state.2) := by
  obtain ⟨hcheck, s, v, hs, hreaches⟩ := h
  have hcapacity : 0 < settings.solutionAmount := (Settings.check_eq_ok.mp hcheck).2.1
  induction hreaches with
  | start =>
    obtain ⟨ps, u, hps, hgather⟩ := Run.bind_eq_ok.mp hs
    obtain ⟨leader, hleader, rfl, rfl⟩ := gather_eq_ok hgather
    obtain ⟨hseen, hP⟩ := populate_eq_ok hm hps
    rw [hseen, leaders_rank]
    exact Model.Leads.start hm hcapacity hP (head?_sort_snapshots hleader)
  | step _ henters hiterates ih =>
    obtain rfl := Option.some.inj (Search.enter_of_verdict henters)
    obtain ⟨ps, u, s', better, u', hexplore, habsorb, rfl, hseen⟩ :=
      Search.iterate_eq_ok_evaluated hiterates
    obtain ⟨leader, hleader, rfl, rfl, rfl⟩ := absorb_eq_ok habsorb
    obtain ⟨hevaluated, hP⟩ := explore_eq_ok hm hexplore
    rw [hseen, hevaluated, leaders_rank]
    exact Model.Leads.refresh hm hcapacity hP ih (head?_sort_snapshots hleader)

end Metaheuristics.Swarm
