import Metaheuristics.Proofs.Annealing.Best
import Metaheuristics.Proofs.Multiverse.Best
import Metaheuristics.Proofs.Outcomes.TopOfRun
import Metaheuristics.Proofs.Swarm.Best

/-!
# The first solution is the best candidate of a run

Each engine keeps two records of its best candidate, the one it steers by and the first of its
elite.  On a model that orders its fitness they are the same wherever a run gets to, so the history
ends with the fitness of the first solution, and nothing evaluated in the run is better
(`first_is_best`).
-/

namespace Metaheuristics

variable {γ σ V : Type} {P : Option V → Prop} {m : Model γ σ V} {host : Host σ} {w w' : World γ σ}
  {rounds : Nat}

/-- **The first solution is the best** of the candidates seen, and the history ends with it. -/
def Outcome.BestFirst (m : Model γ σ V) (seen : List (Candidate V)) (o : Outcome V) : Prop :=
  ∃ first, o.solutions.head? = some first ∧
    (0 < o.iterations → o.history.getLast? = some (m.present first.fitness)) ∧
    ∀ c ∈ seen, m.compare c.fitness first.fitness ≠ .lt

theorem Model.Leads.bestFirst (hm : m.Ordered P) {best : Candidate V} {seen : List (Candidate V)}
    {o : Outcome V} (h : m.Leads P best o.solutions seen)
    (hhistory : o.iterations = 0 ∨ o.history.getLast? = some (m.present best.fitness)) :
    o.BestFirst m seen := by
  refine ⟨best, h.head, fun hpos => ?_, fun c hc => h.not_better hm hc⟩
  rcases hhistory with hzero | hlast
  · exact absurd hzero (Nat.ne_of_gt hpos)
  · exact hlast

/-! ## Engines whose record leads -/

/-- **The record of an engine leads** wherever a run gets to.  `visits` are the positions of the run,
and `watched` those of the watched run. -/
structure Leading {S : Type} (m : Model γ σ V) (P : Option V → Prop)
    (visits : Bool → Progress V S → World γ σ → Prop)
    (watched : Bool → Progress V S → World γ (σ × List (Call V)) → Prop)
    (record : S → Candidate V) (solutions : S → List (Candidate V))
    (seen : List (Candidate V) → List (Candidate V)) : Prop where
  watches : ∀ {stop p u}, visits stop p u → ∃ v, watched stop p v
  leads : ∀ {stop p v}, watched stop p v →
    m.Leads P (record p.engine) (solutions p.engine) (seen (evaluated v.state.2))
  history : ∀ {stop p v}, watched stop p v → p.tracker.iteration = 0 ∨
    p.history.toList.getLast? = some (m.present (record p.engine).fitness)

section
variable {S α : Type} {visits : Bool → Progress V S → World γ σ → Prop}
  {watched : Bool → Progress V S → World γ (σ × List (Call V)) → Prop} {record : S → Candidate V}
  {solutions : S → List (Candidate V)} {seen : List (Candidate V) → List (Candidate V)}
  (h : Leading m P visits watched record solutions seen)
include h

theorem Leading.head {stop : Bool} {p : Progress V S} {u : World γ σ} (hp : visits stop p u) :
    (solutions p.engine).head? = some (record p.engine) := by
  obtain ⟨_, hwatched⟩ := h.watches hp
  exact (h.leads hwatched).head

theorem Leading.ordered {stop : Bool} {p : Progress V S} {u : World γ σ} (hp : visits stop p u) :
    P (record p.engine).fitness := by
  obtain ⟨_, hwatched⟩ := h.watches hp
  exact (h.leads hwatched).ordered

/-- **An outcome that is read off a position** of the watched run has the best candidate first. -/
theorem Leading.bestFirst (hm : m.Ordered P) {x : Run γ σ (Option α)}
    {y : Run γ (σ × List (Call V)) (Option α)} {f : α → α}
    (hxy : Run.Translates Prod.fst (Option.map f) y x) (hf : ∀ a, f a = a) {T : α → Outcome V}
    {read : StopReason → Progress V S → α}
    (hread : ∀ {a v}, y.exec w.watched = (.ok (some a), v) →
      ∃ stop reason p, watched stop p v ∧ a = read reason p)
    (hT : ∀ reason p, T (read reason p)
      = ⟨solutions p.engine, p.tracker.iteration, reason, p.history.toList⟩)
    {a : α} (ha : x.exec w = (.ok (some a), w')) :
    (T a).BestFirst m (seen (evaluated (y.calls w))) := by
  obtain ⟨v, hrun, hcalls⟩ := Run.watched_eq_ok hxy hf ha
  obtain ⟨stop, reason, p, hp, rfl⟩ := hread hrun
  rw [hcalls, hT]
  exact Model.Leads.bestFirst hm (h.leads hp) (h.history hp)

end

section
variable [Random.Source γ]

theorem Swarm.leading (hm : m.Ordered P) (settings : Settings) (host : Host σ) (w : World γ σ) :
    Leading m P (Visits m settings host w) (Visits m.watched settings host.watched w.watched)
      State.best State.elite id :=
  ⟨Visits.watched, leads_of_visits hm, Visits.history⟩

theorem Multiverse.leading (hm : m.Ordered P) (settings : Settings) (host : Host σ)
    (w : World γ σ) :
    Leading m P (Visits m settings host w) (Visits m.watched settings host.watched w.watched)
      State.best State.elite (List.map m.complete) :=
  ⟨Visits.watched, leads_of_visits hm, Visits.history⟩

theorem Annealing.leading (hm : m.Ordered P) (settings : Settings) (host : Host σ)
    (w : World γ σ) :
    Leading m P (Visits m settings host w) (Visits m.watched settings host.watched w.watched)
      (fun s => s.chain.best.toCandidate) State.elite (List.map m.complete) :=
  ⟨Visits.watched, fun h => (tracks_of_visits hm h).leads, Visits.history⟩

/-- **The first of the elite is the best record** wherever a run gets to, and the first solution of
an outcome the best candidate evaluated in the run. -/
theorem first_is_best (m : Model γ σ V) (hm : m.Ordered P) (host : Host σ) (w : World γ σ) :
    (∀ settings : Swarm.Settings,
      (∀ stop p v, Swarm.Visits m settings host w stop p v →
        p.engine.elite.head? = some p.engine.best) ∧
      ∀ rounds o w', (Swarm.run m settings host rounds).exec w = (.ok (some o), w') →
        o.BestFirst m
          (evaluated ((Swarm.run m.watched settings host.watched rounds).calls w))) ∧
    (∀ settings : Multiverse.Settings,
      (∀ stop p v, Multiverse.Visits m settings host w stop p v →
        p.engine.elite.head? = some p.engine.best) ∧
      ∀ rounds o w', (Multiverse.run m settings host rounds).exec w = (.ok (some o), w') →
        o.BestFirst m ((evaluated
          ((Multiverse.run m.watched settings host.watched rounds).calls w)).map m.complete)) ∧
    ∀ settings : Annealing.Settings,
      (∀ stop p v, Annealing.Visits m settings host w stop p v →
        p.engine.elite.head? = some p.engine.chain.best.toCandidate) ∧
      ∀ rounds o w', (Annealing.run m settings host rounds).exec w = (.ok (some o), w') →
        o.BestFirst m ((evaluated
          ((Annealing.run m.watched settings host.watched rounds).calls w)).map m.complete) := by
  refine ⟨fun settings => ⟨?_, ?_⟩, fun settings => ⟨?_, ?_⟩, fun settings => ⟨?_, ?_⟩⟩
  · exact fun _ _ _ => (Swarm.leading hm settings host w).head
  · exact fun rounds o w' h => (Swarm.leading hm settings host w).bestFirst (T := id) hm
      (Swarm.translates_run settings m.watched_translates host.watched_translates rounds)
      Outcome.map_id Swarm.visits_of_run (fun _ _ => rfl) h
  · exact fun _ _ _ => (Multiverse.leading hm settings host w).head
  · exact fun rounds o w' h => (Multiverse.leading hm settings host w).bestFirst (T := id) hm
      (Multiverse.translates_run settings m.watched_translates host.watched_translates rounds)
      Outcome.map_id Multiverse.visits_of_run (fun _ _ => rfl) h
  · exact fun _ _ _ => (Annealing.leading hm settings host w).head
  · exact fun rounds o w' h => (Annealing.leading hm settings host w).bestFirst
      (T := Annealing.Outcome.toOutcome) hm
      (Annealing.translates_run settings m.watched_translates host.watched_translates rounds)
      Annealing.Outcome.map_id Annealing.visits_of_run (fun _ _ => rfl) h

end

theorem Interval.model_ordered : Interval.model.Ordered fun _ => True :=
  ⟨model.gives_true, Direction.totalPreorder_optional .minimize⟩

/-- The best candidates of three runs on the unit interval. -/
theorem first_is_best_interval :
    (∃ o w' stop p, (Swarm.run Interval.model Interval.swarm Interval.host 3).exec Interval.world
        = (.ok (some o), w') ∧
      Swarm.Visits Interval.model Interval.swarm Interval.host Interval.world stop p w' ∧
      p.engine.elite.head? = some p.engine.best ∧
      o.BestFirst Interval.model (evaluated ((Swarm.run Interval.model.watched Interval.swarm
        Interval.host.watched 3).calls Interval.world))) ∧
    (∃ o w' stop p, (Multiverse.run Interval.model Interval.multiverse Interval.host 3).exec
        Interval.world = (.ok (some o), w') ∧
      Multiverse.Visits Interval.model Interval.multiverse Interval.host Interval.world stop p w' ∧
      p.engine.elite.head? = some p.engine.best ∧
      o.BestFirst Interval.model ((evaluated ((Multiverse.run Interval.model.watched
        Interval.multiverse Interval.host.watched 3).calls Interval.world)).map
        Interval.model.complete)) ∧
    ∃ o w' stop p, (Annealing.run Interval.model Interval.annealing Interval.host 3).exec
        Interval.world = (.ok (some o), w') ∧
      Annealing.Visits Interval.model Interval.annealing Interval.host Interval.world stop p w' ∧
      p.engine.elite.head? = some p.engine.chain.best.toCandidate ∧
      o.BestFirst Interval.model ((evaluated ((Annealing.run Interval.model.watched
        Interval.annealing Interval.host.watched 3).calls Interval.world)).map
        Interval.model.complete) := by
  obtain ⟨hswarm, hmultiverse, hannealing⟩ :=
    first_is_best Interval.model Interval.model_ordered Interval.host Interval.world
  obtain ⟨o₁, w₁, h₁, -⟩ := Interval.swarm_outcome
  obtain ⟨o₂, w₂, h₂, -⟩ := Interval.multiverse_outcome
  obtain ⟨o₃, w₃, h₃, -⟩ := Interval.annealing_outcome
  obtain ⟨stop₁, -, p₁, hp₁, -⟩ := Swarm.visits_of_run h₁
  obtain ⟨stop₂, -, p₂, hp₂, -⟩ := Multiverse.visits_of_run h₂
  obtain ⟨stop₃, -, p₃, hp₃, -⟩ := Annealing.visits_of_run h₃
  refine ⟨⟨o₁, w₁, stop₁, p₁, h₁, hp₁, ?_, ?_⟩, ⟨o₂, w₂, stop₂, p₂, h₂, hp₂, ?_, ?_⟩,
    ⟨o₃, w₃, stop₃, p₃, h₃, hp₃, ?_, ?_⟩⟩
  · exact (hswarm Interval.swarm).1 stop₁ p₁ w₁ hp₁
  · exact (hswarm Interval.swarm).2 3 o₁ w₁ h₁
  · exact (hmultiverse Interval.multiverse).1 stop₂ p₂ w₂ hp₂
  · exact (hmultiverse Interval.multiverse).2 3 o₂ w₂ h₂
  · exact (hannealing Interval.annealing).1 stop₃ p₃ w₃ hp₃
  · exact (hannealing Interval.annealing).2 3 o₃ w₃ h₃

end Metaheuristics
