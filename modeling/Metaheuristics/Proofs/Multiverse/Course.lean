import Metaheuristics.Proofs.Multiverse.Best
import Metaheuristics.Proofs.Search.Challenges
import Metaheuristics.Proofs.Search.Endings
import Metaheuristics.Proofs.Search.Pacing

/-!
# The course of a multiverse

How the run of a multiverse ends (`ends_of_run`), the pace it goes at, which is one evaluation for
each universe (`paced`), and what its iterations do to the best universe: the first of the next
generation, ranked, challenges it (`challenged_of_course`).
-/

namespace Metaheuristics.Multiverse

variable {γ σ V : Type} {m : Model γ σ V} {settings : Settings} {host : Host σ}

theorem evaluates_start {w w' : World γ (σ × List (Call V))} {s : State V}
    (h : (start m.watched settings host.watched).exec w = (.ok s, w')) :
    Evaluates settings.universeAmount w w' ∧ s.universes.length = settings.universeAmount := by
  obtain ⟨universes, v, huniverses, hgather⟩ := Run.bind_eq_ok.mp h
  obtain ⟨leader, -, rfl, rfl⟩ := gather_eq_ok hgather
  refine ⟨?_, (Ranking.length_sort _ _).trans (length_of_populate huniverses)⟩
  obtain ⟨positions, u, hpositions, hsettle⟩ := Run.bind_eq_ok.mp huniverses
  have hevaluates := (Evaluates.startingPositions hpositions).trans (Evaluates.settle hsettle)
  rwa [(Model.startingPositions_eq_ok hpositions).2.1, Nat.zero_add] at hevaluates

variable [Random.Source γ]

/-- **The end of a run** that begins in the world `w`, with the iterations behind it. -/
def Ends (m : Model γ σ V) (settings : Settings) (host : Host σ) (w : World γ σ)
    (legs : List (Leg (State V) (List (Candidate V)))) (reason : StopReason)
    (p : Progress V (State V)) (v : World γ σ) : Prop :=
  settings.check = .ok () ∧ ∃ s v₀, (start m settings host).exec w = (.ok s, v₀) ∧
    Search.Ends host m settings.criteria (engine m settings host) (Search.begin s) v₀ legs reason
      p v

section
variable {rounds : Nat} {w w' : World γ σ}

theorem ends_of_run {o : Outcome V}
    (h : (run m settings host rounds).exec w = (.ok (some o), w')) :
    ∃ legs p, Ends m settings host w legs o.reason p w' ∧ o = outcome o.reason p := by
  obtain ⟨_, _, hrequire, h⟩ := Run.bind_eq_ok.mp h
  obtain ⟨hcheck, rfl⟩ := Run.require_eq_ok.mp hrequire
  obtain ⟨s, v, hs, h⟩ := Run.bind_eq_ok.mp h
  obtain ⟨legs, reason, p, hp, rfl⟩ := Search.ends_of_result h
  exact ⟨legs, p, ⟨hcheck, s, v, hs, hp⟩, rfl⟩

/-- **A run with an iteration limit ends**, if its head may be passed often enough. -/
theorem run_ne_none {n : Nat} (hn : settings.criteria.iterationLimit = some n)
    (hrounds : n + 1 < rounds) : (run m settings host rounds).exec w ≠ (.ok none, w') := by
  intro h
  obtain ⟨_, _, hrequire, h⟩ := Run.bind_eq_ok.mp h
  obtain ⟨-, rfl⟩ := Run.require_eq_ok.mp hrequire
  obtain ⟨s, v, -, h⟩ := Run.bind_eq_ok.mp h
  exact Search.run_ne_none (fun _ _ _ _ hv => Search.iteration_lt_of_limit hn hv) hrounds
    (Search.run_eq_none_of_result h)

end

/-! ## The best universe -/

/-- The universe that challenges the best one after an iteration. -/
def challengers (m : Model γ σ V) (universes : List (Candidate V)) : List (Candidate V) :=
  (rank m universes).head?.toList

theorem challenged_of_course {criteria : StopCriteria}
    {p₀ p : Progress V (State V)} {w₀ w : World γ σ}
    {legs : List (Leg (State V) (List (Candidate V)))} {stop : Bool}
    (h : Search.Course host m criteria (engine m settings host) p₀ w₀ legs stop p w) :
    ∀ leg ∈ legs, leg.Challenged m State.best (challengers m) := by
  refine h.forall_legs fun legs p w s b v s' better v' _ henter _ habsorb => ?_
  obtain rfl := Option.some.inj henter
  obtain ⟨leader, hleader, rfl, rfl, rfl⟩ := absorb_eq_ok habsorb
  have hchallengers : challengers m b = [leader] := by
    rw [challengers, hleader]
    rfl
  unfold Leg.Challenged
  rw [hchallengers]
  exact Challenged.single m p.engine.best leader

section
variable {w : World γ (σ × List (Call V))}

theorem explore_of_engine {t : Tracker} {s : State V} {b : List (Candidate V)}
    {v : World γ (σ × List (Call V))}
    (h : ((engine m.watched settings host.watched).explore t s).exec w = (.ok b, v)) :
    ∃ progress, (explore m.watched settings host.math progress s).exec w = (.ok b, v) := by
  obtain ⟨_, _, hget, h⟩ := Run.bind_eq_ok.mp h
  obtain ⟨rfl, rfl⟩ := Run.pure_eq_ok.mp hget
  exact ⟨_, h⟩

/-- **A new best is another universe** on a model that orders its fitness. -/
theorem better_iff_of_ends {P : Option V → Prop} (hm : m.Ordered P) {w₀ : World γ σ}
    {legs : List (Leg (State V) (List (Candidate V)))} {reason : StopReason}
    {p : Progress V (State V)}
    (h : Ends m.watched settings host.watched w₀.watched legs reason p w) :
    ∀ leg ∈ legs, leg.better = false ↔ leg.after.best = leg.before.best := by
  obtain ⟨hcheck, s, v₀, hs, hends⟩ := h
  obtain ⟨stop, hcourse⟩ := hends.course
  have hchallenged : ∀ leg ∈ legs, leg.Challenged m State.best (challengers m) :=
    fun leg hleg => (challenged_of_course hcourse leg hleg).of_watched
  have hordered : ∀ leg ∈ legs, P leg.before.best.fitness ∧
      ∀ c ∈ challengers m leg.batch, P c.fitness := by
    refine hcourse.forall_legs fun legs p w s' b v _ _ _ hhead henter hexplore _ => ?_
    obtain rfl := Option.some.inj henter
    refine ⟨(leads_of_visits hm ⟨hcheck, s, v₀, hs, hhead.reaches⟩).ordered, fun c hc => ?_⟩
    obtain ⟨progress, hexplore⟩ := explore_of_engine hexplore
    have hmem : c ∈ b := Ranking.mem_sort.mp (List.mem_of_head? (Option.mem_toList.mp hc))
    exact (explore_eq_ok hm hexplore).2 c hmem
  intro leg hleg
  obtain ⟨hbefore, hbatch⟩ := hordered leg hleg
  exact (hchallenged leg hleg).better_eq_false_iff hm hbefore hbatch

/-! ## The pace -/

theorem paced : (engine m.watched settings host.watched).Paced
    (fun s => s.universes.length = settings.universeAmount) settings.universeAmount where
  enter _ s s' henter hs := by rwa [← Option.some.inj henter]
  lap t s w b v s' better v' hs hexplore habsorb := by
    obtain ⟨leader, -, -, rfl, rfl⟩ := absorb_eq_ok habsorb
    obtain ⟨progress, hexplore⟩ := explore_of_engine hexplore
    obtain ⟨positions, u, hpositions, hsettle⟩ := Run.bind_eq_ok.mp hexplore
    have hlength : positions.length = settings.universeAmount := by
      rw [Run.length_of_mapM hpositions, List.length_zipIdx, hs]
    have hstate : u.state = w.state := by
      refine Run.Ensures.state_eq (P := fun _ => True) (fun I => ?_) hpositions
      exact Run.Ensures.mono (Run.Ensures.mapM fun x _ =>
        ensures_transformAt m.watched.bounds _ s.best.position x.1 x.2) fun _ _ => trivial
    refine ⟨?_, (Ranking.length_sort _ _).trans ((Model.length_of_settle hsettle).trans hlength)⟩
    have hmoves : Evaluates 0 w u := Evaluates.of_calls_eq (by rw [hstate])
    have hevaluates := hmoves.trans (Evaluates.settle hsettle)
    rwa [hlength, Nat.zero_add] at hevaluates

end

end Metaheuristics.Multiverse
