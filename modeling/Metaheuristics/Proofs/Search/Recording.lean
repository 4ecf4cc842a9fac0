import Metaheuristics.Proofs.Population.Merging
import Metaheuristics.Proofs.Search.Reach
import Metaheuristics.Proofs.Search.Translation

/-!
# Recorded searches

An engine that, besides doing its work, writes down the candidates of every batch it absorbs
(`Engine.recorded`).  Forgetting what is written down gives the search of the engine itself
(`Search.translates_recorded`), so what is proved with the record at hand holds of every run.

* `Elite.IsTop`: an elite is the top of the recorded candidates.
* `Elite.Tracks.refresh`: it stays the top when it is refreshed with the top of a batch.
* `Search.recorded_invariant`: what every batch keeps of the state and the record holds wherever a
  search gets to.
* `Search.tracks_recorded`: an elite that is refreshed by every batch is the top of the record.
-/

namespace Metaheuristics

variable {γ σ V S B : Type}

/-- **The engine with a record** of the candidates in the batches it has absorbed. -/
def Engine.recorded (candidates : B → List (Candidate V)) (e : Engine γ σ V S B) :
    Engine γ σ V (S × List (Candidate V)) B where
  enter k s := (e.enter k s.1).map fun s' => (s', s.2)
  explore t s := e.explore t s.1
  absorb s b := (fun (s', better) => ((s', s.2 ++ candidates b), better)) <$> e.absorb s.1 b
  best s := e.best s.1

/-- **An elite is the top of some items**: of their stable sort, as far as the capacity goes. -/
def Elite.IsTop {α : Type} (compare : α → α → Ordering) (capacity : Nat) (items elite : List α) :
    Prop :=
  ∃ sorted, Ranking.IsStableSort compare items sorted ∧ elite = sorted.take capacity

/-- The elite is the top of the recorded items, which are at least as many as its capacity, if they
can be ordered. -/
def Elite.Tracks {α : Type} (compare : α → α → Ordering) (capacity : Nat)
    (items elite : List α) : Prop :=
  capacity ≤ items.length ∧
    (TotalPreorderOn compare (· ∈ items) → elite = (Ranking.sort compare items).take capacity)

namespace Elite

variable {α : Type} {compare : α → α → Ordering} {capacity : Nat} {items items' elite : List α}

theorem Tracks.isTop (h : Tracks compare capacity items elite)
    (hp : TotalPreorderOn compare (· ∈ items)) : IsTop compare capacity items elite :=
  ⟨_, Ranking.sort_isStableSort hp fun _ hx => hx, h.2 hp⟩

theorem tracks_start (hlen : capacity ≤ items.length) :
    Tracks compare capacity items ((Ranking.sort compare items).take capacity) :=
  ⟨hlen, fun _ => rfl⟩

/-- An elite keeps track when it is refreshed with the top of what is recorded. -/
theorem Tracks.refresh (h : Tracks compare capacity items elite) :
    Tracks compare capacity (items ++ items')
      (refresh compare elite ((Ranking.sort compare items').take capacity) capacity) := by
  refine ⟨by rw [List.length_append]; exact Nat.le_add_right_of_le h.1, fun hp => ?_⟩
  have hitems : TotalPreorderOn compare (· ∈ items) :=
    hp.mono fun x hx => List.mem_append_left items' hx
  rw [h.2 hitems]
  exact refresh_take_sort hp h.1 (fun x hx => List.mem_append_left items' hx)
    fun x hx => List.mem_append_right items hx

end Elite

namespace Search

variable {host : Host σ} {m : Model γ σ V} {criteria : StopCriteria} {e : Engine γ σ V S B}
  {candidates : B → List (Candidate V)}

theorem translates_recorded :
    Engine.Translates id id Prod.fst id (e.recorded candidates) e where
  enter k s := by
    show e.enter k s.1 = Option.map Prod.fst ((e.enter k s.1).map fun s' => (s', s.2))
    rw [Option.map_map]
    exact Option.map_id_apply.symm
  explore t s := Run.Translates.refl (e.explore t s.1)
  absorb s b := Run.Translates.recover (fun _ => rfl) (e.absorb s.1 b)
  best _ := Option.map_id_apply.symm

/-- **Recording changes nothing** but what is recorded. -/
theorem run_recorded (rounds : Nat) (s : S) (all : List (Candidate V)) :
    Run.Translates id (Option.map (Prod.map id (Progress.map id Prod.fst)))
      (run host m criteria (e.recorded candidates) rounds (s, all))
      (run host m criteria e rounds s) :=
  translates_run (Host.Translates.refl host) (Model.Translates.refl m) translates_recorded rounds _

/-- The same from the start of a run, whose first record is what the state is gathered from. -/
theorem run_recorded_from {A O : Type} (populate : Run γ σ A) (gather : A → Run γ σ S)
    (first : A → List (Candidate V)) (read : StopReason → Progress V S → O) (rounds : Nat) :
    Run.Translates id (Option.map Prod.fst)
      (do
        let batch ← populate
        let state ← gather batch
        let result ← run host m criteria (e.recorded candidates) rounds (state, first batch)
        return result.map fun (reason, p) => (read reason (p.map id Prod.fst), p.engine.2))
      (do
        let state ← populate >>= gather
        let result ← run host m criteria e rounds state
        return result.map fun (reason, p) => read reason p) := by
  rw [bind_assoc]
  refine Run.Translates.bind_id (Run.Translates.refl _) fun batch => ?_
  refine Run.Translates.bind_id (Run.Translates.refl _) fun s => ?_
  refine Run.Translates.bind (run_recorded rounds s _) fun result => ?_
  refine Run.Translates.pure ?_
  rw [Option.map_map, Option.map_map]
  rfl

theorem exists_record {α β : Type} {x : Run γ σ (Option (α × β))} {y : Run γ σ (Option α)}
    (h : Run.Translates id (Option.map Prod.fst) x y) {a : α} {w w' : World γ σ}
    (ha : y.exec w = (.ok (some a), w')) : ∃ b, x.exec w = (.ok (some (a, b)), w') := by
  obtain ⟨result, v, hx, hresult, rfl⟩ := h.eq_ok ha
  obtain ⟨⟨a, b⟩, rfl, rfl⟩ := Option.map_eq_some_iff.mp hresult
  exact ⟨b, hx⟩

theorem recorded_invariant {I : S → List (Candidate V) → Prop}
    (henter : ∀ k s s' all, e.enter k s = some s' → I s all → I s' all)
    (habsorb : ∀ s b s' better w w' all, (e.absorb s b).exec w = (.ok (s', better), w') →
      I s all → I s' (all ++ candidates b))
    {s : S} {all : List (Candidate V)} {w w' : World γ σ} {stop : Bool}
    {p : Progress V (S × List (Candidate V))} (hstart : I s all)
    (h : Reaches host m criteria (e.recorded candidates) (begin (s, all)) w stop p w') :
    I p.engine.1 p.engine.2 := by
  induction h with
  | start => exact hstart
  | step _ henters hiterates ih =>
    have hin := enter_of_verdict henters
    obtain ⟨s', hs', rfl⟩ := Option.map_eq_some_iff.mp hin
    obtain ⟨b, v, _, better, v', -, habs, rfl, -⟩ := iterate_eq_ok hiterates
    obtain ⟨⟨s'', better'⟩, habs', heq⟩ := Run.map_eq_ok.mp habs
    obtain ⟨rfl, rfl⟩ := Prod.mk.inj heq
    exact habsorb _ b s'' better' v v' _ habs' (henter _ _ _ _ hs' ih)

/-- **The elite is the top of the record** wherever a search gets to, if it begins as the top of the
first record and every batch refreshes it with the top of its own. -/
theorem tracks_recorded (elite : S → List (Candidate V)) {capacity : Nat}
    (henter : ∀ k s s', e.enter k s = some s' → elite s' = elite s)
    (habsorb : ∀ s b s' better w w', (e.absorb s b).exec w = (.ok (s', better), w') →
      elite s' = Elite.refresh m.compareCandidates (elite s)
        ((Ranking.sort m.compareCandidates (candidates b)).take capacity) capacity)
    {s : S} {first : List (Candidate V)} {w w' : World γ σ} {stop : Bool}
    {p : Progress V (S × List (Candidate V))} (hlen : capacity ≤ first.length)
    (hfirst : elite s = (Ranking.sort m.compareCandidates first).take capacity)
    (h : Reaches host m criteria (e.recorded candidates) (begin (s, first)) w stop p w') :
    Elite.Tracks m.compareCandidates capacity p.engine.2 (elite p.engine.1) := by
  refine recorded_invariant (I := fun s all =>
    Elite.Tracks m.compareCandidates capacity all (elite s)) ?_ ?_ ?_ h
  · intro k s s' all hs htracks
    rwa [henter k s s' hs]
  · intro s b s' better v v' all hs htracks
    rw [habsorb s b s' better v v' hs]
    exact htracks.refresh
  · rw [hfirst]
    exact Elite.tracks_start hlen

end Search

end Metaheuristics
