import Metaheuristics.Proofs.Runs.Safety
import Metaheuristics.Proofs.Search.Reach

/-!
# Safe searches

An engine is safe on states with `K` when it explores them, and absorbs what it has explored,
without breaking an agreement that may not be broken, and comes back to a state with `K`
(`Engine.Safe`).  The loop itself can break none, so a search that starts at a state with `K` is safe
(`Search.safe_result`), by induction on the number of times its head may be passed.
-/

namespace Metaheuristics

variable {γ σ V S B : Type}

/-- **An engine that is safe** on states with `K`, by batches with `L`. -/
structure Engine.Safe (A : Violation → Prop) (K : S → Prop) (L : B → Prop)
    (e : Engine γ σ V S B) : Prop where
  enter : ∀ k s s', e.enter k s = some s' → K s → K s'
  explore : ∀ t s w, K s → Run.Safe A w (e.explore t s) L
  absorb : ∀ s b w, K s → L b → Run.Safe A w (e.absorb s b) fun (s', _) => K s'

namespace Search

variable {A : Violation → Prop} {K : S → Prop} {L : B → Prop} {host : Host σ} {m : Model γ σ V}
  {criteria : StopCriteria} {e : Engine γ σ V S B} {w : World γ σ}

theorem safe_iterate (he : e.Safe A K L) {s : S} (hs : K s) (p : Progress V S) :
    Run.Safe A w (iterate m e p s) fun (p', _) => K p'.engine := by
  refine Run.Safe.bind (he.explore p.tracker s w hs) fun batch v hbatch => ?_
  refine Run.Safe.bind (he.absorb s batch v hs hbatch) fun (s', better) _ hs' => ?_
  refine Run.Safe.bind (Run.Safe.call m.flush) fun _ _ _ => ?_
  exact Run.Safe.bind (Run.Safe.call _) fun _ _ _ => Run.Safe.pure hs'

theorem safe_loop (he : e.Safe A K L) (rounds : Nat) {p : Progress V S} (hp : K p.engine) :
    Run.Safe A w (loop host m criteria e rounds p) fun _ => True := by
  induction rounds generalizing p w with
  | zero => exact Run.Safe.pure trivial
  | succ rounds ih =>
    refine Run.Safe.get ?_
    rcases hv : verdict host criteria e p w.state with reason | s
    · exact Run.Safe.pure trivial
    · have hs : K s := he.enter _ _ _ (enter_of_verdict hv) hp
      refine Run.Safe.bind (safe_iterate he hs p) fun (p', stop) v hp' => ?_
      exact Run.Safe.ite (fun _ => Run.Safe.pure trivial) fun _ => ih hp'

/-- **A search is safe** that starts at a state with `K`. -/
theorem safe_result (he : e.Safe A K L) (rounds : Nat) {s : S} (hs : K s) {α : Type}
    (read : StopReason × Progress V S → α) :
    Run.Safe A w (do
        let result ← run host m criteria e rounds s
        return result.map read) fun _ => True :=
  Run.Safe.bind (safe_loop he rounds hs) fun _ _ _ => Run.Safe.pure trivial

end Search

end Metaheuristics
