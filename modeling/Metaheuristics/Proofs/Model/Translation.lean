import Metaheuristics.Proofs.Model.Results
import Metaheuristics.Proofs.Runs.Translation

/-!
# Translations of models

A model is a translation of another one when its callbacks answer the same, with fitness read
through `f` and states read through `view`, and its comparison, distance and score say of the
fitness it reads what those of the other one say (`Model.Translates`).  What an engine asks of a
model beyond the callbacks is then translated too.
-/

namespace Metaheuristics

variable {γ σ τ V U : Type}

/-- A candidate with its fitness read through `f`. -/
def Candidate.map (f : V → U) (c : Candidate V) : Candidate U := ⟨c.position, c.fitness.map f⟩

/-- **The model `n` does what `m` does**, with fitness read through `f` and states through `view`.
-/
structure Model.Translates (view : σ → τ) (f : V → U) (m : Model γ σ V) (n : Model γ τ U) :
    Prop where
  bounds : n.bounds = m.bounds
  dimension : n.dimension = m.dimension
  compare : ∀ x y, n.compare (x.map f) (y.map f) = m.compare x y
  worst : n.worst = f m.worst
  score : ∀ x, n.order.score (f x) = m.order.score x
  distance : ∀ x y, n.distance (f x) (f y) = m.distance x y
  objective : ∀ p s, n.objective p (view s)
    = ((m.objective p s).1.map (Option.map f), view (m.objective p s).2)
  feasible : ∀ p s, n.feasible p (view s) = ((m.feasible p s).1, view (m.feasible p s).2)
  initial : ∀ k (w : World γ σ), n.initial k (w.through view)
    = ((m.initial k w).1, (m.initial k w).2.through view)
  flush : ∀ s, n.flush (view s) = ((), view (m.flush s).2)
  observe : ∀ t best s, n.observe t (best.map f) (view s)
    = ((m.observe t best s).1, view (m.observe t best s).2)

/-- The caller's state is read alike, by the same machine. -/
structure Host.Translates (view : σ → τ) (host : Host σ) (host' : Host τ) : Prop where
  elapsed : ∀ s, host'.elapsed (view s) = host.elapsed s
  cancelled : ∀ s, host'.cancelled (view s) = host.cancelled s
  math : host'.math = host.math
  sorting : host'.sorting = host.sorting

theorem Host.Translates.refl (host : Host σ) : host.Translates id host :=
  ⟨fun _ => rfl, fun _ => rfl, rfl, rfl⟩

/-- **A sort is translated** by a map that the comparison does not notice. -/
theorem Host.Translates.sort {view : σ → τ} {host : Host σ} {host' : Host τ}
    (h : host.Translates view host') {α β : Type} {compare : α → α → Ordering}
    {compare' : β → β → Ordering} {f : α → β} (hf : ∀ x y, compare' (f x) (f y) = compare x y)
    (items : List α) :
    Run.Translates (γ := γ) view (List.map f) (host.sort compare items)
      (host'.sort compare' (items.map f)) :=
  Run.Translates.expect _ (by rw [h.sorting, Sorting.sort?_map hf])

theorem Candidate.map_id (c : Candidate V) : c.map id = c := by
  rw [Candidate.map, Option.map_id_apply]

theorem Candidate.map_map_id (cs : List (Candidate V)) : cs.map (Candidate.map id) = cs :=
  (List.map_congr_left fun c _ => c.map_id).trans (List.map_id _)

theorem Model.Translates.refl (m : Model γ σ V) : m.Translates id id m where
  bounds := rfl
  dimension := rfl
  compare x y := by rw [Option.map_id_apply, Option.map_id_apply]
  worst := rfl
  score _ := rfl
  distance _ _ := rfl
  objective p s := by
    rw [show Option.map (id : V → V) = id from Option.map_id, Except.map_id]; rfl
  feasible _ _ := rfl
  initial _ _ := rfl
  flush _ := rfl
  observe _ best _ := by rw [Option.map_id_apply]; rfl

namespace Model.Translates

variable {view : σ → τ} {f : V → U} {m : Model γ σ V} {n : Model γ τ U}
  (h : Model.Translates view f m n)
include h

theorem isBetter (x y : Option V) : n.isBetter (x.map f) (y.map f) = m.isBetter x y := by
  rw [Model.isBetter, h.compare, Model.isBetter]

theorem present (fitness : Option V) : n.present (fitness.map f) = f (m.present fitness) := by
  cases fitness
  · exact h.worst
  · rfl

theorem complete (c : Candidate V) : n.complete (c.map f) = (m.complete c).map f := by
  rw [Model.complete, Candidate.map, h.present]; rfl

theorem compareCandidates (x y : Candidate V) :
    n.compareCandidates (x.map f) (y.map f) = m.compareCandidates x y := h.compare _ _

theorem evaluate (p : Position) (s : σ) :
    n.evaluate p (view s) = ((m.evaluate p s).1.map (Option.map f), view (m.evaluate p s).2) := by
  rw [evaluate_apply, evaluate_apply, h.feasible]
  by_cases hp : (m.feasible p s).1 = some true
  · rw [if_pos hp, if_pos hp, h.objective]
  · rw [if_neg hp, if_neg hp]; rfl

theorem evaluateAll (positions : List Position) :
    Run.Translates view (List.map (Candidate.map f)) (m.evaluateAll positions)
      (n.evaluateAll positions) := by
  unfold Model.evaluateAll
  refine Run.Translates.mapM_same (fun p => ?_) positions
  exact Run.Translates.bind (Run.Translates.tryCall (h.evaluate p)) fun _ =>
    Run.Translates.pure rfl

theorem settle (positions : List Position) :
    Run.Translates view (List.map (Candidate.map f)) (m.settle positions) (n.settle positions) :=
  Run.Translates.bind (h.evaluateAll positions) fun cs =>
    Run.Translates.pure <| by
      rw [List.map_map, List.map_map]
      exact List.map_congr_left fun c _ => h.complete c

theorem startingPositions (amount : Nat) :
    Run.Translates view id (m.startingPositions amount) (n.startingPositions amount) := by
  refine Run.Translates.bind_id (Run.Translates.lift (h.initial amount)) fun positions => ?_
  rw [h.dimension, h.bounds]
  refine Run.Translates.ite (Run.Translates.violate _) ?_
  refine Run.Translates.ite (Run.Translates.violate _) ?_
  exact Run.Translates.ite (Run.Translates.violate _) (Run.Translates.pure rfl)

end Model.Translates

end Metaheuristics
