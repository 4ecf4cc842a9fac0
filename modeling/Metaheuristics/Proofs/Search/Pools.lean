import Metaheuristics.Proofs.Search.Course
import Metaheuristics.Proofs.Search.Watching

/-!
# What a search compares

An engine compares the candidates in its state, its pool, among each other and with the fresh ones
of a batch.  When a batch is made up of the pool and of what was evaluated for it, and the next pool
of the pool and the batch (`Engine.Sourced`), then every candidate that a search ever compares is an
evaluated one (`Search.Course.sourced`).  Engines that put the worst fitness in place of an absent
one compare what they have evaluated read through `f`.
-/

namespace Metaheuristics

variable {γ σ V S B : Type} {f : Candidate V → Candidate V} {pool : S → List (Candidate V)}
  {fresh : B → List (Candidate V)}

theorem subset_map_append {xs ys : List (Candidate V)} (h : xs ⊆ ys.map f)
    (zs : List (Candidate V)) : xs ⊆ (ys ++ zs).map f :=
  fun _ hx => List.map_subset f (List.subset_append_left ys zs) (h hx)

/-- **An engine of a watched model makes its pools of evaluated candidates**, read through `f`. -/
structure Engine.Sourced (f : Candidate V → Candidate V) (pool : S → List (Candidate V))
    (fresh : B → List (Candidate V)) (e : Engine γ (σ × List (Call V)) V S B) : Prop where
  enter : ∀ k s s', e.enter k s = some s' → pool s' = pool s
  explore : ∀ t s w b v, (e.explore t s).exec w = (.ok b, v) →
    ∃ cs, evaluated v.state.2 = evaluated w.state.2 ++ cs ∧ fresh b ⊆ pool s ++ cs.map f
  absorb : ∀ s b w s' better v, (e.absorb s b).exec w = (.ok (s', better), v) →
    v = w ∧ pool s' ⊆ pool s ++ fresh b

/-- What is compared in an iteration. -/
def Leg.compared (pool : S → List (Candidate V)) (fresh : B → List (Candidate V))
    (leg : Leg S B) : List (Candidate V) :=
  pool leg.before ++ fresh leg.batch ++ pool leg.after

namespace Search

variable {host : Host (σ × List (Call V))} {m : Model γ σ V} {criteria : StopCriteria}
  {e : Engine γ (σ × List (Call V)) V S B} {p₀ p : Progress V S}
  {w₀ w : World γ (σ × List (Call V))} {legs : List (Leg S B)} {stop : Bool}

/-- **What a search compares has been evaluated**, if it is so at the start. -/
theorem Course.sourced (he : e.Sourced f pool fresh)
    (hp₀ : pool p₀.engine ⊆ (evaluated w₀.state.2).map f)
    (h : Course host m.watched criteria e p₀ w₀ legs stop p w) :
    pool p.engine ⊆ (evaluated w.state.2).map f ∧
      ∀ leg ∈ legs, leg.compared pool fresh ⊆ (evaluated w.state.2).map f := by
  induction h with
  | start => exact ⟨hp₀, fun leg hleg => nomatch hleg⟩
  | @step legs p w s b v s' better v' u stop w' _ enters explores absorbs flushes observes ih =>
    obtain ⟨hpool, hlegs⟩ := ih
    have henter := he.enter _ _ _ (enter_of_verdict enters)
    obtain ⟨cs, hcs, hfresh⟩ := he.explore _ _ _ _ _ explores
    obtain ⟨rfl, hafter⟩ := he.absorb _ _ _ _ _ _ absorbs
    have hevaluated : evaluated w'.state.2 = evaluated w.state.2 ++ cs := by
      rw [evaluated_of_tells flushes observes, hcs]
    have hbefore : pool p.engine ⊆ (evaluated w'.state.2).map f := by
      rw [hevaluated]
      exact subset_map_append hpool cs
    have hbatch : fresh b ⊆ (evaluated w'.state.2).map f := by
      refine List.Subset.trans hfresh (List.append_subset.mpr ⟨?_, ?_⟩)
      · rw [henter]
        exact hbefore
      · rw [hevaluated, List.map_append]
        exact List.subset_append_right _ _
    have hnext : pool s' ⊆ (evaluated w'.state.2).map f := by
      refine List.Subset.trans hafter (List.append_subset.mpr ⟨?_, hbatch⟩)
      rw [henter]
      exact hbefore
    refine ⟨hnext, fun leg hleg => ?_⟩
    rcases List.mem_append.mp hleg with hleg | hleg
    · rw [hevaluated]
      exact subset_map_append (hlegs leg hleg) cs
    · rw [List.mem_singleton.mp hleg]
      exact List.append_subset.mpr ⟨List.append_subset.mpr ⟨hbefore, hbatch⟩, hnext⟩

end Search

end Metaheuristics
