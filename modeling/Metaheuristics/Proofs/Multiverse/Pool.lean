import Metaheuristics.Proofs.Multiverse.Course
import Metaheuristics.Proofs.Search.Pools

/-!
# What a multiverse compares

The universes, the best one and the elite are evaluated candidates, with the worst fitness in place
of an absent one, wherever the run of a multiverse gets to (`sourced_of_takes`).
-/

namespace Metaheuristics.Multiverse

variable {γ σ V : Type} {m : Model γ σ V} {settings : Settings}

/-- The candidates of a multiverse. -/
def State.pool (s : State V) : List (Candidate V) := s.universes ++ s.best :: s.elite

theorem rank_subset (us : List (Candidate V)) : rank m us ⊆ us := fun _ => Ranking.mem_sort.mp

theorem take_rank_subset (us : List (Candidate V)) (n : Nat) : (rank m us).take n ⊆ us :=
  fun _ hc => rank_subset us (List.mem_of_mem_take hc)

variable [Random.Source γ]

theorem sourced_engine {host : Host σ} :
    (engine m.watched settings host.watched).Sourced m.complete State.pool id where
  enter _ _ _ henter := by rw [Option.some.inj henter]
  explore _ s w us v hexplore := by
    obtain ⟨progress, hexplore⟩ := explore_of_engine hexplore
    obtain ⟨positions, u, hsettle, hu⟩ := settle_of_explore hexplore
    obtain ⟨cs, hcs, rfl⟩ := Model.settle_eq_ok hsettle
    refine ⟨cs, ?_, List.subset_append_right _ _⟩
    rw [Model.evaluateAll_eq_ok_evaluated hcs, hu]
  absorb s us w s' better v habsorb := by
    obtain ⟨leader, hleader, -, rfl, rfl⟩ := absorb_eq_ok habsorb
    refine ⟨rfl, List.append_subset.mpr ⟨?_, List.cons_subset.mpr ⟨?_, fun c hc => ?_⟩⟩⟩
    · exact List.Subset.trans (rank_subset us) (List.subset_append_right _ _)
    · cases better
      · exact List.mem_append_left _ (List.mem_append_right _ List.mem_cons_self)
      · exact List.mem_append_right _ (rank_subset us (List.mem_of_head? hleader))
    · rcases Elite.mem_of_mem_refresh hc with hc | hc
      · exact List.mem_append_left _ (List.mem_append_right _ (List.mem_cons_of_mem _ hc))
      · exact List.mem_append_right _ (take_rank_subset us _ hc)

/-- **The iterations of a run** that begins in the world `w`, up to some position. -/
def Takes (m : Model γ σ V) (settings : Settings) (host : Host σ) (w : World γ σ)
    (legs : List (Leg (State V) (List (Candidate V)))) (stop : Bool) (p : Progress V (State V))
    (v : World γ σ) : Prop :=
  settings.check = .ok () ∧ ∃ s v₀, (start m settings host).exec w = (.ok s, v₀) ∧
    Search.Course host m settings.criteria (engine m settings host) (Search.begin s) v₀ legs stop
      p v

theorem Visits.takes {host : Host σ} {w : World γ σ} {stop : Bool} {p : Progress V (State V)}
    {v : World γ σ} (h : Visits m settings host w stop p v) :
    ∃ legs, Takes m settings host w legs stop p v := by
  obtain ⟨hcheck, s, v₀, hs, hreaches⟩ := h
  obtain ⟨legs, hlegs⟩ := hreaches.course
  exact ⟨legs, hcheck, s, v₀, hs, hlegs⟩

/-- **What a multiverse compares has been evaluated.** -/
theorem sourced_of_takes {host : Host σ} {w : World γ σ}
    {legs : List (Leg (State V) (List (Candidate V)))} {stop : Bool} {p : Progress V (State V)}
    {v : World γ (σ × List (Call V))}
    (h : Takes m.watched settings host.watched w.watched legs stop p v) :
    p.engine.pool ⊆ (evaluated v.state.2).map m.complete ∧
      ∀ leg ∈ legs, leg.compared State.pool id ⊆ (evaluated v.state.2).map m.complete := by
  obtain ⟨-, s, v₀, hs, hcourse⟩ := h
  obtain ⟨us, u, hus, hgather⟩ := Run.bind_eq_ok.mp hs
  obtain ⟨leader, hleader, rfl, rfl⟩ := gather_eq_ok hgather
  obtain ⟨positions, u', hsettle, -⟩ := settle_of_populate hus
  have hstart : us ⊆ (evaluated u.state.2).map m.complete := by
    rw [Model.settle_eq_ok_evaluated hsettle]
    exact List.subset_append_right _ _
  refine hcourse.sourced sourced_engine (List.append_subset.mpr ⟨?_, ?_⟩)
  · exact List.Subset.trans (rank_subset us) hstart
  · exact List.cons_subset.mpr ⟨hstart (rank_subset us (List.mem_of_head? hleader)),
      List.Subset.trans (take_rank_subset us _) hstart⟩

end Metaheuristics.Multiverse
