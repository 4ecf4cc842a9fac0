import Metaheuristics.Proofs.Annealing.Course
import Metaheuristics.Proofs.Search.Pools

/-!
# What annealing compares

The points of the chain, the accepted ones and the elite are evaluated candidates, with the worst
fitness in place of an absent one, wherever a run of annealing gets to (`sourced_of_takes`).
-/

namespace Metaheuristics.Annealing

variable {γ σ V : Type} {m : Model γ σ V} {settings : Settings}

/-- The candidates at the points of a chain. -/
def Chain.points (chain : Chain V) : List (Candidate V) :=
  [chain.current.toCandidate, chain.best.toCandidate]

/-- The candidates of annealing. -/
def State.pool (s : State V) : List (Candidate V) := s.chain.points ++ s.elite

/-- The candidates of some trials. -/
def Batch.fresh (b : Batch V) : List (Candidate V) := b.chain.points ++ b.accepted.toList

theorem Batch.fresh_accept (b : Batch V) (p : Point V) (improving : Bool) :
    (b.accept m settings p improving).fresh ⊆ b.fresh ++ [p.toCandidate] := by
  obtain ⟨hpush, hcurrent, hbest⟩ := Batch.accept_eq m settings b p improving
  have hnew : p.toCandidate ∈ b.fresh ++ [p.toCandidate] :=
    List.mem_append_right _ (List.mem_singleton_self _)
  intro c hc
  rcases List.mem_append.mp hc with hc | hc
  · rcases List.mem_cons.mp hc with rfl | hc
    · rw [hcurrent]
      exact hnew
    · rw [List.mem_singleton.mp hc, hbest]
      rcases preferred_cases m.compareCandidates b.chain.best.toCandidate p.toCandidate with h | h
      · rw [h]
        exact List.mem_append_left _ (by simp [Batch.fresh, Chain.points])
      · rw [h]
        exact hnew
  · rw [hpush, Array.toList_push] at hc
    rcases List.mem_append.mp hc with hc | hc
    · exact List.mem_append_left _ (List.mem_append_right _ hc)
    · rw [List.mem_singleton.mp hc]
      exact hnew

variable [Random.Source γ] {math : Elementary} {temperature : Float}
  {w w' : World γ (σ × List (Call V))}

theorem sourced_trial {b b' : Batch V}
    (h : (trial m.watched settings math temperature b).exec w = (.ok b', w')) :
    ∃ c, evaluated w'.state.2 = evaluated w.state.2 ++ [c] ∧
      b'.fresh ⊆ b.fresh ++ [m.complete c] := by
  obtain ⟨x, v, fitness, v', accepted, hx, hfitness, haccepted, rfl⟩ := trial_eq_ok h
  have hstate : v.state = w.state := Run.Ensures.state_eq
    (fun I => ensures_perturb m.bounds b.chain.step b.chain.current.position) hx
  have hstate' : w'.state = v'.state := Run.Ensures.state_eq
    (fun I => ensures_accepts (I := I) m.watched math temperature _ _ _) haccepted
  refine ⟨⟨x, fitness⟩, ?_, ?_⟩
  · rw [hstate', Model.tryCall_evaluate_eq_ok hfitness, hstate]
  · cases accepted
    · exact List.subset_append_left _ _
    · exact b.fresh_accept _ _

theorem sourced_trials {amount : Nat} {b b' : Batch V}
    (h : (trials m.watched settings math temperature amount b).exec w = (.ok b', w')) :
    ∃ cs, evaluated w'.state.2 = evaluated w.state.2 ++ cs ∧
      b'.fresh ⊆ b.fresh ++ cs.map m.complete := by
  induction amount generalizing b w with
  | zero =>
    obtain ⟨rfl, rfl⟩ := Run.pure_eq_ok.mp h
    exact ⟨[], (List.append_nil _).symm, List.subset_append_left _ _⟩
  | succ amount ih =>
    obtain ⟨b'', v, htrial, h⟩ := Run.bind_eq_ok.mp h
    obtain ⟨c, hc, hfresh⟩ := sourced_trial htrial
    obtain ⟨cs, hcs, hfresh'⟩ := ih h
    refine ⟨c :: cs, by rw [hcs, hc, List.append_assoc, List.singleton_append], ?_⟩
    refine List.Subset.trans hfresh' (List.append_subset.mpr ⟨?_, ?_⟩)
    · refine List.Subset.trans hfresh (List.append_subset.mpr ⟨List.subset_append_left _ _, ?_⟩)
      exact List.cons_subset.mpr ⟨List.mem_append_right _ List.mem_cons_self, List.nil_subset _⟩
    · exact fun d hd => List.mem_append_right _ (List.mem_cons_of_mem _ hd)

/-- **Annealing makes its pools of evaluated candidates**, completed. -/
theorem sourced_engine {host : Host σ} :
    (engine m.watched settings host.watched).Sourced m.complete State.pool Batch.fresh where
  enter _ s s' henter := by
    obtain ⟨hchain, helite⟩ := cool_eq_some henter
    rw [State.pool, State.pool, hchain, helite]
  explore _ s w b v hexplore := by
    obtain ⟨cs, hcs, hfresh⟩ := sourced_trials hexplore
    refine ⟨cs, hcs, List.Subset.trans hfresh (List.append_subset.mpr ⟨fun c hc => ?_, ?_⟩)⟩
    · rcases List.mem_append.mp hc with hc | hc
      · exact List.mem_append_left _ (List.mem_append_left _ hc)
      · exact absurd hc (by simp)
    · exact List.subset_append_right _ _
  absorb s b w s' better v habsorb := by
    obtain ⟨-, rfl, rfl⟩ := absorb_eq_ok habsorb
    refine ⟨rfl, List.append_subset.mpr ⟨fun c hc => ?_, fun c hc => ?_⟩⟩
    · exact List.mem_append_right _ (List.mem_append_left _ hc)
    · rcases Elite.mem_of_mem_refresh hc with hc | hc
      · exact List.mem_append_left _ (List.mem_append_right _ hc)
      · exact List.mem_append_right _
          (List.mem_append_right _ (Ranking.mem_sort.mp (List.mem_of_mem_take hc)))

/-- **The iterations of a run** that begins in the world `w`, up to some position. -/
def Takes (m : Model γ σ V) (settings : Settings) (host : Host σ) (w : World γ σ)
    (legs : List (Leg (State V) (Batch V))) (stop : Bool) (p : Progress V (State V))
    (v : World γ σ) : Prop :=
  settings.check = .ok () ∧ settings.checkDimension m.dimension = .ok () ∧
    ∃ s v₀, (start m settings host).exec w = (.ok s, v₀) ∧
      Search.Course host m settings.criteria (engine m settings host) (Search.begin s) v₀ legs
        stop p v

theorem Visits.takes {host : Host σ} {w : World γ σ} {stop : Bool} {p : Progress V (State V)}
    {v : World γ σ} (h : Visits m settings host w stop p v) :
    ∃ legs, Takes m settings host w legs stop p v := by
  obtain ⟨hcheck, hdimension, s, v₀, hs, hreaches⟩ := h
  obtain ⟨legs, hlegs⟩ := hreaches.course
  exact ⟨legs, hcheck, hdimension, s, v₀, hs, hlegs⟩

/-- **What annealing compares has been evaluated.** -/
theorem sourced_of_takes {host : Host σ} {w : World γ σ} {legs : List (Leg (State V) (Batch V))}
    {stop : Bool} {p : Progress V (State V)} {v : World γ (σ × List (Call V))}
    (h : Takes m.watched settings host.watched w.watched legs stop p v) :
    p.engine.pool ⊆ (evaluated v.state.2).map m.complete ∧
      ∀ leg ∈ legs,
        leg.compared State.pool Batch.fresh ⊆ (evaluated v.state.2).map m.complete := by
  obtain ⟨-, -, s, v₀, hs, hcourse⟩ := h
  obtain ⟨cs, u, hcs, hgather⟩ := Run.bind_eq_ok.mp hs
  obtain ⟨leader, hleader, rfl, rfl⟩ := gather_eq_ok hgather
  obtain ⟨positions, u', hpositions, hsettle⟩ := Run.bind_eq_ok.mp hcs
  have hstart : cs ⊆ (evaluated u.state.2).map m.complete := by
    rw [Model.settle_eq_ok_evaluated hsettle]
    exact List.subset_append_right _ _
  have hmem : leader ∈ cs := Ranking.mem_sort.mp (List.mem_of_head? hleader)
  have hfitness : leader.fitness = some (m.present leader.fitness) :=
    fitness_of_populate hcs leader hmem
  have hpoint : Candidate.mk leader.position (some (m.present leader.fitness)) = leader := by
    rw [← hfitness]
  refine hcourse.sourced sourced_engine (List.append_subset.mpr ⟨fun c hc => ?_, fun c hc => ?_⟩)
  · have hc : c = leader := by
      rcases List.mem_cons.mp hc with rfl | hc
      · exact hpoint
      · exact (List.mem_singleton.mp hc).trans hpoint
    rw [hc]
    exact hstart hmem
  · exact hstart (Ranking.mem_sort.mp (List.mem_of_mem_take hc))

end Metaheuristics.Annealing
