import Metaheuristics.Proofs.Model.Calls
import Metaheuristics.Proofs.Model.Results
import Metaheuristics.Proofs.Population.Merging

/-!
# Models that order their fitness

A model orders the fitness with some property when its comparison is a total preorder there, and all
fitness that it gives has the property (`Model.Ordered`).  Then the best record of an engine and the
first of its elite are the same candidate, and no candidate seen is better (`Model.Leads`): this
holds at the start (`Leads.start`) and is kept when a batch is absorbed (`Leads.refresh`).
-/

namespace Metaheuristics

variable {γ σ V : Type} {P : Option V → Prop} {m : Model γ σ V}

/-- **The model orders the fitness with the property `P`**, and gives no other fitness. -/
structure Model.Ordered (P : Option V → Prop) (m : Model γ σ V) : Prop extends m.Gives P where
  preorder : TotalPreorderOn m.compare P

namespace Model

theorem ite_isBetter (m : Model γ σ V) (c d : Candidate V) :
    (if m.isBetter d.fitness c.fitness then d else c) = preferred m.compareCandidates c d := by
  by_cases hlt : m.compare d.fitness c.fitness = .lt <;>
    simp [preferred, isBetter, compareCandidates, hlt]

theorem startingPositions_evaluated {amount : Nat} {positions : List Position}
    {w w' : World γ (σ × List (Call V))}
    (h : (m.watched.startingPositions amount).exec w = (.ok positions, w')) :
    evaluated w'.state.2 = evaluated w.state.2 := by
  rw [← (Prod.mk.inj (Model.startingPositions_eq_ok h).1).2]

/-- Settled candidates of a watched model are the evaluated ones, completed. -/
theorem settle_eq_ok_evaluated {positions : List Position} {cs : List (Candidate V)}
    {w w' : World γ (σ × List (Call V))}
    (h : (m.watched.settle positions).exec w = (.ok cs, w')) :
    (evaluated w'.state.2).map m.complete = (evaluated w.state.2).map m.complete ++ cs := by
  obtain ⟨cs', hcs, rfl⟩ := Model.settle_eq_ok h
  rw [Model.evaluateAll_eq_ok_evaluated hcs, List.map_append]
  rfl

namespace Ordered

variable (hm : m.Ordered P)
include hm

theorem candidates : TotalPreorderOn m.compareCandidates fun c => P c.fitness :=
  hm.preorder.comap Candidate.fitness

theorem watched : m.watched.Ordered P where
  preorder := hm.preorder
  objective x s := hm.objective x s.1
  absent := hm.absent
  worst := hm.worst

theorem settle_eq_ok {positions : List Position} {cs : List (Candidate V)}
    {w w' : World γ (σ × List (Call V))}
    (h : (m.watched.settle positions).exec w = (.ok cs, w')) :
    (evaluated w'.state.2).map m.complete = (evaluated w.state.2).map m.complete ++ cs ∧
      ∀ c ∈ cs, P c.fitness :=
  ⟨settle_eq_ok_evaluated h, hm.watched.toGives.settle h⟩

end Ordered

/-! ## The best candidate -/

/-- **A candidate that leads**: it is the first of the elite, and none of those seen is better. -/
structure Leads (P : Option V → Prop) (m : Model γ σ V) (best : Candidate V)
    (elite seen : List (Candidate V)) : Prop where
  head : elite.head? = some best
  ordered : P best.fitness
  least : ∀ c ∈ seen, P c.fitness ∧ m.compareCandidates best c ≠ .gt

variable {best leader : Candidate V} {elite seen batch : List (Candidate V)} {capacity : Nat}

/-- No candidate seen compares strictly better than the one that leads. -/
theorem Leads.not_better (hm : m.Ordered P) (h : m.Leads P best elite seen) {c : Candidate V}
    (hc : c ∈ seen) : m.compare c.fitness best.fitness ≠ .lt := by
  obtain ⟨hcP, hle⟩ := h.least c hc
  exact (hm.preorder.ne_gt_iff h.ordered hcP).mp hle

section
variable (hm : m.Ordered P) (hcapacity : 0 < capacity) (hbatch : ∀ c ∈ batch, P c.fitness)
include hm hbatch

theorem least_of_head?_sort
    (hleader : (Ranking.sort m.compareCandidates batch).head? = some leader) :
    P leader.fitness ∧ ∀ c ∈ batch, P c.fitness ∧ m.compareCandidates leader c ≠ .gt :=
  ⟨hbatch leader (Ranking.mem_sort.mp (List.mem_of_head? hleader)),
    fun c hc => ⟨hbatch c hc, Ranking.head?_sort_le hm.candidates hbatch hleader hc⟩⟩

include hcapacity

theorem Leads.start (hleader : (Ranking.sort m.compareCandidates batch).head? = some leader) :
    m.Leads P leader ((Ranking.sort m.compareCandidates batch).take capacity) batch := by
  obtain ⟨hP, hle⟩ := least_of_head?_sort hm hbatch hleader
  refine ⟨?_, hP, hle⟩
  rw [List.head?_take, if_neg (Nat.ne_of_gt hcapacity), hleader]

/-- **The better one of the record and the best of a batch leads** after the elite is refreshed. -/
theorem Leads.refresh (h : m.Leads P best elite seen)
    (hleader : (Ranking.sort m.compareCandidates batch).head? = some leader) :
    m.Leads P (if m.isBetter leader.fitness best.fitness then leader else best)
      (Elite.refresh m.compareCandidates elite
        ((Ranking.sort m.compareCandidates batch).take capacity) capacity) (seen ++ batch) := by
  obtain ⟨hP, hle⟩ := least_of_head?_sort hm hbatch hleader
  obtain ⟨rest, helite⟩ := List.head?_eq_some_iff.mp h.head
  obtain ⟨rest', hsort⟩ := List.head?_eq_some_iff.mp hleader
  obtain ⟨hbest, hlead⟩ := preferred_le hm.candidates h.ordered hP
  have hpP : P (preferred m.compareCandidates best leader).fitness :=
    preferred_of (P := fun c : Candidate V => P c.fitness) h.ordered hP
  rw [ite_isBetter]
  refine ⟨?_, hpP, fun c hc => ?_⟩
  · obtain ⟨k, rfl⟩ : ∃ k, capacity = k + 1 := ⟨capacity - 1, by omega⟩
    rw [helite, hsort, List.take_succ_cons, Elite.head?_refresh hcapacity]
  · rcases List.mem_append.mp hc with hc | hc
    · obtain ⟨hcP, hcle⟩ := h.least c hc
      exact ⟨hcP, hm.candidates.trans _ _ _ hpP h.ordered hcP hbest hcle⟩
    · obtain ⟨hcP, hcle⟩ := hle c hc
      exact ⟨hcP, hm.candidates.trans _ _ _ hpP hP hcP hlead hcle⟩

end

end Model

end Metaheuristics
