import Metaheuristics.Model.Basic
import Metaheuristics.Proofs.Runs.Results
import Mathlib.Tactic.ByContra
import Mathlib.Tactic.SplitIfs

/-!
# What models give

The results of what engines ask of a model: starting positions that keep the agreements
(`startingPositions_eq_ok`), and one candidate for each position (`evaluateAll_eq_ok`).  Where all
fitness that a model gives has some property (`Gives`), so does that of the candidates
(`Gives.evaluateAll`).
-/

namespace Metaheuristics.Model

variable {γ σ V : Type} {m : Model γ σ V} {w w' : World γ σ}

theorem startingPositions_eq_ok {amount : Nat} {positions : List Position}
    (h : (m.startingPositions amount).exec w = (.ok positions, w')) :
    m.initial amount w = (positions, w') ∧ positions.length = amount ∧
      m.dimension = m.bounds.length ∧ ∀ x ∈ positions, x.length = m.dimension := by
  obtain ⟨ps, v, hinitial, h⟩ := Run.bind_eq_ok.mp h
  have hpair : m.initial amount w = (ps, v) := by
    obtain ⟨hps, hv⟩ := Prod.mk.inj hinitial
    exact Prod.ext (Except.ok.inj hps) hv
  split_ifs at h with hamount hdimension hlength
  · exact absurd h Run.violate_ne_ok
  · exact absurd h Run.violate_ne_ok
  · exact absurd h Run.violate_ne_ok
  · obtain ⟨rfl, rfl⟩ := Run.pure_eq_ok.mp h
    refine ⟨hpair, not_not.mp hamount, not_not.mp hdimension, fun x hx => ?_⟩
    by_contra hne
    exact hlength (List.any_eq_true.mpr ⟨x, hx, by simpa using hne⟩)

theorem evaluateAll_eq_ok {positions : List Position} {cs : List (Candidate V)}
    (h : (m.evaluateAll positions).exec w = (.ok cs, w')) :
    cs.map (·.position) = positions := by
  induction positions generalizing w cs with
  | nil =>
    obtain ⟨rfl, -⟩ := Run.pure_eq_ok.mp h
    rfl
  | cons x positions ih =>
    obtain ⟨c, v, cs', hc, hcs, rfl⟩ := Run.mapM_cons_eq_ok.mp h
    obtain ⟨fitness, v', -, hc⟩ := Run.bind_eq_ok.mp hc
    obtain ⟨rfl, -⟩ := Run.pure_eq_ok.mp hc
    rw [List.map_cons, ih hcs]

theorem settle_eq_ok {positions : List Position} {cs : List (Candidate V)}
    (h : (m.settle positions).exec w = (.ok cs, w')) :
    ∃ cs', (m.evaluateAll positions).exec w = (.ok cs', w') ∧ cs = cs'.map m.complete := by
  obtain ⟨cs', v, hcs, h⟩ := Run.bind_eq_ok.mp h
  obtain ⟨rfl, rfl⟩ := Run.pure_eq_ok.mp h
  exact ⟨cs', hcs, rfl⟩

theorem length_of_settle {positions : List Position} {cs : List (Candidate V)}
    (h : (m.settle positions).exec w = (.ok cs, w')) : cs.length = positions.length := by
  obtain ⟨cs', hcs, rfl⟩ := settle_eq_ok h
  rw [List.length_map, ← evaluateAll_eq_ok hcs, List.length_map]

/-- Candidates stand at the positions they were settled for. -/
theorem position_mem_of_settle {positions : List Position} {cs : List (Candidate V)}
    (h : (m.settle positions).exec w = (.ok cs, w')) {c : Candidate V} (hc : c ∈ cs) :
    c.position ∈ positions := by
  obtain ⟨cs', hcs, rfl⟩ := settle_eq_ok h
  obtain ⟨c', hc', rfl⟩ := List.mem_map.mp hc
  rw [← evaluateAll_eq_ok hcs]
  exact List.mem_map.mpr ⟨c', hc', rfl⟩

/-! ## Fitness with a property -/

/-- **All fitness that the model gives** has the property `P`. -/
structure Gives (P : Option V → Prop) (m : Model γ σ V) : Prop where
  objective : ∀ x s fitness, (m.objective x s).1 = .ok fitness → P fitness
  absent : P none
  worst : P (some m.worst)

theorem gives_true (m : Model γ σ V) : m.Gives fun _ => True :=
  ⟨fun _ _ _ _ => trivial, trivial, trivial⟩

/-- **An evaluation**, with the objective's answer for a feasible position. -/
theorem evaluate_apply (m : Model γ σ V) (p : Position) (s : σ) :
    m.evaluate p s = if (m.feasible p s).1 = some true then m.objective p (m.feasible p s).2
      else (.ok none, (m.feasible p s).2) := by
  simp only [Model.evaluate, Bind.bind, StateT.bind]
  rcases m.feasible p s with ⟨_ | _ | _, s'⟩ <;> rfl

namespace Gives

variable {P : Option V → Prop} (hm : m.Gives P)
include hm

theorem present {fitness : Option V} (h : P fitness) : P (some (m.present fitness)) := by
  obtain _ | v := fitness
  · exact hm.worst
  · exact h

theorem tryCall_evaluate {x : Position} {fitness : Option V}
    (h : (Run.tryCall (m.evaluate x)).exec w = (.ok fitness, w')) : P fitness := by
  have hr : (m.evaluate x w.state).1.mapError Failure.evaluation = .ok fitness :=
    (Prod.mk.inj h).1
  rw [evaluate_apply] at hr
  split_ifs at hr
  · rcases ho : (m.objective x (m.feasible x w.state).2).1 with error | fitness' <;> rw [ho] at hr
    · cases hr
    · rw [← Except.ok.inj hr]
      exact hm.objective _ _ _ ho
  · rw [← Except.ok.inj hr]
    exact hm.absent

theorem evaluateAll {positions : List Position} {cs : List (Candidate V)}
    (h : (m.evaluateAll positions).exec w = (.ok cs, w')) : ∀ c ∈ cs, P c.fitness := by
  induction positions generalizing w cs with
  | nil =>
    obtain ⟨rfl, -⟩ := Run.pure_eq_ok.mp h
    exact fun c hc => absurd hc List.not_mem_nil
  | cons x positions ih =>
    obtain ⟨c, v, cs', hc, hcs, rfl⟩ := Run.mapM_cons_eq_ok.mp h
    obtain ⟨fitness, v', hfitness, hc⟩ := Run.bind_eq_ok.mp hc
    obtain ⟨rfl, -⟩ := Run.pure_eq_ok.mp hc
    intro c hc
    rcases List.mem_cons.mp hc with rfl | hc
    · exact hm.tryCall_evaluate hfitness
    · exact ih hcs c hc

theorem settle {positions : List Position} {cs : List (Candidate V)}
    (h : (m.settle positions).exec w = (.ok cs, w')) : ∀ c ∈ cs, P c.fitness := by
  obtain ⟨cs', hcs, rfl⟩ := settle_eq_ok h
  intro c hc
  obtain ⟨c', hc', rfl⟩ := List.mem_map.mp hc
  exact hm.present (hm.evaluateAll hcs c' hc')

end Gives

end Metaheuristics.Model
