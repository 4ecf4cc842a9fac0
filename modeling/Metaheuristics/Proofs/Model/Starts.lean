import Mathlib.Tactic.Push
import Metaheuristics.Model.Problem
import Metaheuristics.Proofs.Bounds.Box
import Metaheuristics.Proofs.Model.Calls
import Metaheuristics.Proofs.Model.Results
import Metaheuristics.Proofs.Population.Populated

/-!
# Starts

A model starts well in a world when its dimension is the number of its bounds and it gives as many
candidates as asked for, each as long as the dimension (`Model.StartsWell`).  Otherwise one of these
agreements is the first that it breaks, in the order in which they are looked at
(`Model.StartsBadly`); the start then ends with that violation, in the world in which the candidates
have been asked for and nothing else has happened (`Model.exec_startingPositions_of_startsBadly`).
After a good start all evaluations are safe.
-/

namespace Metaheuristics

/-- **A candidate with `d` coordinates**, and fitness with the property `P`. -/
structure Candidate.Fits {V : Type} (d : Nat) (P : Option V → Prop) (c : Candidate V) : Prop where
  position : c.position.length = d
  fitness : P c.fitness

namespace Model

variable {γ σ V : Type} {m : Model γ σ V} {amount : Nat} {w : World γ σ}

/-- **The agreements about starting candidates** are kept in the world `w`. -/
structure StartsWell (m : Model γ σ V) (amount : Nat) (w : World γ σ) : Prop where
  count : (m.initial amount w).1.length = amount
  dimension : m.dimension = m.bounds.length
  lengths : ∀ x ∈ (m.initial amount w).1, x.length = m.dimension

/-- **The first agreement about starting candidates that is broken** in the world `w`. -/
inductive StartsBadly (m : Model γ σ V) (amount : Nat) (w : World γ σ) : Violation → Prop
  | count (h : (m.initial amount w).1.length ≠ amount) : StartsBadly m amount w .wrongAmount
  | dimension (hcount : (m.initial amount w).1.length = amount)
      (h : m.dimension ≠ m.bounds.length) : StartsBadly m amount w .wrongDimension
  | lengths (hcount : (m.initial amount w).1.length = amount)
      (hdimension : m.dimension = m.bounds.length)
      (h : ∃ x ∈ (m.initial amount w).1, x.length ≠ m.dimension) :
      StartsBadly m amount w .wrongLength

theorem exists_startsBadly (h : ¬ m.StartsWell amount w) :
    ∃ broken, m.StartsBadly amount w broken := by
  by_cases hcount : (m.initial amount w).1.length = amount
  · by_cases hdimension : m.dimension = m.bounds.length
    · refine ⟨_, .lengths hcount hdimension ?_⟩
      by_contra hlengths
      push Not at hlengths
      exact h ⟨hcount, hdimension, hlengths⟩
    · exact ⟨_, .dimension hcount hdimension⟩
  · exact ⟨_, .count hcount⟩

theorem startsWell_ofObjective [Random.Source γ] (order : FitnessOrder V) (bounds : List Bound)
    (objective : Position → StateM σ (Except EvaluationError (Option V))) (amount : Nat)
    (w : World γ σ) : (ofObjective order bounds objective).StartsWell amount w where
  count := length_uniform bounds amount w.random
  dimension := rfl
  lengths x hx := (uniform_inBox bounds amount w.random x hx).length_eq.symm

theorem initial_toModel [Random.Source γ] {problem : Problem γ σ V}
    (h : problem.generator = none) : problem.toModel.initial
      = (ofObjective problem.order problem.bounds problem.objective).initial := by
  unfold Problem.toModel
  rw [h]

theorem startsWell_toModel [Random.Source γ] {problem : Problem γ σ V}
    (h : problem.generator = none) (amount : Nat) (w : World γ σ) :
    problem.toModel.StartsWell amount w := by
  have hplain := startsWell_ofObjective problem.order problem.bounds problem.objective amount w
  refine ⟨?_, rfl, ?_⟩
  · rw [initial_toModel h]
    exact hplain.count
  · rw [initial_toModel h]
    exact hplain.lengths

/-- Starting candidates that are used have kept the agreements. -/
theorem startsWell_of_eq_ok {positions : List Position} {w' : World γ σ}
    (h : (m.startingPositions amount).exec w = (.ok positions, w')) : m.StartsWell amount w := by
  obtain ⟨hinitial, hcount, hdimension, hlengths⟩ := startingPositions_eq_ok h
  obtain rfl : (m.initial amount w).1 = positions := congrArg Prod.fst hinitial
  exact ⟨hcount, hdimension, hlengths⟩

/-- **A model starts uniformly** when its candidates are uniform positions, in every world. -/
def StartsUniformly [Random.Source γ] (m : Model γ σ V) : Prop :=
  ∀ amount w, m.initial amount w = ((uniform m.bounds amount w.random).1,
    { w with random := (uniform m.bounds amount w.random).2 })

theorem startsUniformly_toModel [Random.Source γ] {problem : Problem γ σ V}
    (h : problem.generator = none) : problem.toModel.StartsUniformly := by
  intro amount w
  rw [initial_toModel h]
  rfl

theorem StartsBadly.watched {broken : Violation} (h : m.StartsBadly amount w broken) :
    m.watched.StartsBadly amount w.watched broken := by
  cases h with
  | count h => exact .count h
  | dimension hcount h => exact .dimension hcount h
  | lengths hcount hdimension h => exact .lengths hcount hdimension h

/-- **A good start** yields the candidates. -/
theorem exec_startingPositions (h : m.StartsWell amount w) :
    (m.startingPositions amount).exec w
      = (.ok (m.initial amount w).1, (m.initial amount w).2) := by
  have hlengths : ¬ (m.initial amount w).1.any (·.length ≠ m.dimension) = true := by
    intro hany
    obtain ⟨x, hx, hne⟩ := List.any_eq_true.mp hany
    exact of_decide_eq_true hne (h.lengths x hx)
  refine Run.bind_eq_ok.mpr ⟨_, _, rfl, ?_⟩
  rw [if_neg (not_not.mpr h.count), if_neg (not_not.mpr h.dimension), if_neg hlengths]
  rfl

/-- **A bad start** ends with the agreement that is broken. -/
theorem exec_startingPositions_of_startsBadly {broken : Violation}
    (h : m.StartsBadly amount w broken) :
    (m.startingPositions amount).exec w
      = (.error (.violation broken), (m.initial amount w).2) := by
  have hbind : (m.startingPositions amount).exec w
      = Run.exec (if (m.initial amount w).1.length ≠ amount then Run.violate .wrongAmount
        else if m.dimension ≠ m.bounds.length then Run.violate .wrongDimension
        else if (m.initial amount w).1.any (·.length ≠ m.dimension) then Run.violate .wrongLength
        else pure (m.initial amount w).1) (m.initial amount w).2 := rfl
  rw [hbind]
  cases h with
  | count h => rw [if_pos h]; rfl
  | dimension hcount h => rw [if_neg (not_not.mpr hcount), if_pos h]; rfl
  | lengths hcount hdimension h =>
    obtain ⟨x, hx, hne⟩ := h
    have hany : (m.initial amount w).1.any (·.length ≠ m.dimension) = true :=
      List.any_eq_true.mpr ⟨x, hx, decide_eq_true hne⟩
    rw [if_neg (not_not.mpr hcount), if_neg (not_not.mpr hdimension), if_pos hany]
    rfl

/-! ## Populations -/

variable {A : Violation → Prop} {P : Option V → Prop} {d : Nat}

theorem safe_startingPositions (h : m.StartsWell amount w) (hpos : 0 < amount) :
    Run.Safe A w (m.startingPositions amount) (Populated (·.length = m.dimension)) := by
  refine Or.inl ⟨_, _, exec_startingPositions h, ?_, h.lengths⟩
  rw [← List.length_pos_iff, h.count]
  exact hpos

theorem safe_tryCall_evaluate (hm : m.Gives P) (x : Position) :
    Run.Safe A w (Run.tryCall (m.evaluate x)) P :=
  ((Run.Safe.tryCall _).and fun _ _ h => hm.tryCall_evaluate h).mono fun _ h => h.2

theorem safe_evaluateAll (hm : m.Gives P) {xs : List Position} (hxs : Populated (·.length = d) xs) :
    Run.Safe A w (m.evaluateAll xs) (Populated (Candidate.Fits d P)) :=
  hxs.safe_mapM fun x _ hx _ => Run.Safe.bind (safe_tryCall_evaluate hm x) fun _ _ hfitness =>
    Run.Safe.pure ⟨hx, hfitness⟩

theorem safe_settle (hm : m.Gives P) {xs : List Position} (hxs : Populated (·.length = d) xs) :
    Run.Safe A w (m.settle xs) (Populated (Candidate.Fits d P)) := by
  refine Run.Safe.bind (safe_evaluateAll hm hxs) fun cs _ hcs => Run.Safe.pure ⟨?_, ?_⟩
  · exact fun hnil => hcs.nonempty (List.map_eq_nil_iff.mp hnil)
  · exact List.forall_mem_map.mpr fun c hc =>
      ⟨(hcs.all c hc).position, hm.present (hcs.all c hc).fitness⟩

end Model

end Metaheuristics
