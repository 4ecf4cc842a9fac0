import Metaheuristics.Proofs.Random.Indices
import Metaheuristics.Selection

/-!
# Selections are in range

Every strategy chooses one of the weights, if there are any, whatever the weights are: also where
they are negative, infinite or not numbers, and where rounding lets the wheel run out
(`select_lt`).  The strategies look up no weight out of range on the way: the best index so far and
the drawn ones are below the number of weights.
-/

namespace Metaheuristics.Selection

open Metaheuristics.Random

variable {γ : Type}

/-- A draw that breaks no agreement, before others that may. -/
theorem yields_lift {x : StateM γ Nat} {f : Nat → ExceptT Violation (StateM γ) Nat}
    {P : Nat → Prop} {Q : Except Violation Nat → Prop} (hx : Yields x P)
    (hf : ∀ i, P i → Yields (f i).run Q) :
    Yields (liftM x >>= f : ExceptT Violation (StateM γ) Nat).run Q :=
  fun g => hf _ (hx g) _

/-! ## The wheel -/

theorem stopOnWheel_lt {threshold total : Float} {weights : List Float} {i : Nat}
    (h : stopOnWheel threshold total weights = some i) : i < weights.length := by
  induction weights generalizing total i with
  | nil => cases h
  | cons weight weights ih =>
    unfold stopOnWheel at h
    split at h
    · obtain rfl := Option.some.inj h
      exact Nat.zero_lt_succ _
    · obtain ⟨k, hk, rfl⟩ := Option.map_eq_some_iff.mp h
      exact Nat.succ_lt_succ (ih hk)

theorem lastPositive_lt {weights : List Float} {i : Nat} (h : lastPositive weights = some i) :
    i < weights.length := by
  induction weights generalizing i with
  | nil => cases h
  | cons weight weights ih =>
    unfold lastPositive at h
    split at h
    next k hk =>
      obtain rfl := Option.some.inj h
      exact Nat.succ_lt_succ (ih hk)
    next =>
      split at h
      · obtain rfl := Option.some.inj h
        exact Nat.zero_lt_succ _
      · cases h

variable [Source γ]

theorem spin_lt {weights : List Float} (h : 0 < weights.length) :
    Yields (γ := γ) (spin weights) (· < weights.length) := by
  have hcounted : (weights.map counted).length = weights.length := List.length_map _
  refine Yields.ite (fun _ => Yields.pure h) fun _ => Yields.ite (fun _ => ?_) fun _ => ?_
  · refine Yields.bind (Yields.any _) fun r _ => ?_
    dsimp only
    split
    next i hi => exact Yields.pure (hcounted ▸ stopOnWheel_lt hi)
    next =>
      refine Yields.pure ?_
      rcases hlast : lastPositive (weights.map counted) with _ | i
      · show (weights.map counted).length - 1 < weights.length
        omega
      · exact hcounted ▸ lastPositive_lt hlast
  · rw [hcounted]
    exact below_lt h

/-! ## The heaviest -/

section
variable {weights : List Float} {best i : Nat}

omit [Source γ]

theorem weightAt_eq (h : i < weights.length) : weightAt weights i = .ok (weights.getD i 0.0) := by
  unfold weightAt
  rw [List.getElem?_eq_getElem h, List.getD_eq_getElem _ _ h]

theorem heavier_eq (h : best < weights.length) (i : Nat) (weight : Float) :
    heavier weights best i weight = .ok (if weights.getD best 0.0 < weight then i else best) := by
  unfold heavier
  rw [weightAt_eq h]
  rfl

theorem heavier_lt (hbest : best < weights.length) (hi : i < weights.length) (weight : Float) :
    ∃ k, heavier weights best i weight = .ok k ∧ k < weights.length := by
  refine ⟨_, heavier_eq hbest i weight, ?_⟩
  split
  · exact hi
  · exact hbest

theorem heaviestFrom_lt {index : Nat} {rest : List Float} (hbest : best < weights.length)
    (hrest : index + rest.length = weights.length) :
    ∃ k, heaviestFrom weights best index rest = .ok k ∧ k < weights.length := by
  induction rest generalizing best index with
  | nil => exact ⟨best, rfl, hbest⟩
  | cons w rest ih =>
    rw [List.length_cons] at hrest
    obtain ⟨next, hnext, hlt⟩ := heavier_lt (i := index) hbest (by omega) w
    unfold heaviestFrom
    rw [hnext]
    exact ih hlt (by omega)

theorem heaviest_lt (h : 0 < weights.length) :
    ∃ k, heaviest weights = .ok k ∧ k < weights.length := by
  rw [← List.length_map counted] at h ⊢
  refine heaviestFrom_lt h ?_
  rw [List.length_drop]
  omega

end

/-- A further round: the drawn index is looked up, and the heavier of the two goes on. -/
theorem contest_succ {weights : List Float} {best : Nat} (h : best < weights.length)
    (rounds : Nat) (g : γ) :
    contest weights (rounds + 1) best g = contest weights rounds
      (if weights.getD best 0.0 < weights.getD (below weights.length g).1 0.0
        then (below weights.length g).1 else best) (below weights.length g).2 := by
  have hi := below_lt (Nat.zero_lt_of_lt h) g
  have hstep : contest weights (rounds + 1) best g
      = (liftM (weightAt weights (below weights.length g).1) >>= fun weight =>
          liftM (heavier weights best (below weights.length g).1 weight) >>= fun k =>
            contest weights rounds k : ExceptT Violation (StateM γ) Nat)
        (below weights.length g).2 := rfl
  rw [hstep, weightAt_eq hi]
  show (liftM (heavier weights best _ _) >>= fun k => contest weights rounds k :
    ExceptT Violation (StateM γ) Nat) _ = _
  rw [heavier_eq h]
  rfl

theorem contest_lt {weights : List Float} {rounds best : Nat} (h : best < weights.length) :
    Yields (γ := γ) (contest weights rounds best).run
      fun result => ∃ i, result = .ok i ∧ i < weights.length := by
  induction rounds generalizing best with
  | zero => exact fun g => ⟨best, rfl, h⟩
  | succ rounds ih =>
    intro g
    show ∃ i, (contest weights (rounds + 1) best g).1 = .ok i ∧ _
    rw [contest_succ h]
    refine ih ?_ _
    split
    · exact below_lt (Nat.zero_lt_of_lt h) g
    · exact h

/-! ## The choice -/

/-- **Every strategy chooses one of the weights**, if there are any. -/
theorem select_lt (math : Elementary) (selection : Selection) {weights : List Float}
    (h : 0 < weights.length) :
    Yields (γ := γ) (selection.select math weights).run
      fun result => ∃ i, result = .ok i ∧ i < weights.length := by
  have hlifted {x : StateM γ Nat} (hx : Yields x (· < weights.length)) :
      Yields (liftM x : ExceptT Violation (StateM γ) Nat).run
        fun result => ∃ i, result = .ok i ∧ i < weights.length := fun g => ⟨_, rfl, hx g⟩
  have hheaviest : Yields (γ := γ) (liftM (heaviest weights) : ExceptT Violation (StateM γ) Nat).run
      fun result => ∃ i, result = .ok i ∧ i < weights.length := fun _ => heaviest_lt h
  obtain _ | ⟨w, rest⟩ := weights
  · cases h
  cases selection with
  | roulette => exact hlifted (spin_lt h)
  | rank => exact hheaviest
  | tournament size =>
    have hcounted : ((w :: rest).map counted).length = (w :: rest).length := List.length_map _
    refine yields_lift (below_lt h) fun first hfirst => ?_
    have hcontest : Yields (γ := γ) (contest ((w :: rest).map counted) (size - 1) first).run _ :=
      contest_lt (hcounted ▸ hfirst)
    rwa [hcounted] at hcontest
  | boltzmann temperature =>
    refine Yields.ite (fun _ => ?_) fun _ => ?_
    · have hheated : (heated math temperature (w :: rest)).length = (w :: rest).length := by
        simp only [heated, List.length_map]
      exact hlifted (hheated ▸ spin_lt (hheated ▸ h))
    · exact hheaviest

end Metaheuristics.Selection
