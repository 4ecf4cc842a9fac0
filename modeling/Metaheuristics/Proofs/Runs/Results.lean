import Metaheuristics.Proofs.Population.Cursors
import Metaheuristics.Proofs.Population.StableSort
import Metaheuristics.World

/-!
# Results of runs

What a run yields, taken apart along the way the run is put together: a result of `x >>= f` comes
from a result of `x` and one of `f` (`bind_eq_ok`), and so on for the other ways to build a run.
-/

namespace Metaheuristics.Run

variable {γ σ α β : Type}

/-- **What a run does in a world**: its result, and the world it leaves behind. -/
def exec (x : Run γ σ α) (w : World γ σ) : Except Failure α × World γ σ := x w

@[simp] theorem exec_pure (a : α) (w : World γ σ) :
    (pure a : Run γ σ α).exec w = (.ok a, w) := rfl

@[simp] theorem exec_throw (e : Failure) (w : World γ σ) :
    (throw e : Run γ σ α).exec w = (.error e, w) := rfl

theorem exec_bind (x : Run γ σ α) (f : α → Run γ σ β) (w : World γ σ) :
    (x >>= f).exec w = match (x.exec w).1 with
      | .ok a => (f a).exec (x.exec w).2
      | .error e => (.error e, (x.exec w).2) := by
  show ExceptT.bindCont f (x w).1 (x w).2 = match (x w).1 with
      | .ok a => (f a).exec (x w).2
      | .error e => (.error e, (x w).2)
  cases (x w).1 <;> rfl

theorem exec_bind_ok {x : Run γ σ α} {f : α → Run γ σ β} {w v : World γ σ} {a : α}
    (h : x.exec w = (.ok a, v)) : (x >>= f).exec w = (f a).exec v := by
  rw [exec_bind, h]

/-- **A result of a sequence** comes from a result of either part. -/
theorem bind_eq_ok {x : Run γ σ α} {f : α → Run γ σ β} {w w' : World γ σ} {b : β} :
    (x >>= f).exec w = (.ok b, w') ↔
      ∃ a v, x.exec w = (.ok a, v) ∧ (f a).exec v = (.ok b, w') := by
  rw [exec_bind]
  rcases hx : x.exec w with ⟨e | a, v⟩
  · simp
  · constructor
    · exact fun h => ⟨a, v, rfl, h⟩
    · rintro ⟨a', v', h, h'⟩
      obtain ⟨ha, rfl⟩ := Prod.mk.inj h
      obtain rfl := Except.ok.inj ha
      exact h'

/-- **A sequence fails** where one of its parts does. -/
theorem bind_eq_error {x : Run γ σ α} {f : α → Run γ σ β} {w w' : World γ σ} {failure : Failure} :
    (x >>= f).exec w = (.error failure, w') ↔ x.exec w = (.error failure, w') ∨
      ∃ a v, x.exec w = (.ok a, v) ∧ (f a).exec v = (.error failure, w') := by
  rw [exec_bind]
  rcases hx : x.exec w with ⟨e | a, v⟩
  · simp
  · constructor
    · exact fun h => Or.inr ⟨a, v, rfl, h⟩
    · rintro (h | ⟨a', v', h, h'⟩)
      · cases h
      · obtain ⟨ha, rfl⟩ := Prod.mk.inj h
        obtain rfl := Except.ok.inj ha
        exact h'

theorem pure_eq_ok {a b : α} {w w' : World γ σ} :
    (pure a : Run γ σ α).exec w = (.ok b, w') ↔ a = b ∧ w = w' := by
  simp

theorem exec_bind_pure (x : Run γ σ α) (f : α → β) (w : World γ σ) :
    (x >>= fun a => pure (f a)).exec w = ((x.exec w).1.map f, (x.exec w).2) := by
  rw [exec_bind]
  rcases x.exec w with ⟨e | a, v⟩ <;> rfl

theorem map_eq_ok {x : Run γ σ α} {f : α → β} {w w' : World γ σ} {b : β} :
    (f <$> x).exec w = (.ok b, w') ↔ ∃ a, x.exec w = (.ok a, w') ∧ f a = b := by
  rw [← bind_pure_comp, bind_eq_ok]
  constructor
  · rintro ⟨a, v, hx, h⟩
    obtain ⟨rfl, rfl⟩ := pure_eq_ok.mp h
    exact ⟨a, hx, rfl⟩
  · rintro ⟨a, hx, rfl⟩
    exact ⟨a, w', hx, rfl⟩

theorem violate_ne_ok {broken : Violation} {a : α} {w w' : World γ σ} :
    (violate broken : Run γ σ α).exec w ≠ (.ok a, w') := by
  simp [violate]

theorem expect_eq_ok {broken : Violation} {o : Option α} {a : α} {w w' : World γ σ} :
    (expect broken o : Run γ σ α).exec w = (.ok a, w') ↔ o = some a ∧ w = w' := by
  obtain _ | b := o
  · simp [expect, violate]
  · simp [expect]

theorem sort_eq_ok {host : Host σ} {compare : α → α → Ordering} {items sorted : List α}
    {w w' : World γ σ} (h : (host.sort compare items).exec w = (.ok sorted, w')) :
    sorted = Ranking.sort compare items ∧ w = w' := by
  obtain ⟨hsorted, rfl⟩ := expect_eq_ok.mp h
  exact ⟨Sorting.eq_of_sort? hsorted, rfl⟩

theorem refresh_eq_ok {broken : Violation} {compare : α → α → Ordering}
    {elite candidates refreshed : List α} {capacity : Nat} {w w' : World γ σ}
    (h : (expect broken (Elite.refresh? compare elite candidates capacity) : Run γ σ (List α)).exec w
      = (.ok refreshed, w')) :
    refreshed = Elite.refresh compare elite candidates capacity ∧ w = w' := by
  obtain ⟨hrefreshed, rfl⟩ := expect_eq_ok.mp h
  rw [Elite.refresh?_eq] at hrefreshed
  exact ⟨(Option.some.inj hrefreshed).symm, rfl⟩

theorem require_eq_ok {check : Except SettingsError Unit} {a : Unit} {w w' : World γ σ} :
    (require check : Run γ σ Unit).exec w = (.ok a, w') ↔ check = .ok () ∧ w = w' := by
  obtain e | ⟨⟩ := check
  · simp [require]
  · simp [require]

theorem exec_require {check : Except SettingsError Unit} {f : Unit → Run γ σ β} {w : World γ σ}
    (h : check = .ok ()) : (require check >>= f).exec w = (f ()).exec w := by
  rw [h]
  rfl

/-- Settings that are refused end a run at once. -/
theorem exec_require_error {check : Except SettingsError Unit} {error : SettingsError}
    (h : check = .error error) (f : Unit → Run γ σ β) (w : World γ σ) :
    (require check >>= f).exec w = (.error (.settings error), w) := by
  rw [h]
  rfl

theorem exists_ok_world {x : Run γ σ α} {w : World γ σ} {P : α → World γ σ → Prop}
    [∀ a v, Decidable (P a v)]
    (h : (x.exec w).1.toOption.any (fun a => P a (x.exec w).2) = true) :
    ∃ a w', x.exec w = (.ok a, w') ∧ P a w' := by
  rcases hx : x.exec w with ⟨e | a, w'⟩ <;> rw [hx] at h
  · cases h
  · exact ⟨a, w', rfl, of_decide_eq_true h⟩

theorem exists_outcome {x : Run γ σ (Option α)} {w : World γ σ} {P : α → Prop} [DecidablePred P]
    (h : (x.exec w).1.toOption.join.any (P ·) = true) :
    ∃ a w', x.exec w = (.ok (some a), w') ∧ P a := by
  rcases hx : x.exec w with ⟨e | _ | a, w'⟩ <;> rw [hx] at h
  · cases h
  · cases h
  · exact ⟨a, w', rfl, of_decide_eq_true h⟩

theorem exists_outcome_world {x : Run γ σ (Option α)} {w : World γ σ} {P : α → World γ σ → Prop}
    [∀ a v, Decidable (P a v)]
    (h : (x.exec w).1.toOption.join.any (fun a => P a (x.exec w).2) = true) :
    ∃ a w', x.exec w = (.ok (some a), w') ∧ P a w' := by
  rcases hx : x.exec w with ⟨e | _ | a, w'⟩ <;> rw [hx] at h
  · cases h
  · cases h
  · exact ⟨a, w', rfl, of_decide_eq_true h⟩

theorem result_eq_error {x : Run γ σ α} {w : World γ σ} {failure : Failure}
    (h : (match (x.exec w).1 with
      | .error e => decide (e = failure)
      | .ok _ => false) = true) : (x.exec w).1 = .error failure := by
  rcases hx : (x.exec w).1 with e | a <;> rw [hx] at h
  · rw [of_decide_eq_true h]
  · cases h

/-! ## Lists -/

theorem mapM_cons_eq_ok {f : α → Run γ σ β} {a : α} {as : List α} {bs : List β}
    {w w' : World γ σ} :
    ((a :: as).mapM f).exec w = (.ok bs, w') ↔
      ∃ b v bs', (f a).exec w = (.ok b, v) ∧ (as.mapM f).exec v = (.ok bs', w') ∧
        bs = b :: bs' := by
  rw [List.mapM_cons, bind_eq_ok]
  simp only [bind_eq_ok, pure_eq_ok]
  constructor
  · rintro ⟨b, v, hb, bs', v', hbs, rfl, rfl⟩
    exact ⟨b, v, bs', hb, hbs, rfl⟩
  · rintro ⟨b, v, bs', hb, hbs, rfl⟩
    exact ⟨b, v, hb, bs', w', hbs, rfl, rfl⟩

theorem length_of_mapM {f : α → Run γ σ β} {as : List α} {bs : List β} {w w' : World γ σ}
    (h : (as.mapM f).exec w = (.ok bs, w')) : bs.length = as.length := by
  induction as generalizing w bs with
  | nil =>
    obtain ⟨rfl, -⟩ := pure_eq_ok.mp h
    rfl
  | cons a as ih =>
    obtain ⟨b, v, bs', -, hbs, rfl⟩ := mapM_cons_eq_ok.mp h
    rw [List.length_cons, List.length_cons, ih hbs]

end Metaheuristics.Run
