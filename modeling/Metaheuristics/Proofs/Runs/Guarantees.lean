import Mathlib.Data.List.Forall2
import Metaheuristics.Proofs.Runs.Results

/-!
# Guarantees of runs

A run guarantees a property of the caller's state when it keeps it, whether it fails or not, and a
property of its results when they have it (`Ensures`).  Drawing keeps every property of the caller's
state, so only calls have something to show.  What is guaranteed goes through every way in which
runs are put together.
-/

namespace Metaheuristics

theorem exists_of_forall₂ {α β : Type} {R : α → β → Prop} {as : List α} {bs : List β}
    (h : List.Forall₂ R as bs) {b : β} (hb : b ∈ bs) : ∃ a ∈ as, R a b := by
  induction h with
  | nil => cases hb
  | cons hab _ ih =>
    rcases List.mem_cons.mp hb with rfl | hb
    · exact ⟨_, List.mem_cons_self, hab⟩
    · obtain ⟨a, ha, hR⟩ := ih hb
      exact ⟨a, List.mem_cons_of_mem _ ha, hR⟩

theorem exists_getElem?_of_forall₂ {α β : Type} {R : α → β → Prop} {as : List α} {bs : List β}
    (h : List.Forall₂ R as bs) {i : Nat} {b : β} (hb : bs[i]? = some b) :
    ∃ a, as[i]? = some a ∧ R a b := by
  induction h generalizing i with
  | nil => cases hb
  | cons hab _ ih =>
    obtain _ | i := i
    · obtain rfl := Option.some.inj hb
      exact ⟨_, rfl, hab⟩
    · exact ih hb

namespace Run

variable {γ σ α β : Type}

/-- The results for some items, each with the worlds before and after. -/
theorem forall₂_of_mapM {f : α → Run γ σ β} {as : List α} {bs : List β} {w w' : World γ σ}
    (h : (as.mapM f).exec w = (.ok bs, w')) :
    List.Forall₂ (fun a b => ∃ u u', (f a).exec u = (.ok b, u')) as bs := by
  induction as generalizing w bs with
  | nil =>
    obtain ⟨rfl, -⟩ := pure_eq_ok.mp h
    exact .nil
  | cons a as ih =>
    obtain ⟨b, v, bs', hb, hbs, rfl⟩ := mapM_cons_eq_ok.mp h
    exact .cons ⟨w, v, hb⟩ (ih hbs)

/-- **The run keeps `I`** of the caller's state, and its results have `Q`. -/
def Ensures (I : σ → Prop) (x : Run γ σ α) (Q : α → Prop) : Prop :=
  ∀ w, I w.state → I (x.exec w).2.state ∧ ∀ a, (x.exec w).1 = .ok a → Q a

namespace Ensures

variable {I : σ → Prop} {P : α → Prop} {Q : β → Prop}

/-! ## Steps -/

theorem pure {a : α} (h : P a) : Ensures (γ := γ) I (pure a) P := by
  refine fun w hw => ⟨hw, fun b hb => ?_⟩
  rwa [← Except.ok.inj hb]

theorem violate (broken : Violation) : Ensures (γ := γ) I (violate broken) P :=
  fun _ hw => ⟨hw, fun _ hb => by cases hb⟩

theorem expect {broken : Violation} {o : Option α} (h : ∀ a, o = some a → P a) :
    Ensures (γ := γ) I (expect broken o) P := by
  obtain _ | a := o
  · exact violate broken
  · exact pure (h a rfl)

theorem sort (host : Host σ) (compare : α → α → Ordering) (items : List α) :
    Ensures (γ := γ) I (host.sort compare items) (· = Ranking.sort compare items) :=
  expect fun _ h => Sorting.eq_of_sort? h

theorem refresh {broken : Violation} (compare : α → α → Ordering) (elite candidates : List α)
    (capacity : Nat) :
    Ensures (γ := γ) I (Run.expect broken (Elite.refresh? compare elite candidates capacity))
      (· = Elite.refresh compare elite candidates capacity) :=
  expect fun a h => by
    rw [Elite.refresh?_eq] at h
    exact (Option.some.inj h).symm

theorem require (check : Except SettingsError Unit) :
    Ensures (γ := γ) I (require check) fun _ => check = .ok () := by
  obtain e | ⟨⟩ := check
  · exact fun _ hw => ⟨hw, fun _ hb => by cases hb⟩
  · exact pure rfl

theorem drawn {action : StateM γ α} (h : ∀ g, P (action g).1) : Ensures I (draw action) P := by
  refine fun w hw => ⟨hw, fun a ha => ?_⟩
  rw [← Except.ok.inj ha]
  exact h w.random

theorem draw (action : StateM γ α) : Ensures I (draw action) fun _ => True :=
  drawn fun _ => trivial

theorem tryDraw (action : ExceptT Violation (StateM γ) α) :
    Ensures I (tryDraw action) fun _ => True :=
  fun _ hw => ⟨hw, fun _ _ => trivial⟩

theorem call {x : StateM σ α} (h : ∀ s, I s → I (x s).2 ∧ P (x s).1) :
    Ensures (γ := γ) I (call x) P := by
  refine fun w hw => ⟨(h _ hw).1, fun a ha => ?_⟩
  rw [← Except.ok.inj ha]
  exact (h _ hw).2

theorem tryCall {x : StateM σ (Except EvaluationError α)}
    (h : ∀ s, I s → I (x s).2 ∧ ∀ a, (x s).1 = .ok a → P a) :
    Ensures (γ := γ) I (tryCall x) P := by
  refine fun w hw => ⟨(h _ hw).1, fun a ha => (h _ hw).2 a ?_⟩
  have hmap : (x w.state).1.mapError Failure.evaluation = .ok a := ha
  rcases hx : (x w.state).1 with e | b <;> rw [hx] at hmap
  · cases hmap
  · rw [Except.ok.inj hmap]

theorem lift {x : StateM (World γ σ) α} (h : ∀ w, I w.state → I (x w).2.state ∧ P (x w).1) :
    Ensures I (liftM x : Run γ σ α) P := by
  refine fun w hw => ⟨(h w hw).1, fun a ha => ?_⟩
  rw [← Except.ok.inj ha]
  exact (h w hw).2

/-! ## Sequences -/

theorem bind {x : Run γ σ α} {f : α → Run γ σ β} (hx : Ensures I x P)
    (hf : ∀ a, P a → Ensures I (f a) Q) : Ensures I (x >>= f) Q := by
  intro w hw
  obtain ⟨hI, hP⟩ := hx w hw
  rw [exec_bind]
  rcases hxw : x.exec w with ⟨e | a, v⟩ <;> rw [hxw] at hI hP
  · exact ⟨hI, fun b hb => by cases hb⟩
  · exact hf a (hP a rfl) v hI

theorem get {k : World γ σ → Run γ σ β} (h : ∀ w, Ensures I (k w) Q) :
    Ensures I (get >>= k) Q := fun w hw => h w w hw

theorem mono {P' : α → Prop} {x : Run γ σ α} (hx : Ensures I x P) (h : ∀ a, P a → P' a) :
    Ensures I x P' := fun w hw => ⟨(hx w hw).1, fun a ha => h a ((hx w hw).2 a ha)⟩

theorem and {P' : α → Prop} {x : Run γ σ α} (hx : Ensures I x P) (hx' : Ensures I x P') :
    Ensures I x fun a => P a ∧ P' a :=
  fun w hw => ⟨(hx w hw).1, fun a ha => ⟨(hx w hw).2 a ha, (hx' w hw).2 a ha⟩⟩

theorem ite {p : Prop} [Decidable p] {x y : Run γ σ α} (hx : p → Ensures I x P)
    (hy : ¬ p → Ensures I y P) : Ensures I (if p then x else y) P := by
  split
  · exact hx ‹_›
  · exact hy ‹_›

theorem mapM {R : α → β → Prop} {f : α → Run γ σ β} {as : List α}
    (hf : ∀ a ∈ as, Ensures I (f a) (R a)) :
    Ensures I (as.mapM f) (List.Forall₂ R as) := by
  induction as with
  | nil => exact pure .nil
  | cons a as ih =>
    rw [List.mapM_cons]
    refine bind (hf a (by simp)) fun b hb => ?_
    refine bind (ih fun a ha => hf a (by simp [ha])) fun bs hbs => ?_
    exact pure (.cons hb hbs)

theorem foldlM {f : β → α → Run γ σ β} {as : List α} {b : β} (hb : Q b)
    (hf : ∀ b a, a ∈ as → Q b → Ensures I (f b a) Q) : Ensures I (as.foldlM f b) Q := by
  induction as generalizing b with
  | nil => exact pure hb
  | cons a as ih =>
    rw [List.foldlM_cons]
    exact bind (hf b a (by simp) hb) fun b' hb' => ih hb' fun b a ha => hf b a (by simp [ha])

/-! ## Consequences -/

theorem of_ok {x : Run γ σ α} (hx : Ensures I x P) {w w' : World γ σ} {a : α} (hw : I w.state)
    (h : x.exec w = (.ok a, w')) : I w'.state ∧ P a := by
  have hxw := hx w hw
  rw [h] at hxw
  exact ⟨hxw.1, hxw.2 a rfl⟩

/-- **What keeps every property of the caller's state leaves it alone.** -/
theorem state_eq {x : Run γ σ α} (hx : ∀ I : σ → Prop, Ensures I x P) {w w' : World γ σ} {a : α}
    (h : x.exec w = (.ok a, w')) : w'.state = w.state :=
  (of_ok (hx (· = w.state)) rfl h).1

end Ensures

end Run

end Metaheuristics
