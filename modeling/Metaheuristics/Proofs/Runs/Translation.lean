import Metaheuristics.Proofs.Runs.Results

/-!
# Translations of runs

One run is a translation of another one when it does the same step by step, only with the results
read through `f` and the caller's state read through `view` (`Translates`).  The same words are
drawn and the same failures occur.  Translation goes through every way in which runs are put
together, so two runs that differ in their leaves only are translations of each other as soon as the
leaves are.
-/

namespace Metaheuristics

variable {γ σ τ α α' β β' : Type}

/-- A world with the caller's state read through `view`. -/
def World.through (view : σ → τ) (w : World γ σ) : World γ τ := ⟨w.random, view w.state⟩

namespace Run

/-- **The run `y` does what `x` does**, with results read through `f` and states through `view`. -/
def Translates (view : σ → τ) (f : α → β) (x : Run γ σ α) (y : Run γ τ β) : Prop :=
  ∀ w, y.exec (w.through view) = ((x.exec w).1.map f, (x.exec w).2.through view)

variable {view : σ → τ}

namespace Translates

/-! ## Steps -/

theorem pure {f : α → β} {a : α} {b : β} (h : b = f a) :
    Translates (γ := γ) view f (pure a) (pure b) := by
  rintro w; rw [h]; rfl

theorem violate {f : α → β} (broken : Violation) :
    Translates (γ := γ) view f (violate broken : Run γ σ α) (violate broken) := fun _ => rfl

theorem expect {f : α → β} {o : Option α} {o' : Option β} (broken : Violation)
    (h : o' = o.map f) :
    Translates (γ := γ) view f (expect broken o) (expect broken o') := by
  rintro w; obtain _ | a := o <;> rw [h] <;> rfl

theorem require (check : Except SettingsError Unit) :
    Translates (γ := γ) view id (require check) (require check) := by
  rintro w; obtain e | ⟨⟩ := check <;> rfl

theorem draw (action : StateM γ α) : Translates view id (draw action) (draw action) := fun _ => rfl

theorem tryDraw (action : ExceptT Violation (StateM γ) α) :
    Translates view id (tryDraw action) (tryDraw action) := by
  intro w
  show ((action w.random).1.mapError _, _) = (((action w.random).1.mapError _).map id, _)
  cases (action w.random).1 <;> rfl

theorem call {f : α → β} {x : StateM σ α} {y : StateM τ β}
    (h : ∀ s, y (view s) = (f (x s).1, view (x s).2)) :
    Translates (γ := γ) view f (call x) (call y) := by
  intro w
  show (Except.ok (y (view w.state)).1, World.mk w.random (y (view w.state)).2) = _
  rw [h]; rfl

theorem tryCall {f : α → β} {x : StateM σ (Except EvaluationError α)}
    {y : StateM τ (Except EvaluationError β)}
    (h : ∀ s, y (view s) = ((x s).1.map f, view (x s).2)) :
    Translates (γ := γ) view f (tryCall x) (tryCall y) := by
  intro w
  show ((y (view w.state)).1.mapError Failure.evaluation, World.mk w.random (y (view w.state)).2)
    = (((x w.state).1.mapError Failure.evaluation).map f, _)
  rw [h]
  cases (x w.state).1 <;> rfl

theorem lift {f : α → β} {x : StateM (World γ σ) α} {y : StateM (World γ τ) β}
    (h : ∀ w, y (World.through view w) = (f (x w).1, (x w).2.through view)) :
    Translates view f (liftM x : Run γ σ α) (liftM y : Run γ τ β) := by
  intro w
  show (Except.ok (y (w.through view)).1, (y (w.through view)).2) = _
  rw [h]; rfl

theorem eq_ok {f : α → β} {x : Run γ σ α} {y : Run γ τ β} (h : Translates view f x y)
    {w : World γ σ} {b : β} {v : World γ τ} (hy : y.exec (w.through view) = (.ok b, v)) :
    ∃ a w', x.exec w = (.ok a, w') ∧ f a = b ∧ w'.through view = v := by
  rw [h w] at hy
  rcases hx : x.exec w with ⟨_ | a, w'⟩ <;> rw [hx] at hy
  · cases (Prod.mk.inj hy).1
  · obtain ⟨ha, hv⟩ := Prod.mk.inj hy
    exact ⟨a, w', rfl, Except.ok.inj ha, hv⟩

/-! ## Sequences -/

/-- Only the results that the first part can have matter for the second one. -/
theorem bind_of_ok {f : α → β} {g : α' → β'} {x : Run γ σ α} {y : Run γ τ β}
    {k : α → Run γ σ α'} {l : β → Run γ τ β'} (hx : Translates view f x y)
    (hk : ∀ w a w', x.exec w = (.ok a, w') → Translates view g (k a) (l (f a))) :
    Translates view g (x >>= k) (y >>= l) := by
  intro w
  rw [exec_bind, exec_bind, hx w]
  rcases hw : x.exec w with ⟨_ | a, v⟩
  · rfl
  · exact hk w a v hw v

theorem bind {f : α → β} {g : α' → β'} {x : Run γ σ α} {y : Run γ τ β} {k : α → Run γ σ α'}
    {l : β → Run γ τ β'} (hx : Translates view f x y)
    (hk : ∀ a, Translates view g (k a) (l (f a))) : Translates view g (x >>= k) (y >>= l) :=
  bind_of_ok hx fun _ a _ _ => hk a

theorem bind_id {g : α' → β'} {x : Run γ σ α} {y : Run γ τ α} {k : α → Run γ σ α'}
    {l : α → Run γ τ β'} (hx : Translates view id x y)
    (hk : ∀ a, Translates view g (k a) (l a)) : Translates view g (x >>= k) (y >>= l) :=
  bind hx hk

theorem get {g : α' → β'} {k : World γ σ → Run γ σ α'} {l : World γ τ → Run γ τ β'}
    (hk : ∀ w, Translates view g (k w) (l (w.through view))) :
    Translates view g (get >>= k) (get >>= l) := fun w => hk w w

theorem map {f : α → β} {g : α' → β'} {x : Run γ σ α} {y : Run γ τ β} {k : α → α'} {l : β → β'}
    (hx : Translates view f x y) (hk : ∀ a, l (f a) = g (k a)) :
    Translates view g (k <$> x) (l <$> y) := by
  rw [← bind_pure_comp, ← bind_pure_comp]
  exact bind hx fun a => pure (hk a)

theorem refl (x : Run γ σ α) : Translates id id x x := by
  intro w
  rw [Except.map_id]; rfl

theorem exec_eq {x y : Run γ σ α} (h : Translates id id x y) (w : World γ σ) :
    y.exec w = x.exec w := (h w).trans (refl x w).symm

/-- A result that `g` recovers from what it has been turned into. -/
theorem recover {g : α' → α} {k : α → α'} (hk : ∀ a, g (k a) = a) (x : Run γ σ α) :
    Translates id g (k <$> x) x := by
  have h := map (l := id) (refl x) fun a => (hk a).symm
  rwa [id_map] at h

theorem ite {f : α → β} {p : Prop} [Decidable p] {x x' : Run γ σ α} {y y' : Run γ τ β}
    (hx : Translates view f x y) (hx' : Translates view f x' y') :
    Translates view f (if p then x else x') (if p then y else y') := by
  split
  · exact hx
  · exact hx'

theorem mapM {f : α → β} {g : α' → β'} {k : α → Run γ σ α'} {l : β → Run γ τ β'}
    (hk : ∀ a, Translates view g (k a) (l (f a))) (as : List α) :
    Translates view (List.map g) (as.mapM k) ((as.map f).mapM l) := by
  induction as with
  | nil => exact pure rfl
  | cons a as ih =>
    rw [List.map_cons, List.mapM_cons, List.mapM_cons]
    exact bind (hk a) fun b => bind ih fun bs => pure rfl

theorem foldlM {f : α → β} {g : α' → β'} {k : α' → α → Run γ σ α'} {l : β' → β → Run γ τ β'}
    (hk : ∀ b a, Translates view g (k b a) (l (g b) (f a))) (as : List α) (b : α') :
    Translates view g (as.foldlM k b) ((as.map f).foldlM l (g b)) := by
  induction as generalizing b with
  | nil => exact pure rfl
  | cons a as ih =>
    rw [List.map_cons, List.foldlM_cons, List.foldlM_cons]
    exact bind (hk b a) fun b' => ih b'

theorem mapM_same {g : α' → β'} {k : α → Run γ σ α'} {l : α → Run γ τ β'}
    (hk : ∀ a, Translates view g (k a) (l a)) (as : List α) :
    Translates view (List.map g) (as.mapM k) (as.mapM l) := by
  have h := mapM (f := id) hk as
  rwa [List.map_id] at h

theorem mapM_map {f : α → β} {k : α → Run γ σ α'} {l : β → Run γ τ α'}
    (hk : ∀ a, Translates view id (k a) (l (f a))) (as : List α) :
    Translates view id (as.mapM k) ((as.map f).mapM l) := by
  have h := mapM hk as
  rwa [List.map_id_fun] at h

theorem mapM_id {k : α → Run γ σ β} {l : α → Run γ τ β}
    (hk : ∀ a, Translates view id (k a) (l a)) (as : List α) :
    Translates view id (as.mapM k) (as.mapM l) := by
  have h := mapM_same hk as
  rwa [List.map_id_fun] at h

theorem foldlM_id {k : β → α → Run γ σ β} {l : β → α → Run γ τ β}
    (hk : ∀ b a, Translates view id (k b a) (l b a)) (as : List α) (b : β) :
    Translates view id (as.foldlM k b) (as.foldlM l b) := by
  have h := foldlM (f := id) hk as b
  rwa [List.map_id] at h

end Translates

end Run

end Metaheuristics
