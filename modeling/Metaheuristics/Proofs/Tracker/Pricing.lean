import Metaheuristics.Proofs.Arithmetic.Exact
import Metaheuristics.Proofs.Tracker.Bounds
import Mathlib.Data.List.Nodup

/-!
# Priced columns

The reduced costs of priced columns are recorded one by one, and what is left is the least cost of
each executor: none is left out, none is counted twice (`isMinima_leastCosts`, by one lemma for the
first column of an executor and one for the others).  Which columns there are matters only through
these minima, and they are the same where each column is dominated by one of the others
(`sameMinima_iff`).

The minima are summed in an order that carries no meaning.  Where the sums are exact, they are the
same number for columns with the same minima (`SameMinima.exactSum_eq`).  What can still differ is
the sign of zero, since the least of two zeros is either of them; it is seen only where the last
objective of the relaxation is negative zero (`SameMinima.priced`).  `pricing_by_minima` puts this
together with what a new dual bound changes (`offer_frame`).
-/

namespace Metaheuristics.Tracker

open Arithmetic

variable {κ : Type} [DecidableEq κ] {columns columns' : List (Column κ)} {column : Column κ}
  {costs costs' : List (κ × Float)} {k : κ} {x y : Float}

/-! ## The least cost of an executor -/

/-- The reduced costs of the columns of an executor. -/
def costsOf (columns : List (Column κ)) (k : κ) : List Float :=
  (columns.filter (·.executor = k)).map Column.reducedCost

theorem mem_costsOf :
    x ∈ costsOf columns k ↔ ∃ c ∈ columns, c.executor = k ∧ c.reducedCost = x := by
  simp only [costsOf, List.mem_map, List.mem_filter, decide_eq_true_eq, and_assoc]

/-- **The least cost of each executor**, in any order. -/
structure IsMinima (columns : List (Column κ)) (costs : List (κ × Float)) : Prop where
  /-- No executor is counted twice, -/
  nodup : (costs.map Prod.fst).Nodup
  /-- and none is left out. -/
  keys : ∀ k, k ∈ costs.map Prod.fst ↔ k ∈ columns.map Column.executor
  least : ∀ k x, (k, x) ∈ costs → IsLeast x (costsOf columns k)

/-- **Columns of finite cost.** -/
def FiniteCosts (columns : List (Column κ)) : Prop := ∀ c ∈ columns, c.reducedCost.isFinite = true

theorem isFinite_of_mem_costsOf (h : FiniteCosts columns) (hx : x ∈ costsOf columns k) :
    x.isFinite = true := by
  obtain ⟨c, hc, -, rfl⟩ := mem_costsOf.mp hx
  exact h c hc

theorem IsMinima.isFinite (h : IsMinima columns costs) (hfinite : FiniteCosts columns)
    (hx : (k, x) ∈ costs) : x.isFinite = true :=
  isFinite_of_mem_costsOf hfinite (h.least k x hx).1

/-! ## Recording the costs -/

theorem recordCost_of_notMem (h : column.executor ∉ costs.map Prod.fst) :
    recordCost column costs = costs ++ [(column.executor, column.reducedCost)] := by
  induction costs with
  | nil => rfl
  | cons entry costs ih =>
    rw [List.map_cons, List.mem_cons, not_or] at h
    unfold recordCost
    rw [if_neg (Ne.symm h.1), ih h.2, List.cons_append]

theorem recordCost_append (h : column.executor ∉ costs.map Prod.fst) :
    recordCost column (costs ++ (column.executor, y) :: costs') =
      costs ++ (column.executor, minimum y column.reducedCost) :: costs' := by
  induction costs with
  | nil => exact if_pos rfl
  | cons entry costs ih =>
    rw [List.map_cons, List.mem_cons, not_or] at h
    rw [List.cons_append]
    unfold recordCost
    rw [if_neg (Ne.symm h.1), ih h.2, List.cons_append]

theorem costsOf_concat : costsOf (columns ++ [column]) k =
    costsOf columns k ++ if column.executor = k then [column.reducedCost] else [] := by
  unfold costsOf
  rw [List.filter_append, List.map_append, List.filter_singleton]
  by_cases h : column.executor = k <;> simp [h]

theorem IsLeast.minimum {xs : List Float} (h : IsLeast x xs) (hx : x.isNaN = false)
    (hy : y.isNaN = false) : IsLeast (minimum x y) (xs ++ [y]) := by
  unfold Arithmetic.minimum
  rw [hy, if_neg Bool.false_ne_true]
  split_ifs with hlt
  · refine ⟨List.mem_append_left _ h.1, fun z hz => ?_⟩
    rcases List.mem_append.mp hz with hz | hz
    · exact h.2 z hz
    · rw [List.mem_singleton.mp hz]
      exact le_of_lt hlt
  · have hle := le_of_not_lt hx hy hlt
    refine ⟨List.mem_append_right _ (List.mem_singleton_self y), fun z hz => ?_⟩
    rcases List.mem_append.mp hz with hz | hz
    · exact le_trans hle (h.2 z hz)
    · rw [List.mem_singleton.mp hz]
      exact le_self hy

omit [DecidableEq κ] in
theorem FiniteCosts.of_append (h : FiniteCosts (columns ++ columns')) : FiniteCosts columns :=
  fun c hc => h c (List.mem_append_left _ hc)

omit [DecidableEq κ] in
theorem mem_keys_concat : k ∈ (columns ++ [column]).map Column.executor ↔
    k ∈ columns.map Column.executor ∨ k = column.executor := by
  rw [List.map_append, List.mem_append, List.map_singleton, List.mem_singleton]

theorem IsMinima.first (h : IsMinima columns costs) (hcolumn : column.reducedCost.isNaN = false)
    (hnew : column.executor ∉ costs.map Prod.fst) :
    IsMinima (columns ++ [column]) (costs ++ [(column.executor, column.reducedCost)]) where
  nodup := by
    rw [List.map_append, List.map_singleton, List.nodup_append]
    refine ⟨h.nodup, List.nodup_singleton _, fun k hk k' hk' heq => hnew ?_⟩
    rwa [heq, List.mem_singleton.mp hk'] at hk
  keys k := by
    rw [mem_keys_concat, ← h.keys, List.map_append, List.mem_append, List.map_singleton,
      List.mem_singleton]
  least k x hx := by
    rw [costsOf_concat]
    rcases List.mem_append.mp hx with hx | hx
    · have hne : column.executor ≠ k := fun heq => hnew (heq ▸ List.mem_map_of_mem hx)
      rw [if_neg hne, List.append_nil]
      exact h.least k x hx
    · obtain ⟨rfl, rfl⟩ := Prod.mk.inj (List.mem_singleton.mp hx)
      have hnone : costsOf columns column.executor = [] := by
        refine List.eq_nil_iff_forall_not_mem.mpr fun y hy => hnew ?_
        obtain ⟨c, hc, hk, -⟩ := mem_costsOf.mp hy
        exact (h.keys _).mpr (hk ▸ List.mem_map_of_mem hc)
      rw [hnone, if_pos rfl]
      refine ⟨List.mem_singleton_self _, fun y hy => ?_⟩
      rw [List.mem_singleton.mp hy]
      exact le_self hcolumn

theorem IsMinima.again (h : IsMinima columns (costs ++ (column.executor, y) :: costs'))
    (hfinite : FiniteCosts columns) (hcolumn : column.reducedCost.isNaN = false) :
    IsMinima (columns ++ [column])
      (costs ++ (column.executor, minimum y column.reducedCost) :: costs') := by
  have hmap (z : Float) : (costs ++ (column.executor, z) :: costs').map Prod.fst =
      costs.map Prod.fst ++ column.executor :: costs'.map Prod.fst := by
    rw [List.map_append, List.map_cons]
  have hy : (column.executor, y) ∈ costs ++ (column.executor, y) :: costs' :=
    List.mem_append_right _ List.mem_cons_self
  refine ⟨?_, fun k => ?_, fun k x hx => ?_⟩
  · rw [hmap, ← hmap y]
    exact h.nodup
  · rw [mem_keys_concat, hmap, ← hmap y, h.keys, or_iff_left_of_imp]
    rintro rfl
    exact (h.keys _).mp (List.mem_map_of_mem hy)
  · rw [costsOf_concat]
    rw [List.mem_append, List.mem_cons, or_left_comm, ← List.mem_append] at hx
    rcases hx with hx | hx
    · obtain ⟨rfl, rfl⟩ := Prod.mk.inj hx
      rw [if_pos rfl]
      exact (h.least _ y hy).minimum (isNaN_of_isFinite (h.isFinite hfinite hy)) hcolumn
    · have hnodup := h.nodup
      rw [hmap, List.nodup_middle, List.nodup_cons, ← List.map_append] at hnodup
      have hne : column.executor ≠ k := fun heq => hnodup.1 (heq ▸ List.mem_map_of_mem hx)
      rw [if_neg hne, List.append_nil]
      refine h.least k x ?_
      rw [List.mem_append, List.mem_cons, or_left_comm, ← List.mem_append]
      exact Or.inr hx

/-- **The costs that are recorded are the least ones.** -/
theorem isMinima_leastCosts (h : FiniteCosts columns) : IsMinima columns (leastCosts columns) := by
  induction columns using List.reverseRecOn with
  | nil => exact ⟨List.nodup_nil, fun k => Iff.rfl, fun k x hx => nomatch hx⟩
  | append_singleton columns column ih =>
    have hcolumn : column.reducedCost.isNaN = false :=
      isNaN_of_isFinite (h column (List.mem_append_right _ (List.mem_singleton_self _)))
    have hbefore := ih h.of_append
    have hstep : leastCosts (columns ++ [column]) = recordCost column (leastCosts columns) :=
      List.foldl_append
    rw [hstep]
    generalize leastCosts columns = costs at hbefore ⊢
    by_cases hmem : column.executor ∈ costs.map Prod.fst
    · obtain ⟨⟨k, y⟩, hy, hk⟩ := List.mem_map.mp hmem
      obtain rfl : k = column.executor := hk
      obtain ⟨earlier, later, rfl⟩ := List.append_of_mem hy
      have hnodup := hbefore.nodup
      rw [List.map_append, List.map_cons, List.nodup_middle, List.nodup_cons, List.mem_append,
        not_or] at hnodup
      rw [recordCost_append hnodup.1.1]
      exact hbefore.again h.of_append hcolumn
    · rw [recordCost_of_notMem hmem]
      exact hbefore.first hcolumn hmem

/-! ## Columns with the same minima -/

/-- **Columns with the same minima**: the same executors, and the same least cost of each. -/
structure SameMinima (columns columns' : List (Column κ)) : Prop where
  keys : ∀ k, k ∈ columns.map Column.executor ↔ k ∈ columns'.map Column.executor
  least : ∀ k x y, IsLeast x (costsOf columns k) → IsLeast y (costsOf columns' k) → SameNumber x y

/-- Each of the other columns is **dominated** by one of the same executor. -/
def Dominates (columns columns' : List (Column κ)) : Prop :=
  ∀ c' ∈ columns', ∃ c ∈ columns, c.executor = c'.executor ∧ c.reducedCost ≤ c'.reducedCost

theorem exists_isLeast (h : FiniteCosts columns) (hk : k ∈ columns.map Column.executor) :
    ∃ x, IsLeast x (costsOf columns k) := by
  obtain ⟨⟨k, x⟩, hx, rfl⟩ := List.mem_map.mp (((isMinima_leastCosts h).keys k).mpr hk)
  exact ⟨x, (isMinima_leastCosts h).least k x hx⟩

theorem Dominates.le (h : Dominates columns columns') (hx : IsLeast x (costsOf columns k))
    (hy : y ∈ costsOf columns' k) : x ≤ y := by
  obtain ⟨c', hc', hk', rfl⟩ := mem_costsOf.mp hy
  obtain ⟨c, hc, hk, hle⟩ := h c' hc'
  exact le_trans (hx.2 _ (mem_costsOf.mpr ⟨c, hc, hk.trans hk', rfl⟩)) hle

omit [DecidableEq κ] in
theorem Dominates.keys (h : Dominates columns columns') (hk : k ∈ columns'.map Column.executor) :
    k ∈ columns.map Column.executor := by
  obtain ⟨c', hc', rfl⟩ := List.mem_map.mp hk
  obtain ⟨c, hc, heq, -⟩ := h c' hc'
  exact heq ▸ List.mem_map_of_mem hc

theorem SameMinima.symm (h : SameMinima columns columns') : SameMinima columns' columns :=
  ⟨fun k => (h.keys k).symm, fun k x y hx hy => (h.least k y x hy hx).symm⟩

theorem SameMinima.dominates (h : SameMinima columns columns') (hfinite : FiniteCosts columns)
    (hfinite' : FiniteCosts columns') : Dominates columns columns' := by
  intro c' hc'
  have hk' : c'.executor ∈ columns'.map Column.executor := List.mem_map_of_mem hc'
  obtain ⟨x, hx⟩ := exists_isLeast hfinite ((h.keys _).mpr hk')
  obtain ⟨y, hy⟩ := exists_isLeast hfinite' hk'
  obtain ⟨c, hc, hk, rfl⟩ := mem_costsOf.mp hx.1
  have hle := (h.least _ _ _ hx hy).le (isNaN_of_isFinite (hfinite c hc))
  exact ⟨c, hc, hk, le_trans hle (hy.2 _ (mem_costsOf.mpr ⟨c', hc', rfl, rfl⟩))⟩

/-- **Columns have the same minima** where each of them is dominated by one of the others.  So the
order of columns, repeated ones and dominated ones make no difference. -/
theorem sameMinima_iff (h : FiniteCosts columns) (h' : FiniteCosts columns') :
    SameMinima columns columns' ↔ Dominates columns columns' ∧ Dominates columns' columns := by
  refine ⟨fun hsame => ⟨hsame.dominates h h', hsame.symm.dominates h' h⟩, ?_⟩
  rintro ⟨hdom, hdom'⟩
  refine ⟨fun k => ⟨hdom'.keys, hdom.keys⟩, fun k x y hx hy => ?_⟩
  exact sameNumber_of_le (isFinite_of_mem_costsOf h hx.1) (isFinite_of_mem_costsOf h' hy.1)
    (hdom.le hx hy.1) (hdom'.le hy hx.1)

/-! ## The sum of the minima -/

theorem IsMinima.mem_map {β : Type} {f : Float → β} (h : IsMinima columns costs)
    (h' : IsMinima columns' costs')
    (hkeys : ∀ k, k ∈ columns.map Column.executor → k ∈ columns'.map Column.executor)
    (hf : ∀ k x y, (k, x) ∈ costs → (k, y) ∈ costs' → f x = f y) {entry : κ × β}
    (he : entry ∈ costs.map (Prod.map id f)) : entry ∈ costs'.map (Prod.map id f) := by
  obtain ⟨⟨k, x⟩, hx, rfl⟩ := List.mem_map.mp he
  have hk : k ∈ columns.map Column.executor := (h.keys k).mp (List.mem_map_of_mem hx)
  have hk' : k ∈ costs'.map Prod.fst := (h'.keys k).mpr (hkeys k hk)
  obtain ⟨⟨k, y⟩, hy, rfl⟩ := List.mem_map.mp hk'
  exact List.mem_map.mpr ⟨(k, y), hy, Prod.ext rfl (hf k x y hx hy).symm⟩

theorem IsMinima.perm_map {β : Type} {f : Float → β} (h : IsMinima columns costs)
    (h' : IsMinima columns' costs')
    (hkeys : ∀ k, k ∈ columns.map Column.executor ↔ k ∈ columns'.map Column.executor)
    (hf : ∀ k x y, (k, x) ∈ costs → (k, y) ∈ costs' → f x = f y) :
    ((costs.map Prod.snd).map f).Perm ((costs'.map Prod.snd).map f) := by
  have hnodup {costs : List (κ × Float)} (hn : (costs.map Prod.fst).Nodup) :
      (costs.map (Prod.map id f)).Nodup :=
    List.Nodup.of_map Prod.fst (by rwa [List.map_map])
  have hsnd (costs : List (κ × Float)) :
      (costs.map Prod.snd).map f = (costs.map (Prod.map id f)).map Prod.snd := by
    rw [List.map_map, List.map_map]
    rfl
  rw [hsnd, hsnd]
  refine ((List.perm_ext_iff_of_nodup (hnodup h.nodup) (hnodup h'.nodup)).mpr fun entry => ?_).map _
  exact ⟨h.mem_map h' (fun k => (hkeys k).mp) hf,
    h'.mem_map h (fun k => (hkeys k).mpr) fun k y x hy hx => (hf k x y hx hy).symm⟩

theorem SameMinima.exactSum_eq (h : SameMinima columns columns') (hm : IsMinima columns costs)
    (hm' : IsMinima columns' costs') :
    exactSum (costs.map Prod.snd) = exactSum (costs'.map Prod.snd) :=
  (hm.perm_map hm' h.keys fun k x y hx hy => by
    rw [(h.least k x y (hm.least k x hx) (hm'.least k y hy)).steps_eq]).sum_eq

theorem IsMinima.perm (h : IsMinima columns costs) (h' : IsMinima columns' costs')
    (hkeys : ∀ k, k ∈ columns.map Column.executor ↔ k ∈ columns'.map Column.executor)
    (hvalues : ∀ k x y, (k, x) ∈ costs → (k, y) ∈ costs' → x = y) :
    (costs.map Prod.snd).Perm (costs'.map Prod.snd) := by
  have hperm := h.perm_map (f := id) h' hkeys hvalues
  rwa [List.map_id, List.map_id] at hperm

/-! ## The tracker -/

/-- **A new dual bound**, kept when it lies strictly between the best one and the best incumbent. -/
def offer (t : Tracker) (dual : Float) : Tracker :=
  if t.bestDual < dual ∧ dual < t.best then
    { t with
      bestDual := dual
      lowerBound := if t.lowerBound < dual then dual else t.lowerBound }
  else t

/-- **The least cost of each executor**, summed in the order in which they stand. -/
def priced (t : Tracker) (costs : List (κ × Float)) : Tracker :=
  t.offer (t.lastRelaxation + sum (costs.map Prod.snd))

/-- **Trackers with the same bounds**: they differ in nothing else, and in the dual bound and the
lower bound at most by the sign of zero. -/
structure SameBounds (t t' : Tracker) : Prop where
  others : t' = { t with bestDual := t'.bestDual, lowerBound := t'.lowerBound }
  bestDual : SameNumber t.bestDual t'.bestDual
  lowerBound : SameNumber t.lowerBound t'.lowerBound

variable {t : Tracker}

theorem SameBounds.offer {dual dual' : Float} (h : SameNumber dual dual') :
    SameBounds (t.offer dual) (t.offer dual') := by
  unfold Tracker.offer
  have hcond : (t.bestDual < dual ∧ dual < t.best) ↔ (t.bestDual < dual' ∧ dual' < t.best) :=
    and_congr h.lt_right h.lt_left
  by_cases hdual : t.bestDual < dual' ∧ dual' < t.best
  · rw [if_pos (hcond.mpr hdual), if_pos hdual]
    refine ⟨rfl, h, ?_⟩
    dsimp only
    by_cases hlower : t.lowerBound < dual'
    · rwa [if_pos (h.lt_right.mpr hlower), if_pos hlower]
    · rw [if_neg (mt h.lt_right.mp hlower), if_neg hlower]
      exact Or.inl rfl
  · rw [if_neg (mt hcond.mp hdual), if_neg hdual]
    exact ⟨rfl, Or.inl rfl, Or.inl rfl⟩

/-- What a new dual bound changes: the dual bound and the lower bound, which both go up, and
only where it lies between the best one and the best incumbent. -/
theorem offer_frame (t : Tracker) (dual : Float) :
    t.offer dual =
      { t with bestDual := (t.offer dual).bestDual, lowerBound := (t.offer dual).lowerBound } ∧
    ((t.offer dual).bestDual = t.bestDual ∨ t.bestDual < (t.offer dual).bestDual) ∧
    ((t.offer dual).lowerBound = t.lowerBound ∨ t.lowerBound < (t.offer dual).lowerBound) ∧
    (¬ (t.bestDual < dual ∧ dual < t.best) → t.offer dual = t) := by
  unfold offer
  by_cases hdual : t.bestDual < dual ∧ dual < t.best
  · rw [if_pos hdual]
    refine ⟨rfl, Or.inr hdual.1, ?_, absurd hdual⟩
    dsimp only
    by_cases hlower : t.lowerBound < dual
    · rw [if_pos hlower]
      exact Or.inr hlower
    · rw [if_neg hlower]
      exact Or.inl rfl
  · rw [if_neg hdual]
    exact ⟨rfl, Or.inl rfl, Or.inl rfl, fun _ => rfl⟩

/-- **The minima decide**: columns with the same minima lead to the same tracker, in whatever order
the minima are summed, as long as their sums are exact. -/
theorem SameMinima.priced (h : SameMinima columns columns') (hm : IsMinima columns costs)
    (hm' : IsMinima columns' costs') (hexact : SumsExactly (costs.map Prod.snd))
    (hexact' : SumsExactly (costs'.map Prod.snd)) :
    SameBounds (t.priced costs) (t.priced costs') ∧
      ((t.lastRelaxation = -0.0 → ∀ k x y, (k, x) ∈ costs → (k, y) ∈ costs' → x = y) →
        t.priced costs = t.priced costs') := by
  have hsteps := hexact'
  unfold SumsExactly at hsteps
  rw [← h.exactSum_eq hm hm'] at hsteps
  have hsame := sameNumber_of_steps hexact hsteps
  refine ⟨SameBounds.offer (hsame.add _), fun hvalues => congrArg t.offer ?_⟩
  by_cases hlast : t.lastRelaxation = -0.0
  · rw [sum_perm (hm.perm hm' h.keys (hvalues hlast)) hexact hexact']
  · rcases hsame with heq | ⟨hzero, hzero'⟩
    · rw [heq]
    · rw [add_of_steps_zero hlast hzero, add_of_steps_zero hlast hzero']

/-- **Freshly priced columns.**  For every tracker and all columns of finite cost, and as long as
the sums of the least costs are exact, columns with the same executors and the same least cost of
each lead to the same tracker.  Its bounds are the same numbers, and the same values unless the last
objective of the relaxation is negative zero and the least costs differ in the sign of a zero.
Columns have the same least costs where each is dominated by one of the others, so their order,
repeated columns and dominated ones make no difference; nor does the order in which the least costs
are summed.  The dual bound is the last objective of the relaxation and the least cost of each
executor, counted once.  Only the best dual bound and the lower bound change, both upwards, and
neither changes unless the dual bound lies strictly between the best one and the best incumbent. -/
theorem pricing_by_minima (t : Tracker) (columns : List (Column κ))
    (hfinite : FiniteCosts columns) :
    (∀ columns', FiniteCosts columns' → SameMinima columns columns' →
      SumsExactly ((leastCosts columns).map Prod.snd) →
      SumsExactly ((leastCosts columns').map Prod.snd) →
      SameBounds (t.refreshLowerBound columns) (t.refreshLowerBound columns') ∧
        ((t.lastRelaxation = -0.0 → ∀ k x y, (k, x) ∈ leastCosts columns →
            (k, y) ∈ leastCosts columns' → x = y) →
          t.refreshLowerBound columns = t.refreshLowerBound columns')) ∧
    (∀ columns', FiniteCosts columns' → (SameMinima columns columns' ↔
      Dominates columns columns' ∧ Dominates columns' columns)) ∧
    (∀ costs, costs.Perm (leastCosts columns) →
      SumsExactly ((leastCosts columns).map Prod.snd) → SumsExactly (costs.map Prod.snd) →
      t.priced costs = t.refreshLowerBound columns) ∧
    (t.dualBound columns = t.lastRelaxation + sum ((leastCosts columns).map Prod.snd) ∧
      IsMinima columns (leastCosts columns)) ∧
    t.refreshLowerBound columns =
      { t with
        bestDual := (t.refreshLowerBound columns).bestDual
        lowerBound := (t.refreshLowerBound columns).lowerBound } ∧
    ((t.refreshLowerBound columns).bestDual = t.bestDual ∨
      t.bestDual < (t.refreshLowerBound columns).bestDual) ∧
    ((t.refreshLowerBound columns).lowerBound = t.lowerBound ∨
      t.lowerBound < (t.refreshLowerBound columns).lowerBound) ∧
    (¬ (t.bestDual < t.dualBound columns ∧ t.dualBound columns < t.best) →
      t.refreshLowerBound columns = t) := by
  refine ⟨fun columns' hfinite' h hexact hexact' => ?_, fun columns' => sameMinima_iff hfinite,
    fun costs hperm hexact hexact' => ?_, ⟨rfl, isMinima_leastCosts hfinite⟩, offer_frame t _⟩
  · exact h.priced (isMinima_leastCosts hfinite) (isMinima_leastCosts hfinite') hexact hexact'
  · have hsum := sum_perm (hperm.map Prod.snd) hexact' hexact
    exact congrArg (fun total => t.offer (t.lastRelaxation + total)) hsum

/-- Two executors, whose columns come in another order, with one repeated and one dominated. -/
theorem pricing_by_minima_reordered :
    FiniteCosts [⟨"a", -10.0⟩, ⟨"a", -30.0⟩, ⟨"b", -20.0⟩] ∧
    (after .standard [.incumbent 500.0, .relaxation 400.0]).refreshLowerBound
        [⟨"a", -10.0⟩, ⟨"a", -30.0⟩, ⟨"b", -20.0⟩] =
      (after .standard [.incumbent 500.0, .relaxation 400.0]).refreshLowerBound
        [⟨"b", -20.0⟩, ⟨"b", 5.0⟩, ⟨"a", -30.0⟩, ⟨"b", -20.0⟩] ∧
    ((after .standard [.incumbent 500.0, .relaxation 400.0]).refreshLowerBound
        [⟨"a", -10.0⟩, ⟨"a", -30.0⟩, ⟨"b", -20.0⟩]).bestDual = 350.0 := by
  have hfinite : FiniteCosts [⟨"a", -10.0⟩, ⟨"a", -30.0⟩, ⟨"b", -20.0⟩] := by
    unfold FiniteCosts
    decide +kernel
  have hfinite' : FiniteCosts [⟨"b", -20.0⟩, ⟨"b", 5.0⟩, ⟨"a", -30.0⟩, ⟨"b", -20.0⟩] := by
    unfold FiniteCosts
    decide +kernel
  obtain ⟨hsame, hiff, -⟩ := pricing_by_minima
    (after .standard [.incumbent 500.0, .relaxation 400.0]) _ hfinite
  have hminima := (hiff _ hfinite').mpr
    ⟨by unfold Dominates; decide +kernel, by unfold Dominates; decide +kernel⟩
  have hlast : (after .standard [.incumbent 500.0, .relaxation 400.0]).lastRelaxation ≠ -0.0 := by
    decide +kernel
  obtain ⟨-, heq⟩ := hsame _ hfinite' hminima (by decide +kernel) (by decide +kernel)
  exact ⟨hfinite, heq fun h => absurd h hlast, by decide +kernel⟩

end Metaheuristics.Tracker
