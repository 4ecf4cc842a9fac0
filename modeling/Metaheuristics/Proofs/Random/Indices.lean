import Mathlib.Data.List.GetD
import Mathlib.Tactic.ByContra
import Metaheuristics.Random.Draw

/-!
# Indices are in range

What a source can yield (`Yields`).  An index drawn below a positive bound is below it, whatever the
words of the source are (`below_lt`): the second word can carry over into the answer, but where it
does, there is room for it.  Hence all indices of a sample are in range (`sample_lt`).
-/

namespace Metaheuristics.Random

variable {γ α β : Type}

/-- **Whatever is drawn** has `P`. -/
def Yields (x : StateM γ α) (P : α → Prop) : Prop := ∀ g, P (x g).1

namespace Yields

variable {x : StateM γ α} {f : α → StateM γ β} {P : α → Prop} {Q : β → Prop}

theorem any (x : StateM γ α) : Yields x fun _ => True := fun _ => trivial

theorem pure {a : α} (h : P a) : Yields (γ := γ) (pure a) P := fun _ => h

theorem bind (hx : Yields x P) (hf : ∀ a, P a → Yields (f a) Q) : Yields (x >>= f) Q :=
  fun g => hf _ (hx g) _

theorem ite {p : Prop} [Decidable p] {x y : StateM γ α} (hx : p → Yields x P)
    (hy : ¬ p → Yields y P) : Yields (if p then x else y) P := by
  split
  · exact hx ‹_›
  · exact hy ‹_›

end Yields

/-! ## One index -/

/-- A fraction of `size` less than one, multiplied by `range`, is less than `range`. -/
theorem whole_lt {word range size : Nat} (hword : word < size) (hrange : 0 < range) :
    word * range / size < range := by
  have hproduct : word * range < size * range := Nat.mul_lt_mul_of_pos_right hword hrange
  exact Nat.div_lt_of_lt_mul hproduct

/-- Where a carry is possible, there is room for it. -/
theorem carry_lt {word range size : Nat} (hword : word < size) (hrange : 0 < range)
    (hcarry : size - range < word * range % size) : word * range / size + 1 < range := by
  have hwhole := whole_lt hword hrange
  by_contra hnot
  -- the largest answer is that of the largest word, with which nothing carries over
  have hlargest : word * range / size = range - 1 := by omega
  have hproduct := Nat.div_add_mod (word * range) size
  rw [hlargest, Nat.mul_sub, Nat.mul_one] at hproduct
  have hle : word * range ≤ (size - 1) * range := Nat.mul_le_mul_right range (by omega)
  rw [Nat.sub_mul, Nat.one_mul] at hle
  have hsize : size ≤ size * range := Nat.le_mul_of_pos_right size hrange
  have hrange' : range ≤ size * range := Nat.le_mul_of_pos_left range (by omega)
  omega

variable [Source γ]

theorem below_lt {n : Nat} (hn : 0 < n) : Yields (γ := γ) (below n) (· < n) := by
  have hmod : n % UInt32.size ≤ n := Nat.mod_le n _
  refine Yields.bind (P := fun word => word.toNat < UInt32.size)
    (fun g => (Source.word32 g).1.toNat_lt_size) fun word hword => ?_
  refine Yields.ite (fun hzero => ?_) fun hzero => ?_
  · have hle : UInt32.size ≤ n := Nat.le_of_dvd hn (Nat.dvd_of_mod_eq_zero hzero)
    exact Yields.pure (Nat.lt_of_lt_of_le hword hle)
  have hpos : 0 < n % UInt32.size := Nat.pos_of_ne_zero hzero
  have hwhole := whole_lt hword hpos
  refine Yields.ite (fun hcarry => ?_) fun _ => Yields.pure (by omega)
  have hroom := carry_lt hword hpos hcarry
  refine Yields.bind (Yields.any _) fun more _ => Yields.pure ?_
  split <;> omega

/-! ## Several indices -/

theorem mem_or_eq_of_mem_replace {old new i : Nat} {is : List Nat} (h : i ∈ is.replace old new) :
    i ∈ is ∨ i = new := by
  induction is with
  | nil => cases h
  | cons k is ih =>
    rw [List.replace_cons] at h
    split at h
    · rcases List.mem_cons.mp h with rfl | h
      · exact Or.inr rfl
      · exact Or.inl (List.mem_cons_of_mem k h)
    · rcases List.mem_cons.mp h with rfl | h
      · exact Or.inl List.mem_cons_self
      · exact (ih h).imp_left (List.mem_cons_of_mem k)

theorem sampleSparse_lt {length : Nat} {ends recorded : List Nat} (hends : ∀ j ∈ ends, j < length)
    (hrecorded : ∀ i ∈ recorded, i < length) :
    Yields (γ := γ) (sampleSparse ends recorded) fun is => ∀ i ∈ is, i < length := by
  induction ends generalizing recorded with
  | nil => exact Yields.pure hrecorded
  | cons j ends ih =>
    have hj : j < length := hends j List.mem_cons_self
    refine Yields.bind (below_lt (Nat.succ_pos j)) fun t ht => ?_
    refine ih (fun k hk => hends k (List.mem_cons_of_mem j hk)) fun i hi => ?_
    rcases List.mem_append.mp hi with hi | hi
    · rcases mem_or_eq_of_mem_replace hi with hi | rfl
      · exact hrecorded i hi
      · exact hj
    · rw [List.mem_singleton.mp hi]
      omega

theorem sampleDense_lt {length amount : Nat} {pool : List Nat} (hpool : ∀ i ∈ pool, i < length) :
    Yields (γ := γ) (sampleDense amount pool) fun is => ∀ i ∈ is, i < length := by
  induction amount generalizing pool with
  | zero => exact Yields.pure fun i hi => by cases hi
  | succ amount ih =>
    obtain _ | ⟨x, rest⟩ := pool
    · exact Yields.pure fun i hi => by cases hi
    have hx : x < length := hpool x List.mem_cons_self
    have hrest : ∀ i ∈ rest, i < length := fun i hi => hpool i (List.mem_cons_of_mem x hi)
    refine Yields.bind (below_lt (Nat.succ_pos rest.length)) fun j hj => ?_
    obtain _ | j := j
    · refine Yields.bind (ih hrest) fun is his => Yields.pure ?_
      exact List.forall_mem_cons.mpr ⟨hx, his⟩
    · have hswapped : ∀ i ∈ rest.set j x, i < length := by
        intro i hi
        rcases List.mem_or_eq_of_mem_set hi with hi | rfl
        · exact hrest i hi
        · exact hx
      refine Yields.bind (ih hswapped) fun is his => Yields.pure ?_
      have hdrawn : rest.getD j x < length := by
        rw [List.getD_eq_getElem _ _ (by omega)]
        exact hrest _ (List.getElem_mem _)
      exact List.forall_mem_cons.mpr ⟨hdrawn, his⟩

/-- **The indices of a sample** are in range. -/
theorem sample_lt {length amount : Nat} (h : amount ≤ length) :
    Yields (γ := γ) (sample length amount) fun is => ∀ i ∈ is, i < length := by
  refine Yields.ite (fun _ => ?_) fun _ => ?_
  · exact sampleDense_lt fun i hi => List.mem_range.mp hi
  · refine sampleSparse_lt (fun j hj => ?_) fun i hi => by cases hi
    have hend := (List.mem_range'_1.mp hj).2
    omega

/-! ## How many indices -/

theorem sampleSparse_length (ends recorded : List Nat) :
    Yields (γ := γ) (sampleSparse ends recorded)
      fun is => is.length = recorded.length + ends.length := by
  induction ends generalizing recorded with
  | nil => exact Yields.pure rfl
  | cons j ends ih =>
    refine Yields.bind (Yields.any _) fun t _ g => (ih _ g).trans ?_
    rw [List.length_append, List.length_replace, List.length_singleton, List.length_cons]
    omega

theorem sampleDense_length {amount : Nat} {pool : List Nat} :
    Yields (γ := γ) (sampleDense amount pool) fun is => is.length ≤ amount := by
  induction amount generalizing pool with
  | zero => exact Yields.pure (Nat.le_refl 0)
  | succ amount ih =>
    obtain _ | ⟨x, rest⟩ := pool
    · exact Yields.pure (Nat.zero_le _)
    refine Yields.bind (Yields.any _) fun j _ => ?_
    obtain _ | j := j <;>
      exact Yields.bind ih fun is his => Yields.pure (Nat.succ_le_succ his)

theorem sample_length {length amount : Nat} :
    Yields (γ := γ) (sample length amount) fun is => is.length ≤ amount := by
  refine Yields.ite (fun _ => sampleDense_length) fun _ g => ?_
  have hlength := sampleSparse_length (List.range' (length - amount) amount) [] g
  rw [List.length_range', List.length_nil, Nat.zero_add] at hlength
  exact Nat.le_of_eq hlength

end Metaheuristics.Random
