import Metaheuristics.Model.Basic
import Metaheuristics.Proofs.Arithmetic.Exact

/-!
# Words

How many words a draw takes.  `words n` are the next `n` words of 64 bits of a source, and a draw
takes `n` words when it leaves the source as they do and its value is read off them (`Takes`).  The
words of a sequence are those of its parts, one after the other (`Takes.bind`, `Takes.mapM`).  A
number of the unit interval takes one word, a uniform value of a bound one word or none
(`takes_sample`).
-/

namespace Metaheuristics.Random

variable {γ α β : Type} [Source γ]

/-! ## The next words -/

/-- **The next `n` words** of 64 bits. -/
def words : Nat → StateM γ (List UInt64)
  | 0 => return []
  | n + 1 => do
    let word ← Source.word64
    return word :: (← words n)

theorem words_succ (n : Nat) (g : γ) : words (n + 1) g =
    ((Source.word64 g).1 :: (words n (Source.word64 g).2).1, (words n (Source.word64 g).2).2) := rfl

theorem length_words (n : Nat) (g : γ) : (words n g).1.length = n := by
  induction n generalizing g with
  | zero => rfl
  | succ n ih => rw [words_succ, List.length_cons, ih]

theorem words_add (m n : Nat) (g : γ) :
    words (m + n) g = ((words m g).1 ++ (words n (words m g).2).1, (words n (words m g).2).2) := by
  induction m generalizing g with
  | zero => rw [Nat.zero_add]; rfl
  | succ m ih => rw [Nat.add_right_comm, words_succ, words_succ, ih, List.cons_append]

/-- On a tape, words are counted by its position. -/
theorem words_tape (n : Nat) (tape : Tape) :
    (words n tape).2 = { tape with position := tape.position + n } := by
  induction n generalizing tape with
  | zero => rfl
  | succ n ih =>
    rw [words_succ, ih, Nat.add_comm n, ← Nat.add_assoc]
    rfl

/-! ## Draws -/

/-- **A draw takes `n` words**: it leaves the source as they do, and its value is read off them. -/
def Takes (n : Nat) (action : StateM γ α) : Prop :=
  ∃ read : List UInt64 → α, ∀ g, action g = (read (words n g).1, (words n g).2)

namespace Takes

variable {m n : Nat} {action : StateM γ α}

theorem pure (a : α) : Takes (γ := γ) 0 (pure a) := ⟨fun _ => a, fun _ => rfl⟩

theorem bind {f : α → StateM γ β} (h : Takes m action) (hf : ∀ a, Takes n (f a)) :
    Takes (m + n) (action >>= f) := by
  obtain ⟨read, hread⟩ := h
  choose readNext hnext using hf
  refine ⟨fun ws => readNext (read (ws.take m)) (ws.drop m), fun g => ?_⟩
  have hsplit : (words m g).1.length = m := length_words m g
  show f (action g).1 (action g).2 = _
  rw [hread, hnext, words_add]
  simp only [List.take_left' hsplit, List.drop_left' hsplit]

theorem map (h : Takes n action) (f : α → β) : Takes n (f <$> action) := by
  have hmap := h.bind fun a => pure (γ := γ) (f a)
  rwa [Nat.add_zero, bind_pure_comp] at hmap

theorem mapM {count : α → Nat} {f : α → StateM γ β} {as : List α}
    (hf : ∀ a ∈ as, Takes (count a) (f a)) : Takes (as.map count).sum (as.mapM f) := by
  induction as with
  | nil => exact pure []
  | cons a as ih =>
    rw [List.mapM_cons, List.map_cons, List.sum_cons]
    refine (hf a List.mem_cons_self).bind fun b => ?_
    exact (ih fun a ha => hf a (List.mem_cons_of_mem _ ha)).map _

theorem mapM_const {f : α → StateM γ β} {as : List α} (hf : ∀ a ∈ as, Takes n (f a)) :
    Takes (as.length * n) (as.mapM f) := by
  have h := mapM hf
  rwa [List.map_const', List.sum_replicate_nat] at h

end Takes

theorem takes_word64 : Takes (γ := γ) 1 Source.word64 := ⟨fun ws => ws.headD 0, fun _ => rfl⟩

theorem takes_unit : Takes (γ := γ) 1 unit := takes_word64.bind fun _ => .pure _

/-! ## Uniform values -/

/-- The ends of a bound are equal when they are no distance apart. -/
theorem beq_iff_not_lt (b : Bound) : (b.lower == b.upper) = true ↔ ¬ b.lower < b.upper := by
  obtain ⟨l, hl⟩ := Arithmetic.isFinite_iff_steps.mp b.lower_finite
  obtain ⟨u, hu⟩ := Arithmetic.isFinite_iff_steps.mp b.upper_finite
  have hle := (Arithmetic.le_iff_steps hl hu).mp b.ordered
  rw [Arithmetic.beq_iff_steps hl hu, Arithmetic.lt_iff_steps hl hu]
  omega

theorem takes_sample (b : Bound) :
    Takes (γ := γ) (if b.lower < b.upper then 1 else 0) b.sample := by
  unfold Bound.sample
  by_cases h : b.lower < b.upper
  · rw [if_pos h, if_neg (mt (beq_iff_not_lt b).mp (not_not.mpr h))]
    exact takes_unit.bind fun _ => .pure _
  · rw [if_neg h, if_pos ((beq_iff_not_lt b).mpr h)]
    exact .pure _

/-- How many bounds are no single points. -/
def extended (bounds : List Bound) : Nat := bounds.countP fun b => b.lower < b.upper

/-- **Uniform positions** take one word for each coordinate whose bound is no single point. -/
theorem takes_uniform (bounds : List Bound) (amount : Nat) :
    Takes (γ := γ) (amount * extended bounds) (Model.uniform bounds amount) := by
  have hsum : (bounds.map fun b => if b.lower < b.upper then 1 else 0).sum = extended bounds := by
    unfold extended
    induction bounds with
    | nil => rfl
    | cons b bounds ih =>
      rw [List.map_cons, List.sum_cons, ih, List.countP_cons, Nat.add_comm]
      by_cases h : b.lower < b.upper <;> simp [h]
  have hposition : Takes (γ := γ) (extended bounds) (bounds.mapM Bound.sample) :=
    hsum ▸ Takes.mapM fun b _ => takes_sample b
  have h : Takes (γ := γ) ((List.range amount).length * extended bounds)
      (Model.uniform bounds amount) := Takes.mapM_const fun _ _ => hposition
  rwa [List.length_range] at h

end Metaheuristics.Random
