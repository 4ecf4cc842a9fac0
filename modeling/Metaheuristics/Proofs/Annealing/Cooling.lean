import Metaheuristics.Annealing.Run
import Metaheuristics.Proofs.Arithmetic.Products

/-!
# The cooling schedule

The temperatures of a schedule are the initial one, multiplied by the gradient time after time
(`Cooling.geometric`), and that is what every look-up answers, whatever has been looked up before
(`Cooling.temperature_eq`).

The temperatures never rise (`geometric_antitone`), so from some number on they stay the same
(`exists_rest`).  They come to rest where the multiplication by the gradient rounds to the same
number again, and such a number is never passed (`le_geometric_of_rest`).
-/

namespace Metaheuristics.Annealing.Cooling

open Arithmetic

/-- **The initial temperature, multiplied `k` times by the gradient.** -/
def geometric (initial gradient : Float) : (k : Nat) → Float
  | 0 => initial
  | k + 1 => geometric initial gradient k * gradient

variable {initial gradient x : Float} {a b c j k : Nat}

/-! ## Temperatures -/

section
variable (hi : HasUnits initial a) (hg : HasUnits gradient b) (hb : b < oneUnits)
include hi hg hb

theorem exists_hasUnits_geometric (k : Nat) : ∃ v, HasUnits (geometric initial gradient k) v := by
  induction k with
  | zero => exact ⟨a, hi⟩
  | succ k ih =>
    obtain ⟨v, hv⟩ := ih
    exact ⟨_, hv.mul hg (Nat.le_of_lt hb)⟩

theorem geometric_succ_le (k : Nat) :
    geometric initial gradient (k + 1) ≤ geometric initial gradient k := by
  obtain ⟨v, hv⟩ := exists_hasUnits_geometric hi hg hb k
  have hnext := hv.mul hg (Nat.le_of_lt hb)
  exact (hnext.le_iff hv).mpr (roundUnits_mul_le hv (Nat.le_of_lt hb))

theorem geometric_antitone (h : j ≤ k) :
    geometric initial gradient k ≤ geometric initial gradient j := by
  induction k, h using Nat.le_induction with
  | base =>
    obtain ⟨v, hv⟩ := exists_hasUnits_geometric hi hg hb j
    exact (hv.le_iff hv).mpr (le_refl v)
  | succ k _ ih => exact le_trans (geometric_succ_le hi hg hb k) ih

/-- **The temperatures come to rest.** -/
theorem exists_rest :
    ∃ k, geometric initial gradient (k + 1) = geometric initial gradient k := by
  choose v hv using exists_hasUnits_geometric hi hg hb
  by_contra hnever
  -- otherwise each temperature takes away one unit of the initial one at least
  have hdrop (k : Nat) : v k + k ≤ v 0 := by
    induction k with
    | zero => exact le_refl _
    | succ k ih =>
      have hle := ((hv (k + 1)).le_iff (hv k)).mp (geometric_succ_le hi hg hb k)
      have hne : v (k + 1) ≠ v k := fun heq => hnever ⟨k, (heq ▸ hv (k + 1)).eq (hv k)⟩
      omega
  have := hdrop (v 0 + 1)
  omega

/-- A number that the gradient leaves as it is is not passed. -/
theorem le_geometric_of_rest (hx : HasUnits x c) (hrest : x * gradient = x) (hle : x ≤ initial)
    (k : Nat) : x ≤ geometric initial gradient k := by
  induction k with
  | zero => exact hle
  | succ k ih =>
    obtain ⟨v, hv⟩ := exists_hasUnits_geometric hi hg hb k
    have hnext := hx.mul hg (Nat.le_of_lt hb)
    rw [← hrest]
    refine (hnext.le_iff (hv.mul hg (Nat.le_of_lt hb))).mpr (roundUnits_mono ?_)
    exact Nat.mul_le_mul_right b ((hx.le_iff hv).mp ih)

omit hi in
theorem geometric_eq_of_zero (hzero : HasUnits (geometric initial gradient j) 0) (h : j ≤ k) :
    geometric initial gradient k = geometric initial gradient j := by
  induction k, h using Nat.le_induction with
  | base => rfl
  | succ k _ ih =>
    have hnext := hzero.mul hg (Nat.le_of_lt hb)
    rw [Nat.zero_mul, roundUnits_zero] at hnext
    rw [geometric, ih]
    exact hnext.eq hzero

end

/-! ## Look-ups -/

/-- **A schedule that keeps the right temperatures.** -/
structure Follows (initial gradient : Float) (c : Cooling) : Prop where
  gradient_eq : c.gradient = gradient
  initial_eq : c.initial = initial
  later : ∀ i x, c.later[i]? = some x → x = geometric initial gradient (i + 1)

theorem follows_start (initial gradient : Float) :
    (start initial gradient).Follows initial gradient :=
  ⟨rfl, rfl, fun i x hx => by simp [start] at hx⟩

variable {s : Cooling}

theorem Follows.last_eq (h : s.Follows initial gradient) :
    s.last = geometric initial gradient s.later.size := by
  unfold last
  rw [Array.back?_eq_getElem?]
  rcases Nat.eq_zero_or_pos s.later.size with hsize | hsize
  · rw [hsize, Array.getElem?_eq_none (by omega), h.initial_eq]
    rfl
  · have hlast : s.later[s.later.size - 1]? = some s.later[s.later.size - 1] :=
      Array.getElem?_eq_getElem (by omega)
    have heq := h.later _ _ hlast
    rw [Nat.sub_add_cancel hsize] at heq
    rw [hlast, heq]
    rfl

theorem Follows.known_eq (h : s.Follows initial gradient) (hk : k ≤ s.later.size) :
    s.known k hk = geometric initial gradient k := by
  cases k with
  | zero => exact h.initial_eq
  | succ k => exact h.later k _ (Array.getElem?_eq_getElem hk)

theorem Follows.grow (h : s.Follows initial gradient) : s.grow.Follows initial gradient := by
  refine ⟨h.gradient_eq, h.initial_eq, fun i x hx => ?_⟩
  unfold Cooling.grow at hx
  rw [Array.getElem?_push] at hx
  split_ifs at hx with hi
  · rw [← Option.some.inj hx, h.last_eq, h.gradient_eq, hi]
    rfl
  · exact h.later i x hx

section
variable (hi : HasUnits initial a) (hg : HasUnits gradient b) (hb : b < oneUnits)
include hi hg hb

theorem Follows.extend {missing : Nat} (h : s.Follows initial gradient)
    (hle : k ≤ s.later.size + missing) (hmissing : missing = k - s.later.size) :
    (Cooling.extend k missing s hle).1 = geometric initial gradient k ∧
      (Cooling.extend k missing s hle).2.Follows initial gradient := by
  induction missing generalizing s with
  | zero => exact ⟨h.known_eq hle, h⟩
  | succ missing ih =>
    have hnext := h.grow.last_eq
    rw [size_grow] at hnext
    rw [Cooling.extend]
    split_ifs with hzero
    · -- the schedule ends at zero, where all later temperatures are zero
      obtain ⟨v, hv⟩ := exists_hasUnits_geometric hi hg hb (s.later.size + 1)
      rw [hnext] at hzero
      obtain rfl := hv.eq_zero hzero
      exact ⟨hnext.trans (geometric_eq_of_zero hg hb hv (by omega)).symm, h.grow⟩
    · refine ih h.grow _ ?_
      rw [size_grow]
      omega

/-- **Every look-up answers the temperature of its number**, and keeps the schedule right. -/
theorem Follows.temperature_eq (h : s.Follows initial gradient) (k : Nat) :
    (s.temperature k).1 = geometric initial gradient k ∧
      (s.temperature k).2.Follows initial gradient :=
  h.extend hi hg hb (by omega) rfl

end

end Metaheuristics.Annealing.Cooling
