/-!
# Cooling

Geometric cooling: each temperature is the one before it times the gradient.  The temperatures
computed so far are kept, so a look-up costs one multiplication for each one that is missing.  Once
a temperature is zero, all later ones are, and a look-up ends there.  A look-up carries the proof
that what it reads has been computed by then.
-/

namespace Metaheuristics.Annealing

/-- **A cooling schedule** and the temperatures it has computed. -/
structure Cooling where
  gradient : Float
  initial : Float
  /-- The temperatures after the initial one, as far as they are known. -/
  later : Array Float
deriving Repr, DecidableEq

namespace Cooling

/-- The schedule that starts at `initial`. -/
def start (initial gradient : Float) : Cooling := ⟨gradient, initial, #[]⟩

/-- The last temperature that is known. -/
def last (c : Cooling) : Float := c.later.back?.getD c.initial

/-- The temperature with the number `k`, which must be a known one. -/
def known (c : Cooling) : (k : Nat) → k ≤ c.later.size → Float
  | 0, _ => c.initial
  | k + 1, h => c.later[k]

/-- The schedule with one more temperature. -/
def grow (c : Cooling) : Cooling := { c with later := c.later.push (c.last * c.gradient) }

theorem size_grow (c : Cooling) : c.grow.later.size = c.later.size + 1 := Array.size_push _

/-- The temperature with the number `k` when `missing` ones are not known yet, and the schedule with
what has been computed on the way. -/
def extend (k : Nat) : (missing : Nat) → (c : Cooling) → k ≤ c.later.size + missing →
    Float × Cooling
  | 0, c, h => (c.known k h, c)
  | missing + 1, c, h =>
    if c.grow.last == 0.0 then (c.grow.last, c.grow)
    else extend k missing c.grow (by rw [size_grow]; omega)

/-- **The temperature with the number `k`.** -/
def temperature (c : Cooling) (k : Nat) : Float × Cooling :=
  extend k (k - c.later.size) c (by omega)

end Cooling

end Metaheuristics.Annealing
