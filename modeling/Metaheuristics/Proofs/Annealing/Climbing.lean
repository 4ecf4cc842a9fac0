import Metaheuristics.Proofs.Annealing.Accounting
import Metaheuristics.Proofs.Random.Fractions
import Metaheuristics.Proofs.Settings.Checks

/-!
# Forward disturbances only move up

The offset of a forward disturbance is the width of a bound times a factor that is finite and not
negative.  It is never negative and always a number: where the width is finite, as a product of such
numbers, and where it overflows, since zero lies between the ends of the bound then
(`Bound.scaledRange_nonneg`).  So a disturbed coordinate is not below the one it was made from, and
clamping does not change that (`Climbs`).  The step of the chain stays finite and does not become
negative as it shrinks, so all trials of a run climb, and so do the points that the chain moves to
(`ascends_of_moment`).
-/

namespace Metaheuristics

open Arithmetic

/-! ## Offsets -/

section
variable {b : Bound} {x factor : Float}

theorem Bound.neg_infinity_lt (h : b.Holds x) : -infinity < x := by
  obtain ⟨l, hl⟩ := isFinite_iff_steps.mp b.lower_finite
  exact lt_of_lt_of_le (neg_infinity_lt_of_steps hl) h.lower_le

/-- A bound whose width overflows has zero between its ends. -/
theorem Bound.ends_of_overflow (h : ¬ b.range.isFinite = true) {l u : Int}
    (hl : steps b.lower = some l) (hu : steps b.upper = some u) : l ≤ 0 ∧ 0 ≤ u := by
  have hle : l ≤ u := (le_iff_steps hl hu).mp b.ordered
  -- ends on one side of zero are no further apart than the outer one is from zero
  constructor <;> by_contra hsign
  · exact h (isFinite_sub hu hl hle hu (by omega))
  · exact h (isFinite_sub hu hl hle (steps_neg hl) (by omega))

theorem Bound.scaledRange_nonneg (b : Bound) (hfactor : 0.0 ≤ factor)
    (hfinite : factor.isFinite = true) : 0.0 ≤ b.scaledRange factor := by
  obtain ⟨v, hv⟩ := exists_steps_of_nonneg hfactor hfinite
  obtain ⟨l, hl⟩ := isFinite_iff_steps.mp b.lower_finite
  obtain ⟨u, hu⟩ := isFinite_iff_steps.mp b.upper_finite
  unfold Bound.scaledRange
  split_ifs with hrange
  · obtain ⟨r, hr⟩ := exists_steps_of_nonneg (sub_nonneg hu hl b.ordered) hrange
    exact mul_nonneg hr hv (Int.natCast_nonneg (r * v))
  · -- each product may be infinite, but they have opposite signs, so the difference is a number
    obtain ⟨hlower, hupper⟩ := Bound.ends_of_overflow hrange hl hu
    refine sub_nonneg_of_signs (mul_nonneg hu hv ?_) (mul_nonpos hl hv ?_)
    · exact Int.mul_nonneg hupper (Int.natCast_nonneg v)
    · exact Int.mul_nonpos_of_nonpos_of_nonneg hlower (Int.natCast_nonneg v)

end

namespace Annealing

variable {γ σ V : Type} {I : σ → Prop} {settings : Settings} {bounds : List Bound}

/-! ## Disturbances -/

/-- **No coordinate is above** the same one of the other position. -/
def Below (x y : Position) : Prop := List.Forall₂ (fun a b : Float => a ≤ b) x y

theorem Below.refl {x : Position} (h : InBox bounds x) : Below x x := by
  induction h with
  | nil => exact .nil
  | cons hb _ ih => exact .cons (le_self hb.isNumber) ih

theorem Below.trans {x y z : Position} (hxy : Below x y) (hyz : Below y z) : Below x z := by
  unfold Below at hxy hyz ⊢
  induction hxy generalizing z with
  | nil => exact hyz
  | cons hab _ ih =>
    cases hyz with
    | cons hbc hrest => exact .cons (le_trans hab hbc) (ih hrest)

/-- **A position that climbs from another one** by coordinates at some indices only, within the box.
-/
structure Climbs (bounds : List Bound) (indices : List Nat) (x y : Position) : Prop where
  le : Below x y
  inBox : InBox bounds y
  others : ∀ i, i ∉ indices → y[i]? = x[i]?

/-- **A position that climbs by so many coordinates** at most. -/
def ClimbsBy (bounds : List Bound) (amount : Nat) (x y : Position) : Prop :=
  ∃ indices, indices.length ≤ amount ∧ Climbs bounds indices x y

theorem Climbs.refl {x : Position} (h : InBox bounds x) : Climbs bounds [] x x :=
  ⟨Below.refl h, h, fun _ _ => rfl⟩

theorem Climbs.trans {is js : List Nat} {x y z : Position} (hxy : Climbs bounds is x y)
    (hyz : Climbs bounds js y z) : Climbs bounds (is ++ js) x z where
  le := hxy.le.trans hyz.le
  inBox := hyz.inBox
  others i hi := by
    obtain ⟨hi, hj⟩ := not_or.mp (mt List.mem_append.mpr hi)
    exact (hyz.others i hj).trans (hxy.others i hi)

theorem Climbs.set {x : Position} (hx : InBox bounds x) {i : Nat} {b : Bound} {a v : Float}
    (hb : bounds[i]? = some b) (ha : x[i]? = some a) (hle : a ≤ v) (hv : b.Holds v) :
    Climbs bounds [i] x (x.set i v) where
  le := by
    induction hx generalizing i with
    | nil => cases hb
    | cons hxb hrest ih =>
      obtain _ | i := i
      · obtain rfl := Option.some.inj ha
        exact .cons hle (Below.refl hrest)
      · exact .cons (le_self hxb.isNumber) (ih hb ha)
  inBox := inBox_set hx hb hv
  others k hk := List.getElem?_set_ne (Ne.symm (mt List.mem_singleton.mpr hk))

variable [Random.Source γ]

section
variable (hforward : settings.disturbance = .forward) {step : Float} (hstep : 0.0 ≤ step)
  (hfinite : step.isFinite = true)
include hforward hstep hfinite

theorem ensures_disturb_climbs {x : Position} (hx : InBox bounds x) (i : Nat) :
    Run.Ensures (γ := γ) I (disturb settings bounds step x i) (Climbs bounds [i] x) := by
  unfold disturb
  rw [hforward]
  refine Run.Ensures.bind (P := fun r => 0.0 ≤ r ∧ r ≤ 1.0) (Run.Ensures.drawn Random.unit_mem)
    fun r hr => ?_
  refine Run.Ensures.expect fun y hy => ?_
  obtain ⟨b, hb, hy⟩ := Option.bind_eq_some_iff.mp hy
  obtain ⟨a, ha, hy⟩ := Option.bind_eq_some_iff.mp hy
  obtain rfl := Option.some.inj hy
  have hholds : b.Holds a := hx.holds hb ha
  obtain ⟨hfactor, hfactorFinite⟩ := isFinite_mul_of_mem hstep hfinite hr.1 hr.2
  have hoffset := b.scaledRange_nonneg hfactor hfactorFinite
  exact Climbs.set hx hb ha (Bound.le_clamp hholds (le_add (Bound.neg_infinity_lt hholds) hoffset))
    (b.clamp_holds _)

/-- **A disturbance climbs**, coordinate by coordinate. -/
theorem ensures_disturbs_climbs (indices : List Nat) {x : Position} (hx : InBox bounds x) :
    Run.Ensures (γ := γ) I (indices.foldlM (disturb settings bounds step) x)
      (Climbs bounds indices x) := by
  induction indices generalizing x with
  | nil => exact Run.Ensures.pure (Climbs.refl hx)
  | cons i indices ih =>
    rw [List.foldlM_cons]
    refine Run.Ensures.bind (ensures_disturb_climbs hforward hstep hfinite hx i) fun y hy => ?_
    exact Run.Ensures.mono (ih hy.inBox) fun z hz => hy.trans hz

theorem ensures_perturb_climbs {x : Position} (hx : InBox bounds x) :
    Run.Ensures (γ := γ) I (perturb settings bounds step x)
      (ClimbsBy bounds settings.disturbanceAmount x) := by
  refine Run.Ensures.ite (fun _ => Run.Ensures.violate _) fun _ => ?_
  refine Run.Ensures.bind (P := fun is : List Nat => is.length ≤ settings.disturbanceAmount)
    (Run.Ensures.drawn Random.sample_length) fun indices hlength => ?_
  exact Run.Ensures.mono (ensures_disturbs_climbs hforward hstep hfinite indices hx)
    fun y hy => ⟨indices, hlength, hy⟩

end

/-! ## Trials -/

omit [Random.Source γ]

theorem Settings.step_of_check (hcheck : settings.check = .ok ()) :
    (0.0 ≤ settings.step ∧ settings.step.isFinite = true) ∧
      0.0 ≤ settings.stepDecay ∧ settings.stepDecay ≤ 1.0 := by
  obtain ⟨-, -, -, -, -, hstep, hdecay, -⟩ := Settings.check_eq_ok.mp hcheck
  obtain ⟨hstep, hfinite⟩ := Bool.and_eq_true_iff.mp hstep
  obtain ⟨hdecay, hone⟩ := Bool.and_eq_true_iff.mp hdecay
  exact ⟨⟨le_of_lt (of_decide_eq_true hstep), hfinite⟩, le_of_lt (of_decide_eq_true hdecay),
    of_decide_eq_true hone⟩

section
variable {m : Model γ σ V} {a : Attempt V}

theorem Attempt.Regular.position (ha : a.Regular m settings) :
    a.after.current.position = a.position ∨
      a.after.current.position = a.before.current.position := by
  rw [ha.after]
  split_ifs
  · rw [Chain.accept_eq]
    exact Or.inl rfl
  · exact Or.inr rfl

theorem Attempt.Regular.step (ha : a.Regular m settings) :
    a.after.step = a.before.step * settings.stepDecay ∨ a.after.step = a.before.step := by
  rw [ha.after]
  split_ifs
  · rw [Chain.accept_eq]
    dsimp only
    split_ifs
    · exact Or.inl rfl
    · exact Or.inr rfl
  · exact Or.inr rfl

end

/-! ## Runs -/

/-- **The current points of a run** in their order, up to the one that the chain is at. -/
def currents (log : List (Attempt V)) (chain : Chain V) : List Position :=
  log.map (·.before.current.position) ++ [chain.current.position]

/-- **A chain that ascends**: all its trials climb, and so does its current point. -/
structure Ascends (m : Model γ σ V) (settings : Settings) (log : List (Attempt V))
    (chain : Chain V) : Prop where
  inBox : InBox m.bounds chain.current.position
  step : 0.0 ≤ chain.step ∧ chain.step.isFinite = true
  trials : ∀ a ∈ log,
    ClimbsBy m.bounds settings.disturbanceAmount a.before.current.position a.position
  points : (currents log chain).Pairwise Below

variable {m : Model γ σ V} {host : Host σ} {w : World γ σ}

theorem current_mem_of_start {s : State V} {v : World γ σ}
    (h : (start m settings host).exec w = (.ok s, v)) :
    s.chain.current.position ∈ (m.initial settings.initialAmount w).1 ∧
      s.chain.step = settings.step := by
  obtain ⟨cs, u, hcs, hgather⟩ := Run.bind_eq_ok.mp h
  obtain ⟨leader, hleader, rfl, -⟩ := gather_eq_ok hgather
  obtain ⟨xs, u', hxs, hsettle⟩ := Run.bind_eq_ok.mp hcs
  rw [(Model.startingPositions_eq_ok hxs).1]
  refine ⟨Model.position_mem_of_settle hsettle ?_, rfl⟩
  exact Ranking.mem_sort.mp (List.mem_of_head? hleader)

theorem pairwise_concat {x y : Position} {xs : List Position}
    (h : (xs ++ [x]).Pairwise Below) (hxy : Below x y) : (xs ++ [x] ++ [y]).Pairwise Below := by
  obtain ⟨-, -, hlast⟩ := List.pairwise_append.mp h
  refine List.pairwise_append.mpr ⟨h, List.pairwise_singleton _ y, fun z hz y' hy' => ?_⟩
  obtain rfl := List.mem_singleton.mp hy'
  rcases List.mem_append.mp hz with hz | hz
  · exact (hlast z hz x (List.mem_singleton_self x)).trans hxy
  · rwa [List.mem_singleton.mp hz]

/-- A trial that climbs keeps the chain ascending. -/
theorem Ascends.concat {log : List (Attempt V)} {a : Attempt V} (hcheck : settings.check = .ok ())
    (h : Ascends m settings log a.before) (ha : a.Regular m settings)
    (hclimbs : ClimbsBy m.bounds settings.disturbanceAmount a.before.current.position a.position) :
    Ascends m settings (log ++ [a]) a.after := by
  obtain ⟨indices, hlength, hclimb⟩ := hclimbs
  have hmoves : InBox m.bounds a.after.current.position ∧
      Below a.before.current.position a.after.current.position := by
    rcases ha.position with hposition | hposition <;> rw [hposition]
    · exact ⟨hclimb.inBox, hclimb.le⟩
    · exact ⟨h.inBox, Below.refl h.inBox⟩
  refine ⟨hmoves.1, ?_, ?_, ?_⟩
  · rcases ha.step with hstep | hstep <;> rw [hstep]
    · obtain ⟨-, hdecay, hone⟩ := settings.step_of_check hcheck
      exact isFinite_mul_of_mem h.step.1 h.step.2 hdecay hone
    · exact h.step
  · exact List.forall_mem_append.mpr
      ⟨h.trials, List.forall_mem_singleton.mpr ⟨indices, hlength, hclimb⟩⟩
  · rw [currents, List.map_append]
    exact pairwise_concat h.points hmoves.2

variable [Random.Source γ]

theorem Ascends.climbs {log : List (Attempt V)} {chain : Chain V} (h : Ascends m settings log chain)
    (hforward : settings.disturbance = .forward) {x : Position} {u u' : World γ σ}
    (hperturb : (perturb settings m.bounds chain.step chain.current.position).exec u
      = (.ok x, u')) : ClimbsBy m.bounds settings.disturbanceAmount chain.current.position x :=
  ((ensures_perturb_climbs (I := fun _ => True) hforward h.step.1 h.step.2 h.inBox).of_ok trivial
    hperturb).2

/-- **Every moment of a run with forward disturbances** has a chain that ascends. -/
theorem ascends_of_moment (hforward : settings.disturbance = .forward)
    (hinside : ∀ x ∈ (m.initial settings.initialAmount w).1, InBox m.bounds x)
    {log : List (Attempt V)} {iterations trials : Nat} {chain : Chain V} {v : World γ σ}
    (h : Moment m settings host w log iterations trials chain v) :
    Ascends m settings log chain := by
  -- the check is carried along for the decay of the step
  refine (h.invariant (I := fun log chain => settings.check = .ok () ∧ Ascends m settings log chain)
    (fun s v hcheck hs => ?_) ?_).2
  · obtain ⟨hmem, hstep⟩ := current_mem_of_start hs
    refine ⟨hcheck, hinside _ hmem, ?_, List.forall_mem_nil _, List.pairwise_singleton _ _⟩
    rw [hstep]
    exact (settings.step_of_check hcheck).1
  · rintro log temperature b u a b' u' - ⟨hcheck, hbefore⟩ hmakes
    have hclimbs : ClimbsBy m.bounds settings.disturbanceAmount b.chain.current.position
        a.position := by
      cases hmakes with
      | intro perturbs _ _ => exact hbefore.climbs hforward perturbs
    obtain ⟨hchain, hchain'⟩ := hmakes.chains
    rw [← hchain] at hbefore hclimbs
    rw [← hchain']
    exact ⟨hcheck, hbefore.concat hcheck hmakes.regular hclimbs⟩

/-- **A trial that comes next** climbs from the current point, whatever becomes of it. -/
theorem climbs_of_poised (hforward : settings.disturbance = .forward)
    (hinside : ∀ x ∈ (m.initial settings.initialAmount w).1, InBox m.bounds x)
    {temperature : Float} {b : Batch V} {u u' : World γ σ}
    (h : Poised m settings host w temperature b u) {x : Position}
    (hperturb : (perturb settings m.bounds b.chain.step b.chain.current.position).exec u
      = (.ok x, u')) :
    ClimbsBy m.bounds settings.disturbanceAmount b.chain.current.position x := by
  obtain ⟨-, -, log, iterations, trials, hmoment⟩ := h.moment
  exact (ascends_of_moment hforward hinside hmoment).climbs hforward hperturb

end Annealing

end Metaheuristics
