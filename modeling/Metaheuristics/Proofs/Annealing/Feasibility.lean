import Metaheuristics.Proofs.Annealing.Attempts
import Metaheuristics.Proofs.Fitness.Isolation
import Metaheuristics.Proofs.Random.Fractions

/-!
# No move to a point that could not be evaluated

Annealing has no test for feasibility.  A point that could not be evaluated has the worst fitness,
and that it is not accepted is due to this fitness being isolated: it does not improve on any other
one, and its distance lies beyond every number, so the exponential of the test for acceptance is
zero or no number and no draw is below it (`tolerates_eq_false`).  The temperature is above the
floor then, so it is not zero or below.  The argument needs the current point to have the fitness of
a number, or the worst one, which every trial keeps (`rejected_of_moment`).
-/

namespace Metaheuristics.Annealing

open Arithmetic

variable {γ σ V : Type} [Random.Source γ]

/-! ## The test for acceptance -/

/-- **What the exponential is assumed to do** at negative infinity and at what is not a number. -/
structure Vanishes (math : Elementary) : Prop where
  exp_neg_infinity : math.exp (-infinity) = 0.0
  isNaN_exp : ∀ x : Float, x.isNaN = true → (math.exp x).isNaN = true

section
variable {P : V → Prop} {order : FitnessOrder V} {m : Model γ σ V} {settings : Settings}
  {math : Elementary} {temperature : Float} {w w' : World γ σ}

theorem tolerates_eq_false (hmath : Vanishes math) (ht : ¬ temperature ≤ 0.0) {current trial : V}
    (hfar : Beyond (m.distance current trial)) {accepted : Bool}
    (h : (tolerates m math temperature current trial).exec w = (.ok accepted, w')) :
    accepted = false := by
  obtain ⟨r, v, hdraw, h⟩ := Run.bind_eq_ok.mp h
  obtain ⟨rfl, -⟩ := Run.pure_eq_ok.mp h
  refine decide_eq_false fun hlt => ?_
  rcases hfar.neg_div ht with hexp | hexp
  · rw [hexp, hmath.exp_neg_infinity, ← Except.ok.inj (Prod.mk.inj hdraw).1] at hlt
    exact not_lt_of_le (Random.unit_mem w.random).1 hlt
  · have hnumber := (isNaN_of_le (le_of_lt hlt)).2
    rw [hmath.isNaN_exp _ hexp] at hnumber
    cases hnumber

variable (hmath : Vanishes math) (hobeys : m.Obeys order) (hisolated : order.Isolated P)
include hmath hobeys hisolated

theorem accepts_worst_eq_false (ht : ¬ temperature ≤ 0.0) {current : V} (hcurrent : P current)
    {accepted : Bool}
    (h : (accepts m math temperature (m.isBetter (some m.worst) (some current)) current
      m.worst).exec w = (.ok accepted, w')) : accepted = false := by
  have hbetter : m.isBetter (some m.worst) (some current) = false := by
    rw [Model.isBetter, hobeys.compare, hobeys.worst]
    exact beq_eq_false_iff_ne.mpr (hisolated.not_better current hcurrent)
  rw [hbetter] at h
  refine tolerates_eq_false hmath ht ?_ h
  rw [hobeys.distance, hobeys.worst]
  exact hisolated.far current hcurrent

/-! ## Trials -/

/-- A point that could not be evaluated is not accepted. -/
theorem Makes.rejected {b b' : Batch V} {a : Attempt V} (ht : ¬ temperature ≤ 0.0)
    (hcurrent : P b.chain.current.fitness)
    (h : Makes m settings math temperature b w a b' w') (habsent : a.fitness = none) :
    a.accepted = false := by
  cases h with
  | @intro x v fitness v' accepted w' _ _ decides =>
    obtain rfl : fitness = none := habsent
    exact accepts_worst_eq_false hmath hobeys hisolated ht hcurrent decides

end

/-! ## Runs -/

theorem Settings.not_le_zero {settings : Settings} (hcheck : settings.check = .ok ())
    {temperature : Float} (h : ¬ temperature ≤ settings.finalTemperature) :
    ¬ temperature ≤ 0.0 := by
  obtain ⟨-, hfloor, -⟩ := Settings.check_eq_ok.mp hcheck
  intro hle
  exact h (le_trans hle (by simpa [Requirement.holds] using hfloor))

section
variable {P : V → Prop} {order : FitnessOrder V} {m : Model γ σ V} {settings : Settings}
  {host : Host σ} {w : World γ σ} {v : World γ (σ × List (Call V))} {log : List (Attempt V)}
  (hobeys : m.Obeys order) (hisolated : order.Isolated P)
include hobeys hisolated

omit [Random.Source γ] in
theorem current_of_start {s : State V}
    (h : (start m.watched settings host.watched).exec w.watched = (.ok s, v))
    (hanswered : Answered P v.state.2) : P s.chain.current.fitness := by
  obtain ⟨cs, u, hcs, hgather⟩ := Run.bind_eq_ok.mp h
  obtain ⟨leader, hleader, rfl, rfl⟩ := gather_eq_ok hgather
  obtain ⟨positions, u', -, hsettle⟩ := Run.bind_eq_ok.mp hcs
  obtain ⟨cs', hcs', rfl⟩ := Model.settle_eq_ok hsettle
  obtain ⟨c, hc, rfl⟩ := List.mem_map.mp (Ranking.mem_sort.mp (List.mem_of_head? hleader))
  refine hobeys.present hisolated (answered_iff.mp hanswered c ?_)
  rw [Model.evaluateAll_eq_ok_evaluated hcs']
  exact List.mem_append_right _ hc

variable (hmath : Vanishes host.math)
include hmath

/-- **No point that could not be evaluated is accepted**, at any moment of a run up to which the
objective has answered with values with the property, and so the current point keeps it. -/
theorem rejected_of_moment {iterations trials : Nat} {chain : Chain V}
    (h : Moment m.watched settings host.watched w.watched log iterations trials chain v)
    (hanswered : Answered P v.state.2) :
    P chain.current.fitness ∧ ∀ a ∈ log, a.fitness = none → a.accepted = false := by
  obtain ⟨s₀, v₀, hs₀, hevaluated⟩ := h.evaluated
  rw [answered_iff, hevaluated] at hanswered
  -- the property passes from the evaluated candidates to the log as far as it goes
  let I (log : List (Attempt V)) (chain : Chain V) : Prop :=
    settings.check = .ok () ∧ ((∀ a ∈ log, ∀ value ∈ a.fitness, P value) →
      P chain.current.fitness ∧ ∀ a ∈ log, a.fitness = none → a.accepted = false)
  refine (h.invariant (I := I) ?_ ?_).2 fun a ha =>
    hanswered a.candidate (List.mem_append_right _ (List.mem_map_of_mem ha))
  · intro s u hcheck hs
    obtain ⟨hok, rfl⟩ := Prod.mk.inj (hs₀.symm.trans hs)
    obtain rfl := Except.ok.inj hok
    refine ⟨hcheck, fun _ => ⟨current_of_start hobeys hisolated hs ?_, List.forall_mem_nil _⟩⟩
    exact answered_iff.mpr fun c hc => hanswered c (List.mem_append_left _ hc)
  · rintro log temperature b u a b' u' htemperature ⟨hcheck, hbefore⟩ hmakes
    refine ⟨hcheck, fun hlog => ?_⟩
    obtain ⟨hearlier, hlast⟩ := List.forall_mem_append.mp hlog
    obtain ⟨hcurrent, hrejected⟩ := hbefore hearlier
    have hfitness : ∀ value ∈ a.fitness, P value := hlast a (List.mem_singleton_self a)
    refine ⟨?_, List.forall_mem_append.mpr ⟨hrejected, List.forall_mem_singleton.mpr ?_⟩⟩
    · rcases haccepted : a.accepted with _ | _
      · rwa [hmakes.batch, haccepted]
      · rw [hmakes.current haccepted]
        exact hobeys.present hisolated hfitness
    · exact hmakes.rejected hmath hobeys.watched hisolated
        (settings.not_le_zero hcheck htemperature) hcurrent

theorem rejected_of_poised {temperature : Float} {b b' : Batch V} {a : Attempt V}
    {v' : World γ (σ × List (Call V))}
    (h : Poised m.watched settings host.watched w.watched temperature b v)
    (hanswered : Answered P v.state.2)
    (hmakes : Makes m.watched settings host.math temperature b v a b' v')
    (habsent : a.fitness = none) : a.accepted = false := by
  obtain ⟨hcheck, htemperature, log, iterations, trials, hmoment⟩ := h.moment
  obtain ⟨hcurrent, -⟩ := rejected_of_moment hobeys hisolated hmath hmoment hanswered
  exact hmakes.rejected hmath hobeys.watched hisolated
    (settings.not_le_zero hcheck htemperature) hcurrent habsent

end

end Metaheuristics.Annealing
