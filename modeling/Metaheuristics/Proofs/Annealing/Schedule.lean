import Metaheuristics.Proofs.Annealing.Cooling
import Metaheuristics.Proofs.Annealing.Steps
import Metaheuristics.Proofs.Search.Translation
import Metaheuristics.Proofs.Settings.Checks

/-!
# Annealing on a fixed schedule

The look-ups of a schedule, however often and in whichever order they are made, are answered as if
each was the first one (`Cooling.Follows.answers_eq`).  A run of annealing therefore does not need
the schedule that it keeps: it is the run in which the iteration with the number `k` makes its
trials at the initial temperature, multiplied `k` times by the gradient, and there is no iteration
once this is not above the floor (`translates_scheduledRun`).  The temperature that the state of
annealing holds at a head is that of the iteration before (`at_of_reaches`).
-/

namespace Metaheuristics.Annealing

/-! ## Look-ups -/

namespace Cooling

open Arithmetic

/-- The answers of a schedule to some look-ups, one after the other. -/
def answers : Cooling → List Nat → List Float
  | _, [] => []
  | c, k :: ks => (c.temperature k).1 :: answers (c.temperature k).2 ks

/-- **No look-up has an influence on the answers to the others.** -/
theorem Follows.answers_eq {initial gradient : Float} {a b : Nat} (hi : HasUnits initial a)
    (hg : HasUnits gradient b) (hb : b < oneUnits) {c : Cooling} (h : c.Follows initial gradient)
    (ks : List Nat) : c.answers ks = ks.map (geometric initial gradient) := by
  induction ks generalizing c with
  | nil => rfl
  | cons k ks ih =>
    obtain ⟨htemperature, hfollows⟩ := h.temperature_eq hi hg hb k
    rw [answers, htemperature, ih hfollows, List.map_cons]

end Cooling

/-! ## Temperatures -/

namespace Settings

open Arithmetic Cooling

/-- **The temperature with the number `k`**: the initial one, multiplied `k` times by the
gradient. -/
def temperatureAt (s : Settings) (k : Nat) : Float :=
  geometric s.initialTemperature s.gradient k

variable {s : Settings}

theorem exists_hasUnits_of_check (h : s.check = .ok ()) :
    0.0 ≤ s.finalTemperature ∧
      (∃ a, 0 < a ∧ HasUnits s.initialTemperature a) ∧
      ∃ b, b < oneUnits ∧ HasUnits s.gradient b := by
  obtain ⟨hinitial, hfinal, -, hgradient, -⟩ := check_eq_ok.mp h
  simp only [Requirement.holds, Bool.and_eq_true, decide_eq_true_eq] at hinitial hfinal hgradient
  obtain ⟨b, -, hb⟩ := exists_hasUnits_of_le hgradient.1 (le_of_lt hgradient.2) hasUnits_one
  exact ⟨hfinal, exists_hasUnits hinitial.1 hinitial.2, b, (hb.lt_iff hasUnits_one).mp hgradient.2,
    hb⟩

theorem lt_temperatureAt_iff (h : s.check = .ok ()) {k : Nat} :
    s.finalTemperature < s.temperatureAt k ↔ ¬ s.temperatureAt k ≤ s.finalTemperature := by
  obtain ⟨hfinal, ⟨a, -, ha⟩, b, hb, hg⟩ := exists_hasUnits_of_check h
  obtain ⟨v, hv⟩ := exists_hasUnits_geometric ha hg hb k
  refine ⟨fun hlt hle => not_lt_of_le hle hlt, fun hle => ?_⟩
  exact lt_of_not_le (isNaN_of_le hfinal).2 (isNaN_of_steps hv.steps) hle

end Settings

section
variable {V : Type} {settings : Settings}

/-- The schedule of a state is right. -/
def State.Follows (settings : Settings) (s : State V) : Prop :=
  s.cooling.Follows settings.initialTemperature settings.gradient

theorem State.Follows.cool (hcheck : settings.check = .ok ()) {s : State V}
    (h : s.Follows settings) (k : Nat) :
    (Annealing.cool settings k s = none ↔ settings.temperatureAt k ≤ settings.finalTemperature) ∧
      ∀ s', Annealing.cool settings k s = some s' →
        s'.Follows settings ∧ s'.temperature = settings.temperatureAt k := by
  obtain ⟨-, ⟨a, -, ha⟩, b, hb, hg⟩ := Settings.exists_hasUnits_of_check hcheck
  obtain ⟨htemperature, hfollows⟩ := Cooling.Follows.temperature_eq ha hg hb h k
  unfold Annealing.cool
  dsimp only
  rw [htemperature, ← Settings.temperatureAt]
  by_cases hfloor : settings.temperatureAt k ≤ settings.finalTemperature
  · rw [if_pos hfloor]
    exact ⟨iff_of_true rfl hfloor, fun s' hs' => nomatch hs'⟩
  · rw [if_neg hfloor]
    refine ⟨iff_of_false (fun h => nomatch h) hfloor, fun s' hs' => ?_⟩
    obtain rfl := Option.some.inj hs'
    exact ⟨hfollows, rfl⟩

end

/-! ## Searches -/

variable {γ σ V : Type} [Random.Source γ]

section
variable (m : Model γ σ V) (settings : Settings)

/-- **Annealing without a memory of temperatures**: the number of the iteration is all there is. -/
def scheduled (host : Host σ) : Engine γ σ V (State V) (Batch V) :=
  { engine m settings host with
    enter := fun k s =>
      if settings.temperatureAt k ≤ settings.finalTemperature then none else some s
    explore := fun tracker s => trials m settings host.math
      (settings.temperatureAt tracker.iteration) settings.markovLength ⟨s.chain, #[], false⟩ }

/-- **A run on the fixed schedule.**  Its final temperature is that of the last iteration. -/
def scheduledRun (host : Host σ) (rounds : Nat) : Run γ σ (Option (Outcome V)) := do
  Run.require settings.check
  Run.require (settings.checkDimension m.dimension)
  let state ← start m settings host
  let result ← Search.run host m settings.criteria (scheduled m settings host) rounds state
  return result.map fun (reason, progress) =>
    { outcome reason progress with
      finalTemperature := settings.temperatureAt (progress.tracker.iteration - 1) }

end

/-- The state with the schedule and the temperature of the start. -/
def State.rewind (settings : Settings) (s : State V) : State V :=
  { s with
    cooling := .start settings.initialTemperature settings.gradient
    temperature := settings.initialTemperature }

/-- **The state holds the temperature with the number `k`.** -/
structure State.At (settings : Settings) (k : Nat) (s : State V) : Prop where
  follows : s.Follows settings
  temperature_eq : s.temperature = settings.temperatureAt k

section
variable {m : Model γ σ V} {settings : Settings} {host : Host σ} {w w' : World γ σ}

omit [Random.Source γ] in
/-- The chain starts at the initial temperature, with a schedule on which nothing has been looked
up. -/
theorem at_of_start {s : State V} (h : (start m settings host).exec w = (.ok s, w')) :
    s.At settings 0 ∧ s.rewind settings = s := by
  obtain ⟨candidates, v, -, hgather⟩ := Run.bind_eq_ok.mp h
  obtain ⟨leader, -, rfl, -⟩ := gather_eq_ok hgather
  exact ⟨⟨Cooling.follows_start _ _, rfl⟩, rfl⟩

theorem translates_scheduled (m : Model γ σ V) (hcheck : settings.check = .ok ())
    (host : Host σ) :
    Engine.TranslatesOn (fun k => State.At settings (k - 1)) (State.At settings) id id
      (State.rewind settings) id (engine m settings host) (scheduled m settings host) where
  enter k s hs := by
    have hcool := hs.follows.cool hcheck k
    show (if settings.temperatureAt k ≤ settings.finalTemperature then none
      else some (s.rewind settings)) = (cool settings k s).map (State.rewind settings)
    split_ifs with hfloor
    · rw [hcool.1.mpr hfloor]
      rfl
    · obtain ⟨s', hs'⟩ := Option.ne_none_iff_exists'.mp (mt hcool.1.mp hfloor)
      obtain ⟨hchain, helite⟩ := cool_eq_some hs'
      rw [hs', Option.map_some, State.rewind, State.rewind, hchain, helite]
  entered k s s' hs hs' := by
    obtain ⟨hfollows, htemperature⟩ := (hs.follows.cool hcheck k).2 s' hs'
    exact ⟨hfollows, htemperature⟩
  explore tracker s hs := by
    show Run.Translates id id (explore m settings host.math s) (trials m settings host.math
      (settings.temperatureAt tracker.iteration) settings.markovLength ⟨s.chain, #[], false⟩)
    rw [explore, hs.temperature_eq]
    exact Run.Translates.refl _
  absorb _ s b _ := by
    refine Run.Translates.bind_id (Run.Translates.refl _) fun ranked => ?_
    refine Run.Translates.bind_id (Run.Translates.refl _) fun elite => ?_
    exact Run.Translates.pure rfl
  absorbed k s b v s' better v' hs habsorb := by
    obtain ⟨-, rfl, -⟩ := absorb_eq_ok habsorb
    exact ⟨hs.follows, hs.temperature_eq⟩
  best _ := (Option.map_id_apply).symm

theorem at_of_reaches (hcheck : settings.check = .ok ()) {s : State V} (hs : s.At settings 0)
    {stop : Bool} {p : Progress V (State V)}
    (h : Search.Reaches host m settings.criteria (engine m settings host) (Search.begin s) w
      stop p w') : p.engine.At settings (p.tracker.iteration - 1) := by
  refine Search.invariant_reaches (translates_scheduled m hcheck host) ?_ h
  exact hs

theorem translates_search (m : Model γ σ V) (host : Host σ) (hcheck : settings.check = .ok ())
    (rounds : Nat) {s : State V} (hs : s.At settings 0) :
    Run.Translates id (Option.map (Prod.map id (Progress.map id (State.rewind settings))))
      (Search.run host m settings.criteria (engine m settings host) rounds s)
      (Search.run host m settings.criteria (scheduled m settings host) rounds
        (s.rewind settings)) :=
  Search.translates_run_on (Host.Translates.refl host) (Model.Translates.refl m)
    (translates_scheduled m hcheck host) rounds hs

end

/-! ## Runs -/

/-- **A run of annealing is the run on the fixed schedule.** -/
theorem translates_scheduledRun (m : Model γ σ V) (settings : Settings) (host : Host σ)
    (rounds : Nat) :
    Run.Translates id id (run m settings host rounds) (scheduledRun m settings host rounds) := by
  refine Run.Translates.bind_of_ok (Run.Translates.refl _) fun _ _ _ hrequire => ?_
  obtain ⟨hcheck, -⟩ := Run.require_eq_ok.mp hrequire
  refine Run.Translates.bind (Run.Translates.refl _) fun _ => ?_
  refine Run.Translates.bind_of_ok (Run.Translates.refl _) fun w s v hs => ?_
  obtain ⟨hat, hrewind⟩ := at_of_start hs
  have hsearch := translates_search m host hcheck rounds hat
  rw [hrewind] at hsearch
  refine Run.Translates.bind_of_ok hsearch fun v' result v'' hresult => ?_
  refine Run.Translates.pure ?_
  obtain _ | ⟨reason, p⟩ := result
  · rfl
  · obtain ⟨stop, hreaches⟩ := Search.reaches_of_run hresult
    have htemperature := (at_of_reaches hcheck hat hreaches).temperature_eq
    simp [outcome, Progress.map, State.rewind, htemperature]

end Metaheuristics.Annealing
