import Metaheuristics.Proofs.Annealing.Course
import Metaheuristics.Proofs.Annealing.Schedule

/-!
# The floor of annealing

The temperature of a run comes down to its floor exactly when there is no number above the floor,
and not above the initial temperature, that multiplication by the gradient rounds to itself
(`reaches_floor_iff`).  There is none where the floor is a number of full precision, or the gradient
at most one half (`not_restsAt`).  A floor of zero is reached with such a gradient only
(`reaches_zero_iff`).

Each head of a run looks up the temperature of its number, so a run without limits ends if the
temperature comes down to its floor, and otherwise yields nothing (`ends_of_floor`,
`outcome_of_floor`).  Whatever a run ends for, the last temperature it has used is above the floor
(`lt_finalTemperature_of_run`), and if it ends for the floor, then at the first temperature that is
not (`isLeast_of_run`).
-/

namespace Metaheuristics.Annealing

open Arithmetic Cooling

namespace Settings

/-- **A temperature above the floor that cooling does not leave.** -/
structure RestsAt (s : Settings) (x : Float) : Prop where
  above : s.finalTemperature < x
  below : x ≤ s.initialTemperature
  rests : x * s.gradient = x

variable {s : Settings} {x : Float}

theorem RestsAt.exists_hasUnits (h : s.check = .ok ()) (hx : s.RestsAt x) :
    ∃ c, HasUnits x c := by
  obtain ⟨hfinal, ⟨a, -, ha⟩, -⟩ := exists_hasUnits_of_check h
  obtain ⟨c, -, hc⟩ := exists_hasUnits_of_le (lt_of_le_of_lt hfinal hx.above) hx.below ha
  exact ⟨c, hc⟩

/-- **The temperature comes down to its floor** unless it comes to rest above. -/
theorem reaches_floor_iff (h : s.check = .ok ()) :
    (∃ k, s.temperatureAt k ≤ s.finalTemperature) ↔ ∀ x, ¬ s.RestsAt x := by
  obtain ⟨hfinal, ⟨a, -, ha⟩, b, hb, hg⟩ := exists_hasUnits_of_check h
  constructor
  · rintro ⟨k, hk⟩ x hx
    obtain ⟨c, hc⟩ := hx.exists_hasUnits h
    have hle := le_geometric_of_rest ha hg hb hc hx.rests hx.below k
    exact not_lt_of_le (le_trans hle hk) hx.above
  · intro hnever
    obtain ⟨k, hk⟩ := exists_rest ha hg hb
    by_contra hnone
    have habove : ¬ s.temperatureAt k ≤ s.finalTemperature := fun hle => hnone ⟨k, hle⟩
    refine hnever (s.temperatureAt k) ⟨(lt_temperatureAt_iff h).mpr habove, ?_, hk⟩
    have hle := geometric_antitone ha hg hb (Nat.zero_le k)
    rwa [geometric] at hle

/-- Cooling does not come to rest above a floor of full precision, nor with a gradient of at
most one half. -/
theorem not_restsAt (h : s.check = .ok ())
    (hfloor : leastNormal ≤ s.finalTemperature ∨ s.gradient ≤ 0.5) (x : Float) : ¬ s.RestsAt x := by
  intro hx
  obtain ⟨hfinal, -, b, hb, hg⟩ := exists_hasUnits_of_check h
  obtain ⟨c, hc⟩ := hx.exists_hasUnits h
  have hlt : x * s.gradient < x := by
    refine hc.mul_lt hg hb ?_
    rcases hfloor with hnormal | hhalf
    · exact Or.inl (lt_of_le_of_lt hnormal hx.above)
    · exact Or.inr ⟨lt_of_le_of_lt hfinal hx.above, hhalf⟩
  rw [hx.rests] at hlt
  exact lt_asymm hlt hlt

theorem reaches_zero_iff (h : s.check = .ok ()) (hzero : s.finalTemperature ≤ 0.0) :
    (∃ k, s.temperatureAt k ≤ s.finalTemperature) ↔ s.gradient ≤ 0.5 := by
  obtain ⟨-, ⟨a, hpos, ha⟩, b, hb, hg⟩ := exists_hasUnits_of_check h
  rw [reaches_floor_iff h]
  constructor
  · intro hnever
    refine Classical.byContradiction fun hhalf => hnever leastPositive ⟨?_, ?_, ?_⟩
    · exact lt_of_le_of_lt hzero ((hasUnits_zero.lt_iff hasUnits_leastPositive).mpr (by decide))
    · exact (hasUnits_leastPositive.le_iff ha).mpr hpos
    · exact leastPositive_mul hg hb hhalf
  · exact fun hhalf => not_restsAt h (Or.inr hhalf)

end Settings

/-! ## Runs -/

section
variable {γ σ V : Type} [Random.Source γ] {m : Model γ σ V} {settings : Settings} {host : Host σ}
  {w w' : World γ σ}

theorem ends_of_floor {k rounds : Nat} (hk : settings.temperatureAt k ≤ settings.finalTemperature)
    (hrounds : k < rounds) : (run m settings host rounds).exec w ≠ (.ok none, w') := by
  refine run_ne_none_of_bound (fun s v hs hcheck q u s' hq hverdict => ?_) hrounds
  obtain ⟨-, ⟨a, -, ha⟩, b, hb, hg⟩ := Settings.exists_hasUnits_of_check hcheck
  have hfollows := (at_of_reaches hcheck (at_of_start hs).1 hq).follows
  by_contra hlate
  have hbelow : settings.temperatureAt q.tracker.iteration ≤ settings.finalTemperature :=
    le_trans (geometric_antitone ha hg hb (Nat.le_of_not_lt hlate)) hk
  have hnone := (hfollows.cool hcheck _).1.mpr hbelow
  have hsome : cool settings q.tracker.iteration q.engine = some s' :=
    Search.enter_of_verdict hverdict
  rw [hnone] at hsome
  cases hsome

theorem outcome_of_floor (hcriteria : settings.criteria = .unlimited)
    (hcancelled : ∀ state, host.cancelled state = false)
    (hobserve : ∀ t fitness state, (m.observe t fitness state).1 = false) {rounds : Nat}
    {o : Outcome V} (h : (run m settings host rounds).exec w = (.ok (some o), w')) :
    o.reason = .temperatureFloor ∧
      settings.temperatureAt o.iterations ≤ settings.finalTemperature := by
  obtain ⟨legs, p, ⟨hcheck, -, s, v₀, hs, hends⟩, ho⟩ := ends_of_run h
  obtain ⟨stop, hcourse⟩ := hends.course
  obtain ⟨hreason, hthrough⟩ := hends.through hcriteria hcancelled hobserve
  refine ⟨hreason, ?_⟩
  have hfollows := (at_of_reaches hcheck (at_of_start hs).1 hcourse.reaches).follows
  rw [ho]
  exact (hfollows.cool hcheck _).1.mp hthrough

theorem lt_temperatureAt_of_reaches (hcheck : settings.check = .ok ()) {s : State V}
    (hs : s.At settings 0) {stop : Bool} {p : Progress V (State V)}
    (h : Search.Reaches host m settings.criteria (engine m settings host) (Search.begin s) w
      stop p w') : settings.finalTemperature < settings.temperatureAt (p.tracker.iteration - 1) := by
  rw [Settings.lt_temperatureAt_iff hcheck]
  cases h with
  | start => exact (Settings.check_eq_ok.mp hcheck).2.2.1
  | @step q _ _ _ _ _ head enters iterates =>
    have hcool := (at_of_reaches hcheck hs head).follows.cool hcheck q.tracker.iteration
    have hentered : cool settings q.tracker.iteration q.engine = some _ :=
      Search.enter_of_verdict enters
    obtain ⟨b, u, s', better, u', -, -, rfl, -⟩ := Search.iterate_eq_ok iterates
    intro hfloor
    rw [hcool.1.mpr hfloor] at hentered
    cases hentered

section
variable {rounds : Nat} {o : Outcome V}
  (h : (run m settings host rounds).exec w = (.ok (some o), w'))
include h

theorem lt_finalTemperature_of_run :
    o.finalTemperature = settings.temperatureAt (o.iterations - 1) ∧
      settings.finalTemperature < o.finalTemperature := by
  obtain ⟨legs, p, ⟨hcheck, -, s, v₀, hs, hends⟩, ho⟩ := ends_of_run h
  obtain ⟨stop, hcourse⟩ := hends.course
  have hat := (at_of_start hs).1
  have htemperature := (at_of_reaches hcheck hat hcourse.reaches).temperature_eq
  have habove := lt_temperatureAt_of_reaches hcheck hat hcourse.reaches
  rw [← htemperature] at habove
  rw [ho]
  exact ⟨htemperature, habove⟩

/-- **A run that ends at the floor** has made one iteration for each temperature above. -/
theorem isLeast_of_run (hreason : o.reason = .temperatureFloor) :
    IsLeast {k | settings.temperatureAt k ≤ settings.finalTemperature} o.iterations := by
  have habove := lt_finalTemperature_of_run h
  obtain ⟨legs, p, ⟨hcheck, -, s, v₀, hs, hends⟩, ho⟩ := ends_of_run h
  obtain ⟨-, ⟨a, -, ha⟩, b, hb, hg⟩ := Settings.exists_hasUnits_of_check hcheck
  rw [hreason] at hends
  obtain ⟨stop, hcourse⟩ := hends.course
  have hfollows := (at_of_reaches hcheck (at_of_start hs).1 hcourse.reaches).follows
  have hiterations : o.iterations = p.tracker.iteration := by rw [ho]; rfl
  refine ⟨?_, fun k hk => ?_⟩
  · rw [hiterations]
    exact (hfollows.cool hcheck _).1.mp hends.temperatureFloor
  · by_contra hlt
    have hle := geometric_antitone ha hg hb (by omega : k ≤ o.iterations - 1)
    rw [habove.1] at habove
    exact not_lt_of_le (le_trans hle hk) habove.2

end

end

end Metaheuristics.Annealing
