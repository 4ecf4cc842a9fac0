import Metaheuristics.Proofs.Annealing.Feasibility
import Metaheuristics.Proofs.Outcomes.TopOfRun

/-!
# Annealing does not move to where there is no fitness

A point that could not be evaluated has the worst fitness, and the test for acceptance knows of
fitness only.  As long as the objective answers with numbers, no such point is accepted all the
same, from wherever the chain is: every accepted point, and every solution that is no starting
candidate, has a fitness that the objective has given (`annealing_stays_feasible`).
-/

namespace Metaheuristics

variable {γ σ V : Type} [Random.Source γ]

namespace Annealing

/-- **Annealing stays where there is a fitness**, as long as the objective answers with values with
the property `P`. -/
structure StaysFeasible (P : V → Prop) (m : Model γ σ V) (settings : Settings) (host : Host σ)
    (w : World γ σ) : Prop where
  /-- A trial of a point that could not be evaluated leaves everything as it is, and one that is
  accepted has been given its fitness by the objective. -/
  trial : ∀ temperature b u b' u',
    Poised m.watched settings host.watched w.watched temperature b u → Answered P u.state.2 →
    (Annealing.trial m.watched settings host.math temperature b).exec u = (.ok b', u') →
    ∃ a, Makes m.watched settings host.math temperature b u a b' u' ∧
      (a.fitness = none → a.accepted = false ∧ b' = b) ∧
      (a.accepted = true → ∃ value, a.fitness = some value ∧
        b'.chain.current = ⟨a.position, value⟩ ∧
        Call.objective a.position (.ok (some value)) ∈ u'.state.2)
  /-- A solution is a starting candidate, or the objective has given its fitness. -/
  solutions : ∀ rounds o w', (run m settings host rounds).exec w = (.ok (some o), w') →
    Answered P ((run m.watched settings host.watched rounds).calls w) →
    ∃ cs v₀, (populate m settings).exec w = (.ok cs, v₀) ∧
      ∀ c ∈ o.solutions, c ∈ cs ∨ ∃ value, c.fitness = some value ∧
        Call.objective c.position (.ok (some value)) ∈
          (run m.watched settings host.watched rounds).calls w

section
variable {P : V → Prop} {order : FitnessOrder V} {m : Model γ σ V} {settings : Settings}
  {host : Host σ} {w : World γ σ} (hobeys : m.Obeys order) (hisolated : order.Isolated P)
  (hmath : Vanishes host.math)
include hobeys hisolated hmath

/-- **An order that isolates its worst value** keeps annealing there. -/
theorem staysFeasible : StaysFeasible P m settings host w where
  trial temperature b u b' u' hpoised hanswered h := by
    obtain ⟨a, ha⟩ := makes_of_trial h
    have hrejected (habsent : a.fitness = none) : a.accepted = false :=
      rejected_of_poised hobeys hisolated hmath hpoised hanswered ha habsent
    refine ⟨a, ha, fun habsent => ⟨hrejected habsent, ?_⟩, fun haccepted => ?_⟩
    · rw [ha.batch, hrejected habsent]
      rfl
    · obtain ⟨value, hvalue⟩ := Attempt.exists_value hrejected haccepted
      refine ⟨value, hvalue, ?_, ha.objective_mem hvalue⟩
      rw [ha.current haccepted, Attempt.point_eq hvalue]
  solutions rounds o w' h hanswered := by
    obtain ⟨v, hrun, hcalls⟩ := Run.watched_eq_ok (translates_run settings m.watched_translates
      host.watched_translates rounds) Outcome.map_id h
    obtain ⟨stop, reason, p, hp, rfl⟩ := visits_of_run hrun
    rw [hcalls] at hanswered ⊢
    obtain ⟨log, hlog⟩ := hp.logged
    obtain ⟨cs, v₀, hcs, helite⟩ := hlog.elite
    obtain ⟨-, hrejected⟩ :=
      rejected_of_moment hobeys hisolated hmath (.position hlog) hanswered
    have hplain := translates_populate settings m.watched_translates w.watched
    rw [hcs] at hplain
    refine ⟨_, _, hplain, fun c hc => ?_⟩
    rw [List.map_congr_left fun c _ => c.map_id, List.map_id']
    refine (List.mem_append.mp (helite hc)).imp_right fun hc => ?_
    obtain ⟨a, ha, rfl⟩ := List.mem_map.mp hc
    obtain ⟨halog, haccepted⟩ := List.mem_filter.mp ha
    obtain ⟨value, hvalue⟩ := Attempt.exists_value (hrejected a halog) haccepted
    refine ⟨value, ?_, (Moment.position hlog).objective_mem halog hvalue⟩
    rw [Attempt.point_eq hvalue]
    rfl

end

end Annealing

/-- **Annealing stays feasible** on scalars that are numbers and on vectors of numbers with at least
one component, at every setting.  The exponential is assumed to be zero at negative infinity and no
number at what is no number. -/
theorem annealing_stays_feasible (host : Host σ) (hmath : Annealing.Vanishes host.math) :
    (∀ (direction : Direction) (m : Model γ σ Float), m.Obeys direction.order →
      ∀ settings w, Annealing.StaysFeasible (·.isNaN = false) m settings host w) ∧
    ∀ (ranking : Lexicographic) (m : Model γ σ (List Float)), 1 ≤ ranking.objectives →
      m.Obeys ranking.order → ∀ settings w, Annealing.StaysFeasible
        (fun value => value.length = ranking.objectives ∧ ∀ x ∈ value, x.isNaN = false)
        m settings host w :=
  ⟨fun direction _ hobeys _ _ => Annealing.staysFeasible hobeys direction.isolated hmath,
    fun ranking _ hpos hobeys _ _ => Annealing.staysFeasible hobeys (ranking.isolated hpos) hmath⟩

namespace Interval

/-- The left three quarters of the unit interval. -/
def left : Constraint Unit := ⟨"left", fun x => pure (x.head?.map fun a => a ≤ 0.75)⟩

/-- The distance from the right end, which cannot be evaluated everywhere. -/
def slope : Model Random.SplitMix Unit Float :=
  ((Problem.ofObjective Direction.minimize.order [bound] fun x =>
    pure (.ok (x.head?.map fun a => 1.0 - a))).withConstraint left).toModel

/-- The distances from both ends. -/
def slopes : Model Random.SplitMix Unit (List Float) :=
  ((Problem.ofObjective (Lexicographic.order ⟨.minimize, 2⟩) [bound] fun x =>
    pure (.ok (x.head?.map fun a => [1.0 - a, a]))).withConstraint left).toModel

/-- A host with a stand-in for the exponential, which is right at negative infinity and at what is
no number.  The runs below ask for nothing else: moves go forward, where every known value is an
improvement, and an absent one is infinitely far. -/
def vanishing : Host Unit :=
  ⟨fun _ => ⟨0⟩, fun _ => false,
    ⟨fun x => if x.isNaN then x else if x == -Arithmetic.infinity then 0.0 else 0.5,
      fun _ _ => 0.5⟩, .lenient⟩

theorem vanishing_vanishes : Annealing.Vanishes vanishing.math where
  exp_neg_infinity := by decide +kernel
  isNaN_exp x hx := by
    show (if x.isNaN then x else _).isNaN = true
    rwa [if_pos hx]

/-- The world in which a chain first tries a point that cannot be evaluated. -/
def edge : World Random.SplitMix Unit := ⟨⟨2027⟩, ()⟩

/-- Whether the first trial is of a point that cannot be evaluated. -/
def triesAbsent (s : Annealing.State Float)
    (v : World Random.SplitMix (Unit × List (Call Float))) : Bool :=
  match Search.verdict vanishing.watched annealing.criteria
    (Annealing.engine slope.watched annealing vanishing.watched) (Search.begin s) v.state with
  | .error _ => false
  | .ok s =>
    match (Annealing.trial slope.watched annealing vanishing.math s.temperature
      ⟨s.chain, #[], false⟩).exec v with
    | (.error _, _) => false
    | (.ok _, u) => (evaluated u.state.2).getLast?.any (·.fitness.isNone)

theorem slope_trial : ∃ temperature b u b' u',
    Annealing.Poised slope.watched annealing vanishing.watched edge.watched temperature b u ∧
    Answered (·.isNaN = false) u.state.2 ∧
    (Annealing.trial slope.watched annealing vanishing.math temperature b).exec u = (.ok b', u') ∧
    (evaluated u'.state.2).getLast?.any (·.fitness.isNone) = true := by
  obtain ⟨s, v, hs, hanswered, htries⟩ := Run.exists_ok_world (w := edge.watched)
    (x := Annealing.start slope.watched annealing vanishing.watched)
    (P := fun s v => (∀ c ∈ evaluated v.state.2, ∀ value ∈ c.fitness, value.isNaN = false) ∧
      triesAbsent s v = true) (by decide +kernel)
  unfold triesAbsent at htries
  split at htries
  · cases htries
  next s' henters =>
    split at htries
    · cases htries
    next b' u' htrial =>
      exact ⟨s'.temperature, ⟨s'.chain, #[], false⟩, v, b', u',
        ⟨Search.begin s, v, s', 0, ⟨by decide +kernel, by decide +kernel, s, v, hs, .start⟩,
          henters, rfl, by decide, rfl⟩, answered_iff.mpr hanswered, htrial, htries⟩

theorem slope_outcome :
    ∃ o w', (Annealing.run slope annealing vanishing 3).exec edge = (.ok (some o), w') ∧
      0 < o.acceptedMoves :=
  Run.exists_outcome (by decide +kernel)

/-- The known values fall from trial to trial. -/
example : ((evaluated ((Annealing.run slope.watched annealing vanishing.watched 3).calls
    edge)).filterMap (·.fitness)).Pairwise fun x y => y < x := by decide +kernel

theorem slopes_outcome :
    ∃ o w', (Annealing.run slopes annealing vanishing 3).exec edge = (.ok (some o), w') ∧
      0 < o.acceptedMoves :=
  Run.exists_outcome (by decide +kernel)

/-- The same for the first components. -/
example : ((evaluated ((Annealing.run slopes.watched annealing vanishing.watched 3).calls
    edge)).filterMap (·.fitness.bind List.head?)).Pairwise fun x y => y < x := by decide +kernel

end Interval

/-- A point beyond the left three quarters of the unit interval is not accepted, and the solutions
of two runs have been evaluated. -/
theorem annealing_stays_feasible_interval :
    (∃ temperature b u a u', Annealing.Poised Interval.slope.watched Interval.annealing
        Interval.vanishing.watched Interval.edge.watched temperature b u ∧
      Annealing.Makes Interval.slope.watched Interval.annealing Interval.vanishing.math temperature
        b u a b u' ∧ a.fitness = none ∧ a.accepted = false) ∧
    (∃ o w' cs v, (Annealing.run Interval.slope Interval.annealing Interval.vanishing 3).exec
        Interval.edge = (.ok (some o), w') ∧ 0 < o.acceptedMoves ∧
      (Annealing.populate Interval.slope Interval.annealing).exec Interval.edge = (.ok cs, v) ∧
      ∀ c ∈ o.solutions, c ∈ cs ∨ ∃ value, c.fitness = some value ∧
        Call.objective c.position (.ok (some value)) ∈
          (Annealing.run Interval.slope.watched Interval.annealing Interval.vanishing.watched
            3).calls Interval.edge) ∧
    ∃ o w' cs v, (Annealing.run Interval.slopes Interval.annealing Interval.vanishing 3).exec
        Interval.edge = (.ok (some o), w') ∧ 0 < o.acceptedMoves ∧
      (Annealing.populate Interval.slopes Interval.annealing).exec Interval.edge = (.ok cs, v) ∧
      ∀ c ∈ o.solutions, c ∈ cs ∨ ∃ value, c.fitness = some value ∧
        Call.objective c.position (.ok (some value)) ∈
          (Annealing.run Interval.slopes.watched Interval.annealing Interval.vanishing.watched
            3).calls Interval.edge := by
  obtain ⟨hscalars, hvectors⟩ :=
    annealing_stays_feasible (γ := Random.SplitMix) Interval.vanishing Interval.vanishing_vanishes
  have hslope := hscalars .minimize Interval.slope ⟨rfl, rfl, rfl⟩ Interval.annealing Interval.edge
  have hslopes := hvectors ⟨.minimize, 2⟩ Interval.slopes (by decide) ⟨rfl, rfl, rfl⟩
    Interval.annealing Interval.edge
  obtain ⟨temperature, b, u, b', u', hpoised, hanswered, htrial, hlast⟩ := Interval.slope_trial
  obtain ⟨o₁, w₁, hrun₁, hmoves₁⟩ := Interval.slope_outcome
  obtain ⟨o₂, w₂, hrun₂, hmoves₂⟩ := Interval.slopes_outcome
  obtain ⟨a, ha, hrejected, -⟩ := hslope.trial temperature b u b' u' hpoised hanswered htrial
  have habsent : a.fitness = none := by
    rw [ha.evaluated, List.getLast?_concat] at hlast
    exact Option.isNone_iff_eq_none.mp hlast
  obtain ⟨haccepted, rfl⟩ := hrejected habsent
  obtain ⟨cs₁, v₁, hcs₁, hsolutions₁⟩ := hslope.solutions 3 o₁ w₁ hrun₁
    (answered_iff.mpr (by decide +kernel))
  obtain ⟨cs₂, v₂, hcs₂, hsolutions₂⟩ := hslopes.solutions 3 o₂ w₂ hrun₂
    (answered_iff.mpr (by decide +kernel))
  exact ⟨⟨temperature, _, u, a, u', hpoised, ha, habsent, haccepted⟩,
    ⟨o₁, w₁, cs₁, v₁, hrun₁, hmoves₁, hcs₁, hsolutions₁⟩,
    o₂, w₂, cs₂, v₂, hrun₂, hmoves₂, hcs₂, hsolutions₂⟩

end Metaheuristics
