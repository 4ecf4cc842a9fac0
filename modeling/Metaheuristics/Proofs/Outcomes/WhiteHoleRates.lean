import Metaheuristics.Proofs.Fitness.Encodings
import Metaheuristics.Proofs.Fitness.Totality
import Metaheuristics.Proofs.Multiverse.Rates
import Metaheuristics.Proofs.Outcomes.TopOfRun

/-!
# The better a universe, the higher its white-hole rate

The rates are a function of the scores that respects their order.  The scores of a scalar order or a
weighted sum fall along a population from best to worst, as far as they are finite: what is not a
number is last and has no finite score, and neither has an absent fitness (`scoresFall`).  So the
rates do not rise along such a population, unless a universe scores infinity, which is best and gets
the lowest rate (`rates_respect_ranking`).  The populations of a run are such, since all of them have
been sorted (`ranked_of_visits`).
-/

namespace Metaheuristics

open Arithmetic

variable {γ σ V : Type}

/-! ## Scores along a ranking -/

/-- **Scores fall along the ranking**: what is not better scores no higher, or nothing finite. -/
def FitnessOrder.ScoresFall (order : FitnessOrder V) : Prop :=
  ∀ x y, order.compare x y ≠ .gt → (order.score y).isFinite = true →
    order.score y ≤ order.score x

theorem Direction.scoresFall (direction : Direction) : direction.order.ScoresFall := by
  intro x y h hfinite
  have hscore := isNaN_of_isFinite hfinite
  have hy : y.isNaN = false := by
    cases direction with
    | minimize => exact (isNaN_neg y).symm.trans hscore
    | maximize => exact hscore
  have hx : x.isNaN = false := by
    by_contra hx
    exact h (direction.compare_of_isNaN (Bool.eq_true_of_not_eq_false hx) hy)
  have hcompare : direction.compare x y ≠ .gt := h
  unfold Direction.compare at hcompare
  rw [hx, hy] at hcompare
  cases direction with
  | minimize =>
    refine neg_le_neg (le_of_not_lt hy hx fun hlt => hcompare ?_)
    show compareNumbers x y = .gt
    rw [compareNumbers, if_neg (lt_asymm hlt), if_pos hlt]
  | maximize =>
    refine le_of_not_lt hx hy fun (hlt : x < y) => hcompare ?_
    show (compareNumbers x y).swap = .gt
    rw [compareNumbers, if_pos hlt]
    rfl

theorem WeightedSum.scoresFall (ranking : WeightedSum) : ranking.order.ScoresFall :=
  fun x y => ranking.direction.scoresFall (ranking.scalarize x) (ranking.scalarize y)

/-- **The model ranks by an order**: its scores and its comparison are those of the order. -/
structure Model.RanksBy (m : Model γ σ V) (order : FitnessOrder V) : Prop where
  scores : m.order = order
  compare : m.compare = compareOptional order.compare

namespace Multiverse

variable {order : FitnessOrder V} {m : Model γ σ V}

theorem score_le_score (hm : m.RanksBy order) (horder : order.ScoresFall) {u v : Candidate V}
    (h : m.compareCandidates u v ≠ .gt) (hv : (score m v).isFinite = true) :
    score m v ≤ score m u := by
  obtain ⟨_, _ | y⟩ := v
  · exact absurd hv (by decide : (-infinity).isFinite ≠ true)
  obtain ⟨_, _ | x⟩ := u
  · exact absurd (by rw [Model.compareCandidates, hm.compare]; rfl) h
  unfold Model.compareCandidates at h
  rw [hm.compare] at h
  unfold score at hv ⊢
  rw [hm.scores] at hv ⊢
  exact horder x y h hv

/-- The rates of a population from best to worst do not rise. -/
theorem rates_fall (hm : m.RanksBy order) (horder : order.ScoresFall)
    (normalization : Normalization) {us : List (Candidate V)}
    (hsorted : us.Pairwise fun u v => m.compareCandidates u v ≠ .gt)
    (hbelow : ∀ u ∈ us, score m u ≠ infinity) :
    (normalization.normalize (us.map (score m))).Pairwise fun r q => q ≤ r := by
  obtain ⟨rate, hrate, hgrades⟩ := normalization.grades_normalize (us.map (score m))
  rw [hrate, List.map_map, List.pairwise_map]
  refine hsorted.imp_of_mem fun {u v} hu hv huv => ?_
  have hscore {x : Candidate V} (hx : x ∈ us) : score m x ∈ us.map (score m) :=
    List.mem_map_of_mem hx
  show rate (score m v) ≤ rate (score m u)
  by_cases hfinite : (score m v).isFinite = true
  · have hle := score_le_score hm horder huv hfinite
    obtain ⟨a, ha⟩ := isFinite_iff_steps.mp hfinite
    have habove := lt_of_lt_of_le (neg_infinity_lt_of_steps ha) hle
    exact hgrades.mono _ (hscore hv) _ (hscore hu) hfinite
      (isFinite_iff_steps.mpr ((eq_infinity_or_steps habove).resolve_left (hbelow u hu))) hle
  · exact hgrades.lowest _ (hscore hv) _ (hscore hu) (Bool.eq_false_of_not_eq_true hfinite)

variable [Random.Source γ] {settings : Settings} {host : Host σ} {w w' : World γ σ}

theorem ranked_of_visits {stop : Bool} {p : Progress V (State V)}
    (h : Visits m settings host w stop p w') : ∃ us, p.engine.universes = rank m us := by
  obtain ⟨-, s, v, hs, hreaches⟩ := h
  cases hreaches with
  | start =>
    obtain ⟨us, u, -, hgather⟩ := Run.bind_eq_ok.mp hs
    obtain ⟨best, -, rfl, -⟩ := gather_eq_ok hgather
    exact ⟨us, rfl⟩
  | step _ _ hiterates =>
    obtain ⟨us, u, s', better, u', -, habsorb, rfl, -⟩ := Search.iterate_eq_ok hiterates
    obtain ⟨leader, -, -, rfl, -⟩ := absorb_eq_ok habsorb
    exact ⟨us, rfl⟩

/-- **The rates of a model's universes do not rise** from the best to the worst one. -/
structure RatesFall (m : Model γ σ V) : Prop where
  /-- Along every population that is sorted. -/
  population : ∀ (normalization : Normalization) (us : List (Candidate V)),
    us.Pairwise (fun u v => m.compareCandidates u v ≠ .gt) → (∀ u ∈ us, score m u ≠ infinity) →
    (normalization.normalize (us.map (score m))).Pairwise fun r q => q ≤ r
  /-- Along the universes of every run, wherever it gets to. -/
  run : ∀ (settings : Settings) (host : Host σ) (w w' : World γ σ) (stop : Bool)
    (p : Progress V (State V)) (progress : Float), Visits m settings host w stop p w' →
    (∀ u ∈ p.engine.universes, score m u ≠ infinity) →
    (passage m settings host.math progress p.engine).rates.Pairwise fun r q => q ≤ r

theorem ratesFall (hm : m.RanksBy order) (horder : order.ScoresFall)
    (htotal : TotalPreorderOn order.compare fun _ => True) : RatesFall m where
  population normalization _ := rates_fall hm horder normalization
  run settings host w w' stop p progress h hbelow := by
    obtain ⟨us, hus⟩ := ranked_of_visits h
    refine rates_fall hm horder settings.normalization ?_ hbelow
    have hcandidates : TotalPreorderOn m.compareCandidates fun _ => True := by
      have hcomap := htotal.optional.comap (Candidate.fitness (V := V))
      rw [← hm.compare] at hcomap
      exact hcomap.mono fun _ _ _ _ => trivial
    rw [hus]
    exact (Ranking.sort_isStableSort hcandidates fun _ _ => trivial).ordered

end Multiverse

/-- **White-hole rates respect the ranking.** -/
theorem rates_respect_ranking [Random.Source γ] :
    (∀ (normalization : Multiverse.Normalization) (scores : List Float),
      (normalization.normalize scores).length = scores.length ∧
      ∃ rate, normalization.normalize scores = scores.map rate ∧
        Multiverse.Grades scores rate) ∧
    (∀ (direction : Direction) (m : Model γ σ Float), m.RanksBy direction.order →
      Multiverse.RatesFall m) ∧
    ∀ (ranking : WeightedSum) (m : Model γ σ (List Float)), m.RanksBy ranking.order →
      Multiverse.RatesFall m := by
  refine ⟨fun normalization scores => ⟨?_, ?_⟩, fun direction m hm => ?_, fun ranking m hm => ?_⟩
  · exact Multiverse.Normalization.length_normalize normalization scores
  · exact normalization.grades_normalize scores
  · exact Multiverse.ratesFall hm direction.scoresFall direction.totalPreorder
  · exact Multiverse.ratesFall hm ranking.scoresFall ranking.totalPreorder

namespace Interval

/-- Universes of every kind from best to worst. -/
def population : List (Candidate Float) :=
  [⟨[0.5], some 0.0⟩, ⟨[1.0], some 0.5⟩, ⟨[0.0], some notANumber⟩, ⟨[0.75], none⟩]

/-- The sum with the weight one, maximised, of all coordinates. -/
def weightedModel : Model Random.SplitMix Unit (List Float) :=
  .ofObjective (WeightedSum.unit .maximize).order [bound] fun x => pure (.ok (some x))

theorem multiverse_start :
    ∃ s w', (Multiverse.start model multiverse host).exec world = (.ok s, w') ∧
      ∀ u ∈ s.universes, Multiverse.score model u ≠ infinity :=
  Run.exists_ok_world (by decide +kernel)

end Interval

/-- The rates of a population, of the universes at the start of a run, and of a population ranked by
a weighted sum. -/
theorem rates_respect_ranking_interval :
    ((Multiverse.Normalization.sum.normalize
        (Interval.population.map (Multiverse.score Interval.model))).Pairwise fun r q => q ≤ r) ∧
    (∃ p w', Multiverse.Visits Interval.model Interval.multiverse Interval.host Interval.world false
        p w' ∧
      (Multiverse.passage Interval.model Interval.multiverse Interval.host.math 0.5
        p.engine).rates.Pairwise fun r q => q ≤ r) ∧
    (Multiverse.Normalization.minMax.normalize
      ([⟨[1.0], some [2.0]⟩, ⟨[0.5], some [1.0, 5.0]⟩].map
        (Multiverse.score Interval.weightedModel))).Pairwise fun r q => q ≤ r := by
  obtain ⟨-, hscalar, hsum⟩ := rates_respect_ranking (γ := Random.SplitMix) (σ := Unit)
  have hmodel := hscalar .minimize Interval.model ⟨rfl, rfl⟩
  obtain ⟨s, v, hs, hbelow⟩ := Interval.multiverse_start
  have hvisits : Multiverse.Visits Interval.model Interval.multiverse Interval.host Interval.world
    false (Search.begin s) v := ⟨by decide, s, v, hs, .start⟩
  refine ⟨hmodel.population .sum _ (by decide +kernel) (by decide +kernel), ?_, ?_⟩
  · exact ⟨_, v, hvisits, hmodel.run _ _ _ _ _ _ _ hvisits hbelow⟩
  · exact (hsum (WeightedSum.unit .maximize) Interval.weightedModel ⟨rfl, rfl⟩).population .minMax _
      (by decide +kernel) (by decide +kernel)

end Metaheuristics
