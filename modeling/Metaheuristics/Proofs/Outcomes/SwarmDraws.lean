import Metaheuristics.Proofs.Outcomes.TopOfRun
import Metaheuristics.Proofs.Swarm.Draws

/-!
# A swarm's draws do not depend on the objective

How many words a swarm draws is settled by the number of particles, the bounds and the number of
iterations.  So two swarms of the same size, within the same bounds and with the same source, leave
it in the same state after the same number of iterations, and the next iteration draws the same
words in both, however different the problems are (`draws_independent`).
-/

namespace Metaheuristics

open Metaheuristics.Random

/-- **The words that a swarm has drawn** after some iterations: one for each coordinate of each
particle whose bound is no single point, one for each coordinate of its velocity, and two for each
coordinate in every iteration. -/
def Swarm.drawn (settings : Swarm.Settings) (bounds : List Bound) (iterations : Nat) : Nat :=
  settings.particleAmount * extended bounds + settings.particleAmount * bounds.length
    + 2 * settings.particleAmount * bounds.length * iterations

section
variable {γ σ σ' V V' : Type} [Source γ] {m : Model γ σ V} {m' : Model γ σ' V'}
  {settings : Swarm.Settings} {host : Host σ} {host' : Host σ'} {w v : World γ σ}
  {w' v' : World γ σ'} {stop stop' : Bool} {p : Progress V (Swarm.State V)}
  {p' : Progress V' (Swarm.State V')}

/-- **The draws of a swarm** depend on nothing but its size, its bounds and its source.  Two models
with the same bounds, each with uniform starting candidates and otherwise anything at all, are run
with the same settings and the same source.  Wherever either run gets to, the words it has drawn are
counted by its iterations alone.  After the same number of iterations both sources are in the same
state, and from there either run takes the next words, as many in both, in its next iteration,
whatever comes of it. -/
theorem draws_independent (hm : m.StartsUniformly) (hm' : m'.StartsUniformly)
    (hbounds : m'.bounds = m.bounds) (hrandom : w'.random = w.random)
    (h : Swarm.Visits m settings host w stop p v)
    (h' : Swarm.Visits m' settings host' w' stop' p' v') :
    v.random = (words (Swarm.drawn settings m.bounds p.tracker.iteration) w.random).2 ∧
    v'.random = (words (Swarm.drawn settings m.bounds p'.tracker.iteration) w.random).2 ∧
    (p.tracker.iteration = p'.tracker.iteration → v.random = v'.random) ∧
    Run.Takes (2 * settings.particleAmount * m.bounds.length)
      (Search.iterate m (Swarm.engine m settings host) p p.engine) ∧
    Run.Takes (2 * settings.particleAmount * m.bounds.length)
      (Search.iterate m' (Swarm.engine m' settings host') p' p'.engine) := by
  obtain ⟨hmanned, hdraws⟩ := Swarm.draws_of_visits hm h
  obtain ⟨hmanned', hdraws'⟩ := Swarm.draws_of_visits hm' h'
  rw [hbounds] at hmanned' hdraws'
  have hpos := Swarm.Settings.maxVelocity_pos h.1
  have hcount : settings.particleAmount * (m.bounds.length * 2) =
      2 * settings.particleAmount * m.bounds.length := by
    ring
  unfold Draws at hdraws hdraws'
  rw [hrandom] at hdraws'
  refine ⟨hdraws, hdraws', fun ht => ?_, ?_, ?_⟩
  · rw [hdraws, hdraws', ht]
  · rw [← hcount]
    exact Swarm.takes_iterate hpos rfl hmanned p
  · rw [← hcount]
    exact Swarm.takes_iterate hpos (by rw [hbounds]) hmanned' p'

end

/-! ## Two problems within the same bounds -/

namespace Fence

/-- The single point one. -/
def point : Bound :=
  ⟨1.0, 1.0, Interval.bound.upper_finite, Interval.bound.upper_finite, Arithmetic.le_self rfl⟩

/-- The unit interval, and a single point. -/
def bounds : List Bound := [Interval.bound, point]

/-- The distance from one half is to be small, in the left three quarters. -/
def near : Model Tape Unit Float :=
  ((Problem.ofObjective Direction.minimize.order bounds fun x =>
    pure (.ok (x.head?.map fun a => (a - 0.5).abs))).withConstraint
    ⟨"left", fun x => pure (x.head?.map fun a => a ≤ 0.75)⟩).toModel

/-- The first coordinate is to be large, and the evaluations are counted. -/
def far : Model Tape Nat Float :=
  (Problem.ofObjective Direction.maximize.order bounds fun x calls =>
    (.ok x.head?, calls + 1)).toModel

/-- The host of a run that counts its evaluations. -/
def counting : Host Nat := ⟨fun _ => ⟨0⟩, fun _ => false, Interval.host.math, .lenient⟩

/-- A tape of three words. -/
def tape : Tape := .ofArray #[0x123456789abcdef0, 0xfedcba9876543210, 0x0f1e2d3c4b5a6978]

theorem near_outcome : ∃ o v, (Swarm.run near Interval.swarm Interval.host 3).exec ⟨tape, ()⟩
    = (.ok (some o), v) ∧ o.iterations = 2 :=
  Run.exists_outcome (by decide +kernel)

theorem far_outcome : ∃ o v, (Swarm.run far Interval.swarm counting 3).exec ⟨tape, 0⟩
    = (.ok (some o), v) ∧ o.iterations = 2 :=
  Run.exists_outcome (by decide +kernel)

end Fence

/-- Two swarms of three particles in two dimensions, one of which is a single point, have drawn 33
words after two iterations. -/
theorem draws_independent_fence :
    ∃ stop p v stop' p' v', p.tracker.iteration = 2 ∧ p'.tracker.iteration = 2 ∧
      Swarm.Visits Fence.near Interval.swarm Interval.host ⟨Fence.tape, ()⟩ stop p v ∧
      Swarm.Visits Fence.far Interval.swarm Fence.counting ⟨Fence.tape, 0⟩ stop' p' v' ∧
      v.random.position = 33 ∧ v'.random = v.random := by
  obtain ⟨o, v, hrun, ht⟩ := Fence.near_outcome
  obtain ⟨o', v', hrun', ht'⟩ := Fence.far_outcome
  obtain ⟨stop, reason, p, h, rfl⟩ := Swarm.visits_of_run hrun
  obtain ⟨stop', reason', p', h', rfl⟩ := Swarm.visits_of_run hrun'
  have hp : p.tracker.iteration = 2 := ht
  have hp' : p'.tracker.iteration = 2 := ht'
  have hnear : Fence.near.StartsUniformly := Model.startsUniformly_toModel rfl
  have hfar : Fence.far.StartsUniformly := Model.startsUniformly_toModel rfl
  obtain ⟨hrandom, -, hsame, -⟩ := draws_independent hnear hfar rfl rfl h h'
  refine ⟨stop, p, v, stop', p', v', hp, hp', h, h', ?_, (hsame (hp.trans hp'.symm)).symm⟩
  rw [hrandom, words_tape, hp]
  decide +kernel

end Metaheuristics
