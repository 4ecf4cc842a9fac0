import Metaheuristics.Proofs.Bounds.Box
import Metaheuristics.Proofs.Runs.Guarantees
import Metaheuristics.Proofs.Settings.Checks
import Metaheuristics.Swarm.Run

/-!
# Moves of particles

A move leads into the box and to a velocity within its limit, whatever the velocity before the
limit comes out as (`Particle.ensures_move`, `Particle.limits_of_move`).  It calls nothing of the
caller's.
-/

namespace Metaheuristics.Swarm

variable {γ σ V : Type} {I : σ → Prop} {settings : Settings}

/-- **A velocity within the limit.** -/
structure Settings.Limits (settings : Settings) (v : Float) : Prop where
  isNumber : v.isNaN = false
  neg_le : -settings.maxVelocity ≤ v
  le_max : v ≤ settings.maxVelocity

theorem Settings.maxVelocity_pos (h : settings.check = .ok ()) : 0.0 < settings.maxVelocity := by
  obtain ⟨-, -, -, -, -, hpos, -⟩ := Settings.check_eq_ok.mp h
  simpa [Requirement.holds] using hpos

theorem Settings.limits_zero (h : 0.0 < settings.maxVelocity) : settings.Limits 0.0 := by
  have hle := Arithmetic.le_of_lt h
  refine ⟨by decide, ?_, hle⟩
  exact Arithmetic.le_trans (Arithmetic.neg_le_neg hle) (by decide)

namespace Axis

/-- **Velocities are kept within the limit**, also those that are not a number. -/
theorem limits_of_limit? (hpos : 0.0 < settings.maxVelocity) {x v : Float}
    (h : limit? settings x = some v) : settings.Limits v := by
  unfold limit? at h
  split_ifs at h with hx
  · rw [← Option.some.inj h]
    exact Settings.limits_zero hpos
  · unfold Arithmetic.clamp? at h
    split_ifs at h with hle
    obtain ⟨hlow, hhigh⟩ := Arithmetic.clamp_mem hle (Bool.eq_false_iff.mpr hx)
    rw [Option.some.inj h] at hlow hhigh
    exact ⟨(Arithmetic.isNaN_of_le hlow).2, hlow, hhigh⟩

theorem bounds_of_ofLists {bounds : List Bound} {position velocity own shared : List Float}
    {axes : List Axis} (h : ofLists bounds position velocity own shared = some axes) :
    axes.map (·.bound) = bounds.take position.length ∧ axes.length = position.length := by
  induction position generalizing bounds velocity own shared axes with
  | nil =>
    obtain rfl : [] = axes := by simpa [ofLists] using h
    exact ⟨rfl, rfl⟩
  | cons x position ih =>
    obtain _ | ⟨b, bounds⟩ := bounds
    · cases h
    obtain _ | ⟨v, velocity⟩ := velocity
    · cases h
    obtain _ | ⟨p, own⟩ := own
    · cases h
    obtain _ | ⟨g, shared⟩ := shared
    · cases h
    obtain ⟨rest, hrest, rfl⟩ := Option.map_eq_some_iff.mp h
    obtain ⟨hbounds, hlength⟩ := ih hrest
    exact ⟨congrArg (b :: ·) hbounds, congrArg (· + 1) hlength⟩

theorem ensures_move [Random.Source γ] (axis : Axis) :
    Run.Ensures (γ := γ) I (axis.move settings)
      fun (x, v) => axis.bound.Holds x ∧ (0.0 < settings.maxVelocity → settings.Limits v) := by
  refine Run.Ensures.bind (Run.Ensures.draw _) fun r₁ _ => ?_
  refine Run.Ensures.bind (Run.Ensures.draw _) fun r₂ _ => ?_
  refine Run.Ensures.bind (Run.Ensures.expect fun v hv => hv) fun v hv => ?_
  exact Run.Ensures.pure ⟨axis.bound.clamp_holds _, fun hpos => limits_of_limit? hpos hv⟩

end Axis

/-- **A move** changes position and velocity only: the new position lies within the bounds, and the
new velocity within its limit. -/
theorem Particle.ensures_move [Random.Source γ] (bounds : List Bound) (shared : Position)
    (p : Particle V) :
    Run.Ensures (γ := γ) I (p.move settings bounds shared) fun q =>
      q.fitness = p.fitness ∧ q.best = p.best ∧ InBox (bounds.take p.position.length) q.position ∧
      (0.0 < settings.maxVelocity → ∀ v ∈ q.velocity, settings.Limits v) := by
  refine Run.Ensures.bind (Run.Ensures.expect fun axes haxes => haxes) fun axes haxes => ?_
  refine Run.Ensures.bind (Run.Ensures.mapM fun axis _ => Axis.ensures_move axis)
    fun moved hmoved => ?_
  refine Run.Ensures.pure ⟨rfl, rfl, ?_, fun hpos v hv => ?_⟩
  · rw [← (Axis.bounds_of_ofLists haxes).1]
    refine List.forall₂_map_left_iff.mpr (List.forall₂_map_right_iff.mpr ?_)
    exact hmoved.imp fun axis y hy => hy.1
  · obtain ⟨y, hy, rfl⟩ := List.mem_map.mp hv
    obtain ⟨axis, -, hlimits⟩ := exists_of_forall₂ hmoved hy
    exact hlimits.2 hpos

theorem Particle.limits_of_move [Random.Source γ] (hcheck : settings.check = .ok ())
    {bounds : List Bound} {shared : Position} {p q : Particle V} {w w' : World γ σ}
    (h : (p.move settings bounds shared).exec w = (.ok q, w')) :
    ∀ v ∈ q.velocity, settings.Limits v := by
  have hmove : Run.Ensures (γ := γ) (fun _ : σ => True) (p.move settings bounds shared) _ :=
    Particle.ensures_move bounds shared p
  exact (hmove.of_ok trivial h).2.2.2.2 (Settings.maxVelocity_pos hcheck)

theorem ensures_initialVelocity [Random.Source γ] :
    Run.Ensures (γ := γ) I (initialVelocity settings) fun _ => True := by
  refine Run.Ensures.bind (Run.Ensures.draw _) fun r _ => ?_
  exact Run.Ensures.pure trivial

theorem ensures_launch [Random.Source γ] (m : Model γ σ V) (c : Candidate V) :
    Run.Ensures I (launch m settings c) fun p => p.snapshot = c ∧ p.best = c := by
  refine Run.Ensures.bind (Run.Ensures.mapM fun _ _ => ensures_initialVelocity) fun velocity _ => ?_
  unfold Particle.ofState
  split
  next hofState =>
    split_ifs at hofState
    obtain rfl := Except.ok.inj hofState
    exact Run.Ensures.pure ⟨rfl, rfl⟩
  next => exact Run.Ensures.violate _

/-- **The particles at the start** are at the candidates that have been evaluated, and remember
them. -/
theorem launched_of_populate [Random.Source γ] {m : Model γ σ V} {ps : List (Particle V)}
    {w w' : World γ σ} (h : (populate m settings).exec w = (.ok ps, w')) :
    ∃ positions v v', (m.startingPositions settings.particleAmount).exec w = (.ok positions, v) ∧
      (m.evaluateAll positions).exec v = (.ok (ps.map (·.snapshot)), v') ∧ w'.state = v'.state ∧
      ∀ p ∈ ps, p.best = p.snapshot := by
  obtain ⟨positions, v, hpositions, h⟩ := Run.bind_eq_ok.mp h
  obtain ⟨cs, v', hcs, h⟩ := Run.bind_eq_ok.mp h
  have hlaunch (I : σ → Prop) : Run.Ensures I (cs.mapM (launch m settings))
      (List.Forall₂ (fun c p => p.snapshot = c ∧ p.best = c) cs) :=
    Run.Ensures.mapM fun c _ => ensures_launch m c
  have hlaunched := ((hlaunch fun _ => True).of_ok trivial h).2
  have hps : ps.map (·.snapshot) = cs := by
    refine (List.forall₂_eq_eq_eq ▸ ?_ : cs = ps.map (·.snapshot)).symm
    exact List.forall₂_map_right_iff.mpr (hlaunched.imp fun c p hp => hp.1.symm)
  refine ⟨positions, v, v', hpositions, hps ▸ hcs, Run.Ensures.state_eq hlaunch h, fun p hp => ?_⟩
  obtain ⟨c, -, hsnapshot, hbest⟩ := exists_of_forall₂ hlaunched hp
  rw [hbest, hsnapshot]

end Metaheuristics.Swarm
