import Metaheuristics.Proofs.Model.Starts
import Metaheuristics.Proofs.Search.Safety
import Metaheuristics.Proofs.Swarm.Box

/-!
# Swarms are safe

In a swarm of dimension `d` every particle has `d` coordinates, `d` velocities and a best position
with `d` coordinates, the best position of the swarm has `d` coordinates, and there is a particle;
the fitness is some that the model gives (`State.Fits`).  That is what a move and the ranking rely
on.  It holds after a good start with checked settings and is kept by every iteration, so that a run
breaks no agreement, unless the fitness is in no order and the machine will not sort by it
(`safe_run`).
-/

namespace Metaheuristics.Swarm

variable {γ σ V : Type} {A : Violation → Prop} {P : Option V → Prop} {m : Model γ σ V}
  {settings : Settings} {host : Host σ} {w : World γ σ} {d : Nat}

/-- **A particle of dimension `d`**, with fitness that has the property `P`. -/
structure Particle.Fits (d : Nat) (P : Option V → Prop) (p : Particle V) : Prop where
  position : p.position.length = d
  velocity : p.velocity.length = d
  best : p.best.position.length = d
  fitness : P p.fitness

/-- **A swarm of dimension `d`**, with fitness that has the property `P`. -/
structure State.Fits (d : Nat) (P : Option V → Prop) (s : State V) : Prop where
  particles : Populated (Particle.Fits d P) s.particles
  best : s.best.position.length = d

/-! ## Moves -/

namespace Axis

theorem exists_ofLists {bounds : List Bound} {position velocity own shared : List Float}
    (hbounds : bounds.length = position.length) (hvelocity : velocity.length = position.length)
    (hown : own.length = position.length) (hshared : shared.length = position.length) :
    ∃ axes, ofLists bounds position velocity own shared = some axes := by
  induction position generalizing bounds velocity own shared with
  | nil => exact ⟨[], by simp [ofLists]⟩
  | cons x position ih =>
    obtain _ | ⟨b, bounds⟩ := bounds
    · cases hbounds
    obtain _ | ⟨v, velocity⟩ := velocity
    · cases hvelocity
    obtain _ | ⟨p, own⟩ := own
    · cases hown
    obtain _ | ⟨g, shared⟩ := shared
    · cases hshared
    obtain ⟨axes, haxes⟩ := ih (Nat.succ.inj hbounds) (Nat.succ.inj hvelocity)
      (Nat.succ.inj hown) (Nat.succ.inj hshared)
    exact ⟨_, Option.map_eq_some_iff.mpr ⟨axes, haxes, rfl⟩⟩

/-- A positive limit is never inverted. -/
theorem exists_limit? (hpos : 0.0 < settings.maxVelocity) (velocity : Float) :
    ∃ v, limit? settings velocity = some v := by
  have hzero := Settings.limits_zero hpos
  have hle : -settings.maxVelocity ≤ settings.maxVelocity :=
    Arithmetic.le_trans hzero.neg_le hzero.le_max
  unfold limit? Arithmetic.clamp?
  rw [dif_pos hle]
  split
  · exact ⟨_, rfl⟩
  · exact ⟨_, rfl⟩

theorem safe_move [Random.Source γ] (hpos : 0.0 < settings.maxVelocity) (axis : Axis) :
    Run.Safe A w (axis.move settings) fun _ => True := by
  refine Run.Safe.bind (Run.Safe.draw (Random.Yields.any _)) fun r₁ _ _ => ?_
  refine Run.Safe.bind (Run.Safe.draw (Random.Yields.any _)) fun r₂ _ _ => ?_
  obtain ⟨v, hv⟩ := exists_limit? hpos (axis.steer settings r₁ r₂)
  refine Run.Safe.bind (P := fun _ => True) (Run.Safe.expect ⟨v, hv, trivial⟩) fun _ _ _ => ?_
  exact Run.Safe.pure trivial

end Axis

theorem Particle.safe_move [Random.Source γ] (hpos : 0.0 < settings.maxVelocity)
    {bounds : List Bound} {shared : Position} {p : Particle V} (hbounds : bounds.length = d)
    (hshared : shared.length = d) (hp : p.Fits d P) :
    Run.Safe A w (p.move settings bounds shared) (Particle.Fits d P) := by
  obtain ⟨axes, haxes⟩ := Axis.exists_ofLists (hbounds.trans hp.position.symm)
    (hp.velocity.trans hp.position.symm) (hp.best.trans hp.position.symm)
    (hshared.trans hp.position.symm)
  have hlength : axes.length = d := (Axis.bounds_of_ofLists haxes).2.trans hp.position
  refine Run.Safe.bind (P := fun axes => axes.length = d)
    (Run.Safe.expect ⟨axes, haxes, hlength⟩) fun axes _ hlength => ?_
  refine Run.Safe.bind (Run.Safe.mapM fun axis _ _ => Axis.safe_move hpos axis)
    fun moved _ hmoved => ?_
  have hmoved : moved.length = d := hmoved.length_eq.symm.trans hlength
  refine Run.Safe.pure ⟨?_, ?_, hp.best, hp.fitness⟩
  · exact (List.length_map _).trans hmoved
  · exact (List.length_map _).trans hmoved

theorem Particle.Fits.record {p : Particle V} (hp : p.Fits d P)
    (compare : Option V → Option V → Ordering) {fitness : Option V} (h : P fitness) :
    (p.record compare fitness).Fits d P := by
  unfold Particle.record
  dsimp only
  split
  · exact ⟨hp.position, hp.velocity, hp.position, h⟩
  · exact ⟨hp.position, hp.velocity, hp.best, h⟩

/-! ## Iterations -/

section
variable (hsort : Run.Sortable A P m.compare)
include hsort

theorem safe_sort {ps : List (Particle V)} (h : Populated (Particle.Fits d P) ps) :
    Run.Safe A w (host.sort (compareParticles m) ps) (Populated (Particle.Fits d P)) :=
  h.safe_sort ((hsort.comap Particle.fitness).mono fun _ hp => hp.fitness)

theorem safe_gather {ps : List (Particle V)} (h : Populated (Particle.Fits d P) ps) :
    Run.Safe A w (gather m settings host ps) (State.Fits d P) := by
  refine Run.Safe.bind (safe_sort hsort h) fun sorted _ hsorted => ?_
  refine Run.Safe.bind (hsorted.safe_head _) fun leader _ hleader => ?_
  exact Run.Safe.pure ⟨hsorted, hleader.position⟩

theorem safe_absorb {s : State V} (hs : s.Fits d P) {ps : List (Particle V)}
    (h : Populated (Particle.Fits d P) ps) :
    Run.Safe A w (absorb m settings host s ps) fun (s', _) => s'.Fits d P := by
  refine Run.Safe.bind (safe_sort hsort h) fun sorted _ hsorted => ?_
  refine Run.Safe.bind (hsorted.safe_head _) fun leader _ hleader => ?_
  refine Run.Safe.bind (Run.Safe.refresh _ _ _ _) fun elite _ _ => Run.Safe.pure ⟨hsorted, ?_⟩
  dsimp only
  split
  · exact hleader.position
  · exact hs.best

end

theorem safe_appraise (hm : m.Gives P) {p : Particle V} (hp : p.Fits d P) :
    Run.Safe A w (appraise m p) (Particle.Fits d P) :=
  Run.Safe.bind (Model.safe_tryCall_evaluate hm _) fun _ _ hfitness =>
    Run.Safe.pure (hp.record m.compare hfitness)

variable [Random.Source γ]

theorem safe_explore (hm : m.Gives P) (hpos : 0.0 < settings.maxVelocity)
    (hbounds : m.bounds.length = d) {s : State V} (hs : s.Fits d P) :
    Run.Safe A w (explore m settings s) (Populated (Particle.Fits d P)) := by
  refine Run.Safe.bind (hs.particles.safe_mapM fun p _ hp _ =>
    Particle.safe_move hpos hbounds hs.best hp) fun moved _ hmoved => ?_
  exact hmoved.safe_mapM fun p _ hp _ => safe_appraise hm hp

theorem engine_safe (hm : m.Gives P) (hsort : Run.Sortable A P m.compare)
    (hpos : 0.0 < settings.maxVelocity) (hbounds : m.bounds.length = d) :
    (engine m settings host).Safe A (State.Fits d P) (Populated (Particle.Fits d P)) where
  enter _ _ _ henter hs := Option.some.inj henter ▸ hs
  explore _ _ _ hs := safe_explore hm hpos hbounds hs
  absorb _ _ _ hs hps := safe_absorb hsort hs hps

/-! ## Runs -/

theorem safe_launch {c : Candidate V} (hc : c.Fits m.dimension P) :
    Run.Safe A w (launch m settings c) (Particle.Fits m.dimension P) := by
  refine Run.Safe.bind (P := fun velocity => velocity.length = m.dimension) ?_
    fun velocity _ hvelocity => ?_
  · refine Run.Safe.mono (Run.Safe.mapM (R := fun _ _ => True) fun _ _ _ => ?_)
      fun velocity hvelocity => ?_
    · exact Run.Safe.bind (Run.Safe.draw (Random.Yields.any _)) fun _ _ _ =>
        Run.Safe.pure trivial
    · rw [← hvelocity.length_eq, List.length_range]
  · unfold Particle.ofState
    rw [if_pos (hc.position.trans hvelocity.symm)]
    exact Run.Safe.pure ⟨hc.position, hvelocity, hc.position, hc.fitness⟩

theorem safe_start (hm : m.Gives P) (hsort : Run.Sortable A P m.compare)
    (hcheck : settings.check = .ok ()) (h : m.StartsWell settings.particleAmount w) :
    Run.Safe A w (start m settings host) (State.Fits m.dimension P) := by
  obtain ⟨hpos, -⟩ := Settings.check_eq_ok.mp hcheck
  refine Run.Safe.bind ?_ fun ps _ hps => safe_gather hsort hps
  refine Run.Safe.bind (Model.safe_startingPositions h hpos) fun xs _ hxs => ?_
  refine Run.Safe.bind (Model.safe_evaluateAll hm hxs) fun cs _ hcs => ?_
  exact hcs.safe_mapM fun c _ hc _ => safe_launch hc

/-- **A run of a swarm** with checked settings is safe after a good start. -/
theorem safe_run (hcheck : settings.check = .ok ()) (h : m.StartsWell settings.particleAmount w)
    (host : Host σ) (rounds : Nat) (hm : m.Gives P) (hsort : Run.Sortable A P m.compare) :
    Run.Safe A w (run m settings host rounds) fun _ => True := by
  refine Run.Safe.require hcheck ?_
  refine Run.Safe.bind (safe_start hm hsort hcheck h) fun s _ hs => ?_
  exact Search.safe_result (engine_safe hm hsort (Settings.maxVelocity_pos hcheck)
    h.dimension.symm) rounds hs _

/-- **A swarm with a bad start** ends there, after the candidates have been asked for. -/
theorem run_of_startsBadly (hcheck : settings.check = .ok ()) {broken : Violation}
    (h : m.StartsBadly settings.particleAmount w broken) (host : Host σ) (rounds : Nat) :
    (run m settings host rounds).exec w
      = (.error (.violation broken), (m.initial settings.particleAmount w).2) := by
  unfold run
  rw [Run.exec_require hcheck]
  have hstart := Model.exec_startingPositions_of_startsBadly h
  have hpopulate : (populate m settings).exec w = _ := Run.bind_eq_error.mpr (Or.inl hstart)
  exact Run.bind_eq_error.mpr (Or.inl (Run.bind_eq_error.mpr (Or.inl hpopulate)))

end Metaheuristics.Swarm
