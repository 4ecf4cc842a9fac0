import Metaheuristics.Proofs.Runs.Draws
import Metaheuristics.Proofs.Swarm.Safety

/-!
# What a swarm draws

A coordinate takes two words in a move, one for each pull, and nothing else in an iteration draws
(`takes_iterate`).  At the start each particle takes one word for each coordinate of its velocity,
after the words of the starting candidates.  What the objective and the constraints say, how the
particles are ranked and which of them find something better has no part in this.
-/

namespace Metaheuristics.Swarm

open Metaheuristics.Random

variable {γ σ V : Type} [Source γ] {m : Model γ σ V} {settings : Settings}
  {host : Host σ} {P : Option V → Prop} {d : Nat}

/-! ## Moves -/

theorem Axis.isDraw_move (hpos : 0.0 < settings.maxVelocity) (axis : Axis) :
    Run.IsDraw (γ := γ) (σ := σ) 2 (axis.move settings) := by
  have hunit : Run.IsDraw (γ := γ) (σ := σ) 1 (Run.draw unit) := Run.IsDraw.draw takes_unit
  refine hunit.bind (n := 1) fun r₁ => hunit.bind (n := 0) fun r₂ => ?_
  obtain ⟨v, hv⟩ := exists_limit? hpos (axis.steer settings r₁ r₂)
  rw [hv]
  exact Run.IsDraw.pure _

theorem Particle.isDraw_move (hpos : 0.0 < settings.maxVelocity) {bounds : List Bound}
    {shared : Position} {p : Particle V} (hbounds : bounds.length = d)
    (hshared : shared.length = d) (hp : p.Fits d P) :
    Run.IsDraw (γ := γ) (σ := σ) (d * 2) (p.move settings bounds shared) := by
  obtain ⟨axes, haxes⟩ := Axis.exists_ofLists (hbounds.trans hp.position.symm)
    (hp.velocity.trans hp.position.symm) (hp.best.trans hp.position.symm)
    (hshared.trans hp.position.symm)
  have hlength : axes.length = d := (Axis.bounds_of_ofLists haxes).2.trans hp.position
  have hmoves : Run.IsDraw (γ := γ) (σ := σ) (axes.length * 2) (axes.mapM (Axis.move settings)) :=
    Run.IsDraw.mapM fun axis _ => Axis.isDraw_move hpos axis
  unfold Particle.move
  rw [haxes, ← hlength]
  exact hmoves.bind fun moved => Run.IsDraw.pure _

/-! ## Iterations -/

/-- **A swarm of `n` particles** of dimension `d`. -/
structure State.Manned (n d : Nat) (s : State V) : Prop where
  fits : s.Fits d fun _ => True
  length : s.particles.length = n

variable {n : Nat}

theorem takes_explore (hpos : 0.0 < settings.maxVelocity) (hbounds : m.bounds.length = d)
    {s : State V} (hs : s.Manned n d) : Run.Takes (n * (d * 2)) (explore m settings s) := by
  have hmoves : Run.IsDraw (γ := γ) (σ := σ) (s.particles.length * (d * 2))
      (s.particles.mapM (·.move settings m.bounds s.best.position)) :=
    Run.IsDraw.mapM fun p hp =>
      Particle.isDraw_move hpos hbounds hs.fits.best (hs.fits.particles.all p hp)
  rw [hs.length] at hmoves
  refine hmoves.takes.bind fun moved => Run.Takes.mapM (fun p => ?_) moved
  exact (Run.Takes.tryCall _).bind fun fitness => Run.Takes.pure _

theorem takes_absorb (s : State V) (particles : List (Particle V)) :
    Run.Takes 0 (absorb m settings host s particles) := by
  refine (Run.Takes.expect _ _).bind fun sorted => (Run.Takes.expect _ _).bind fun leader => ?_
  exact (Run.Takes.expect _ _).bind fun elite => Run.Takes.pure _

/-- An iteration takes two words for each coordinate of each particle, whatever comes of it. -/
theorem takes_iterate (hpos : 0.0 < settings.maxVelocity) (hbounds : m.bounds.length = d)
    {s : State V} (hs : s.Manned n d) (p : Progress V (State V)) :
    Run.Takes (n * (d * 2)) (Search.iterate m (engine m settings host) p s) := by
  refine (takes_explore hpos hbounds hs).bind fun batch => ?_
  refine (takes_absorb s batch).bind fun (s', better) => ?_
  refine (Run.Takes.call _).bind fun _ => ?_
  exact (Run.Takes.call _).bind fun stop => Run.Takes.pure _

/-! ## The start -/

theorem draws_launch {c : Candidate V} {p : Particle V} {w w' : World γ σ}
    (h : (launch m settings c).exec w = (.ok p, w')) : Draws m.dimension w w' := by
  obtain ⟨velocity, v, hvelocity, h⟩ := Run.bind_eq_ok.mp h
  have hdraws : Run.IsDraw (γ := γ) (σ := σ) ((List.range m.dimension).length * 1)
      ((List.range m.dimension).mapM fun _ => initialVelocity settings) :=
    Run.IsDraw.mapM fun _ _ => (Run.IsDraw.draw takes_unit).bind fun _ => Run.IsDraw.pure _
  rw [List.length_range, Nat.mul_one] at hdraws
  have hv := hdraws.takes.draws hvelocity
  split at h
  · obtain ⟨-, rfl⟩ := Run.pure_eq_ok.mp h
    exact hv
  · exact absurd h Run.violate_ne_ok

theorem draws_launches {cs : List (Candidate V)} {ps : List (Particle V)} {w w' : World γ σ}
    (h : (cs.mapM (launch m settings)).exec w = (.ok ps, w')) :
    Draws (cs.length * m.dimension) w w' := by
  induction cs generalizing w ps with
  | nil =>
    obtain ⟨-, rfl⟩ := Run.pure_eq_ok.mp h
    rw [List.length_nil, Nat.zero_mul]
    exact Draws.of_eq rfl
  | cons c cs ih =>
    obtain ⟨p, v, ps', hp, hps, -⟩ := Run.mapM_cons_eq_ok.mp h
    rw [List.length_cons, Nat.succ_mul, Nat.add_comm]
    exact (draws_launch hp).trans (ih hps)

theorem draws_startingPositions (hm : m.StartsUniformly) {amount : Nat} {xs : List Position}
    {w w' : World γ σ} (h : (m.startingPositions amount).exec w = (.ok xs, w')) :
    Draws (amount * extended m.bounds) w w' := by
  obtain ⟨read, hread⟩ := takes_uniform (γ := γ) m.bounds amount
  have hinitial := (Model.startingPositions_eq_ok h).1
  rw [hm amount w, hread] at hinitial
  obtain rfl := (Prod.mk.inj hinitial).2
  rfl

theorem takes_evaluateAll (m : Model γ σ V) (xs : List Position) :
    Run.Takes 0 (m.evaluateAll xs) :=
  Run.Takes.mapM (fun _ => (Run.Takes.tryCall _).bind fun _ => Run.Takes.pure _) xs

theorem draws_start (hm : m.StartsUniformly) (hcheck : settings.check = .ok ()) {s : State V}
    {w w' : World γ σ} (h : (start m settings host).exec w = (.ok s, w')) :
    s.Manned settings.particleAmount m.bounds.length ∧
      Draws (settings.particleAmount * extended m.bounds
        + settings.particleAmount * m.bounds.length) w w' := by
  obtain ⟨ps, v, hpopulate, hgather⟩ := Run.bind_eq_ok.mp h
  obtain ⟨positions, u, hpositions, hps⟩ := Run.bind_eq_ok.mp hpopulate
  obtain ⟨cs, u', hcs, hlaunches⟩ := Run.bind_eq_ok.mp hps
  have hwell := Model.startsWell_of_eq_ok hpositions
  have hfits := (safe_start (Model.gives_true m) Run.sortable_true hcheck hwell).of_ok h
  obtain ⟨leader, -, rfl, rfl⟩ := gather_eq_ok hgather
  rw [hwell.dimension] at hfits
  refine ⟨⟨hfits, (Ranking.length_sort _ _).trans (length_of_populate hpopulate)⟩, ?_⟩
  have hcount : cs.length = settings.particleAmount := by
    rw [← (Model.startingPositions_eq_ok hpositions).2.1, ← Model.evaluateAll_eq_ok hcs,
      List.length_map]
  have hvelocities := draws_launches hlaunches
  rw [hcount, hwell.dimension] at hvelocities
  have hevaluated := ((takes_evaluateAll m positions).draws hcs).trans hvelocities
  rw [Nat.zero_add] at hevaluated
  exact (draws_startingPositions hm hpositions).trans hevaluated

/-! ## Runs -/

theorem manned_iterate (hpos : 0.0 < settings.maxVelocity) (hbounds : m.bounds.length = d)
    {p p' : Progress V (State V)} {s : State V} {stop : Bool} {w w' : World γ σ}
    (hs : s.Manned n d)
    (h : (Search.iterate m (engine m settings host) p s).exec w = (.ok (p', stop), w')) :
    p'.engine.Manned n d := by
  refine ⟨(Search.safe_iterate (engine_safe (Model.gives_true m) Run.sortable_true hpos hbounds)
    hs.fits p).of_ok h, ?_⟩
  obtain ⟨batch, v, s', better, v', hexplore, habsorb, rfl, -⟩ := Search.iterate_eq_ok h
  obtain ⟨moved, u, hmoved, happraise⟩ := Run.bind_eq_ok.mp hexplore
  obtain ⟨leader, -, -, rfl, -⟩ := absorb_eq_ok habsorb
  rw [← hs.length, ← Run.length_of_mapM hmoved, ← Run.length_of_mapM happraise]
  exact Ranking.length_sort _ _

/-- **Wherever a search gets to**, each iteration has taken its words. -/
theorem draws_of_reaches (hpos : 0.0 < settings.maxVelocity) (hbounds : m.bounds.length = d)
    {criteria : StopCriteria} {s : State V} (hs : s.Manned n d)
    {w w' : World γ σ} {stop : Bool} {p : Progress V (State V)}
    (h : Search.Reaches host m criteria (engine m settings host) (Search.begin s) w stop p w') :
    p.engine.Manned n d ∧ Draws (p.tracker.iteration * (n * (d * 2))) w w' := by
  induction h with
  | start =>
    refine ⟨hs, ?_⟩
    show Draws (0 * _) w w
    rw [Nat.zero_mul]
    exact Draws.of_eq rfl
  | @step p w₁ s₁ stop p' w' head enters iterates ih =>
    obtain ⟨hmanned, hdraws⟩ := ih
    obtain rfl := Option.some.inj (Search.enter_of_verdict enters)
    refine ⟨manned_iterate hpos hbounds hmanned iterates, ?_⟩
    have hstep := hdraws.trans ((takes_iterate hpos hbounds hmanned p).draws iterates)
    obtain ⟨_, _, _, _, _, -, -, rfl, -⟩ := Search.iterate_eq_ok iterates
    rwa [← Nat.succ_mul] at hstep

/-- **Wherever a run gets to**, the words that it has drawn are counted by the particles, the
dimensions and the iterations. -/
theorem draws_of_visits (hm : m.StartsUniformly) {w w' : World γ σ} {stop : Bool}
    {p : Progress V (State V)} (h : Visits m settings host w stop p w') :
    p.engine.Manned settings.particleAmount m.bounds.length ∧
      Draws (settings.particleAmount * extended m.bounds
        + settings.particleAmount * m.bounds.length
        + 2 * settings.particleAmount * m.bounds.length * p.tracker.iteration) w w' := by
  obtain ⟨hcheck, s, v, hs, hreaches⟩ := h
  obtain ⟨hmanned, hstart⟩ := draws_start hm hcheck hs
  obtain ⟨hmanned', hiterations⟩ :=
    draws_of_reaches (Settings.maxVelocity_pos hcheck) rfl hmanned hreaches
  refine ⟨hmanned', ?_⟩
  have hcount : p.tracker.iteration * (settings.particleAmount * (m.bounds.length * 2)) =
      2 * settings.particleAmount * m.bounds.length * p.tracker.iteration := by
    ring
  rw [← hcount]
  exact hstart.trans hiterations

end Metaheuristics.Swarm
