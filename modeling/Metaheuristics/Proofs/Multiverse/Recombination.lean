import Metaheuristics.Proofs.Multiverse.Box
import Metaheuristics.Proofs.Multiverse.Steps
import Metaheuristics.Proofs.Random.Fractions

/-!
# Recombination

A position recombines some others when each of its coordinates is one that they offer in the same
dimension (`Recombines`).  Where the probability of a wormhole is zero at both ends of a run, it is
zero throughout or not a number, so that no wormhole opens (`not_lt_wormholeProbability`).  Then a
coordinate is kept or comes out of a white hole, and clamping leaves it alone
(`Axis.ensures_move_offers`).  So the next generation recombines what the present one does, and the
universes of a run recombine its starting candidates, wherever it gets to
(`recombines_of_visits`).
-/

namespace Metaheuristics

variable {γ σ V : Type}

/-! ## Offered values -/

/-- **A value that one of the positions has** in a dimension. -/
def Offers (starts : List Position) (d : Nat) (v : Float) : Prop := ∃ x ∈ starts, x[d]? = some v

/-- **A position in the box** whose coordinates are offered by some positions, dimension by
dimension. -/
structure Recombines (bounds : List Bound) (starts : List Position) (x : Position) : Prop where
  inBox : InBox bounds x
  offers : ∀ d v, x[d]? = some v → Offers starts d v

/-- **Candidates at such positions.** -/
def AllRecombine (bounds : List Bound) (starts : List Position) (cs : List (Candidate V)) : Prop :=
  ∀ c ∈ cs, Recombines bounds starts c.position

section
variable {bounds : List Bound} {starts : List Position} {x : Position}

theorem Recombines.of_mem (hstarts : ∀ x ∈ starts, InBox bounds x) (hx : x ∈ starts) :
    Recombines bounds starts x :=
  ⟨hstarts x hx, fun _ _ hv => ⟨x, hx, hv⟩⟩

theorem AllRecombine.sort {cs : List (Candidate V)} (h : AllRecombine bounds starts cs)
    (compare : Candidate V → Candidate V → Ordering) :
    AllRecombine bounds starts (Ranking.sort compare cs) :=
  fun c hc => h c (Ranking.mem_sort.mp hc)

theorem AllRecombine.take {cs : List (Candidate V)} (h : AllRecombine bounds starts cs) (k : Nat) :
    AllRecombine bounds starts (cs.take k) := fun c hc => h c (List.mem_of_mem_take hc)

theorem AllRecombine.of_settle {m : Model γ σ V} {xs : List Position} {cs : List (Candidate V)}
    (hxs : ∀ x ∈ xs, Recombines bounds starts x) {w w' : World γ σ}
    (h : (m.settle xs).exec w = (.ok cs, w')) : AllRecombine bounds starts cs :=
  fun _ hc => hxs _ (Model.position_mem_of_settle h hc)

end

namespace Multiverse

open Arithmetic

variable {I : σ → Prop} {m : Model γ σ V} {settings : Settings} {host : Host σ}

/-! ## No wormholes -/

/-- Settings with no wormholes at the start and none at the end. -/
structure Settings.NoWormholes (s : Settings) : Prop where
  least : (s.leastWormholes == 0.0) = true
  most : (s.mostWormholes == 0.0) = true

theorem Settings.NoWormholes.not_lt_wormholeProbability (h : settings.NoWormholes) {r : Float}
    (hr : 0.0 ≤ r) (progress : Float) : ¬ r < settings.wormholeProbability progress := by
  have hleast := steps_of_beq_zero h.least
  have hrise : steps (settings.mostWormholes - settings.leastWormholes) = some 0 := by
    have hsub := standsFor_sub (steps_of_beq_zero h.most) hleast
    rw [Int.sub_zero, Int.zero_mul, roundSteps_zero] at hsub
    exact hsub.steps_of_steps hasUnits_zero.steps
  unfold Settings.wormholeProbability
  rcases isNaN_or_steps_zero_mul hrise progress with hnan | hzero
  · -- the progress is infinite or not a number
    intro hlt
    have hnumber := (isNaN_of_le (le_of_lt hlt)).2
    rw [isNaN_add_right hnan] at hnumber
    cases hnumber
  · have hsum := standsFor_add hleast hzero
    rw [Int.add_zero, Int.zero_mul, roundSteps_zero] at hsum
    exact not_lt_of_le (le_trans (hsum.nonpos (le_refl 0)) hr)

/-! ## One coordinate -/

variable [Random.Source γ]

/-- No wormhole opens where no fraction is below the probability of one. -/
theorem Axis.ensures_travel {passage : Passage V}
    (hclosed : ∀ r, 0.0 ≤ r → ¬ r < passage.wormholeProbability) (inherited : Float)
    (axis : Axis) : Run.Ensures (γ := γ) I (axis.travel passage inherited) (· = inherited) := by
  refine Run.Ensures.bind (P := fun r => 0.0 ≤ r ∧ r ≤ 1.0) (Run.Ensures.drawn Random.unit_mem)
    fun existence hexistence => ?_
  exact Run.Ensures.ite (fun hopens => absurd hopens (hclosed existence hexistence.1))
    fun _ => Run.Ensures.pure rfl

variable {math : Elementary} {bounds : List Bound} {starts : List Position} {passage : Passage V}

theorem Axis.ensures_move_offers (hstarts : ∀ x ∈ starts, InBox bounds x)
    (hclosed : ∀ r, 0.0 ≤ r → ¬ r < passage.wormholeProbability)
    (huniverses : AllRecombine bounds starts passage.universes) {axis : Axis}
    (hbound : bounds[axis.index]? = some axis.bound)
    (hposition : Offers starts axis.index axis.position) (rate : Float) :
    Run.Ensures (γ := γ) I (axis.move settings math passage rate) (Offers starts axis.index) := by
  refine Run.Ensures.bind (P := Offers starts axis.index) ?_ fun inherited hinherited => ?_
  · refine Run.Ensures.bind (Run.Ensures.draw _) fun inflation _ => ?_
    refine Run.Ensures.ite (fun _ => ?_) fun _ => Run.Ensures.pure hposition
    refine Run.Ensures.bind (Run.Ensures.tryDraw _) fun i _ => ?_
    refine Run.Ensures.expect fun v hv => ?_
    -- the white hole leads to the same dimension of some universe
    obtain ⟨source, hsource, hvalue⟩ := Option.bind_eq_some_iff.mp hv
    exact (huniverses source (List.mem_of_getElem? hsource)).offers axis.index v hvalue
  · refine Run.Ensures.bind (Axis.ensures_travel hclosed inherited axis) ?_
    rintro _ rfl
    obtain ⟨x, hx, hvalue⟩ := hinherited
    refine Run.Ensures.pure ?_
    rw [Bound.clamp_of_holds ((hstarts x hx).holds hbound hvalue)]
    exact ⟨x, hx, hvalue⟩

/-! ## Universes -/

/-- **A universe moves to a recombination** of what it and the others recombine. -/
theorem ensures_transform_recombines (hstarts : ∀ x ∈ starts, InBox bounds x)
    (hclosed : ∀ r, 0.0 ≤ r → ¬ r < passage.wormholeProbability)
    (huniverses : AllRecombine bounds starts passage.universes) (best : Position)
    {u : Candidate V} (hu : Recombines bounds starts u.position) (rate : Float) :
    Run.Ensures (γ := γ) I (transform settings math bounds passage best u rate)
      (Recombines bounds starts) := by
  have hinBox : Run.Ensures (γ := γ) I (transform settings math bounds passage best u rate)
    (InBox (bounds.take u.position.length)) := ensures_transform bounds passage best u rate
  rw [hu.inBox.take_length] at hinBox
  refine Run.Ensures.mono (Run.Ensures.and hinBox ?_) fun x hx => ⟨hx.1, hx.2⟩
  refine Run.Ensures.bind (Run.Ensures.expect fun axes haxes => haxes) fun axes haxes => ?_
  have hmove : ∀ axis ∈ axes, Run.Ensures (γ := γ) I (axis.move settings math passage rate)
      (Offers starts axis.index) := by
    intro axis haxis
    obtain ⟨d, hd⟩ := List.mem_iff_getElem?.mp haxis
    obtain ⟨hindex, hbound, hposition⟩ := Axis.getElem?_of_ofLists haxes hd
    obtain rfl : axis.index = d := by rw [hindex, Nat.zero_add]
    exact Axis.ensures_move_offers hstarts hclosed huniverses hbound
      (hu.offers _ _ hposition) rate
  refine Run.Ensures.mono (Run.Ensures.mapM hmove) fun x hx d v hv => ?_
  obtain ⟨axis, haxis, hoffers⟩ := exists_getElem?_of_forall₂ hx hv
  obtain ⟨hindex, -, -⟩ := Axis.getElem?_of_ofLists haxes haxis
  rwa [hindex, Nat.zero_add] at hoffers

/-! ## Generations -/

/-- **A multiverse that recombines** what some positions offer. -/
structure State.Recombined (bounds : List Bound) (starts : List Position) (s : State V) : Prop where
  universes : AllRecombine bounds starts s.universes
  best : Recombines bounds starts s.best.position
  elite : AllRecombine bounds starts s.elite

section
omit [Random.Source γ]

theorem recombined_of_start {w v : World γ σ} {s : State V}
    (hinside : ∀ x ∈ (m.initial settings.universeAmount w).1, InBox m.bounds x)
    (h : (start m settings host).exec w = (.ok s, v)) :
    s.Recombined m.bounds (m.initial settings.universeAmount w).1 := by
  obtain ⟨us, u, hpopulate, hgather⟩ := Run.bind_eq_ok.mp h
  obtain ⟨xs, u', hxs, hsettle⟩ := Run.bind_eq_ok.mp hpopulate
  obtain ⟨hinitial, -⟩ := Model.startingPositions_eq_ok hxs
  rw [hinitial] at hinside ⊢
  have hus : AllRecombine m.bounds xs us :=
    AllRecombine.of_settle (fun x hx => Recombines.of_mem hinside hx) hsettle
  have hranked : AllRecombine m.bounds xs (rank m us) := hus.sort _
  obtain ⟨best, hbest, rfl, -⟩ := gather_eq_ok hgather
  exact ⟨hranked, hranked best (List.mem_of_head? hbest), hranked.take _⟩

theorem ensures_absorb_recombines {s : State V} (hs : s.Recombined m.bounds starts)
    {us : List (Candidate V)} (hus : AllRecombine m.bounds starts us) :
    Run.Ensures (γ := γ) (fun _ => True) (absorb m settings host s us)
      fun (s', _) => s'.Recombined m.bounds starts := by
  have hranked : AllRecombine m.bounds starts (rank m us) := hus.sort _
  refine Run.Ensures.bind (Run.Ensures.sort host _ us) ?_
  rintro _ rfl
  refine Run.Ensures.bind (Run.Ensures.expect fun leader hleader => hleader) fun leader hleader => ?_
  refine Run.Ensures.bind (Run.Ensures.refresh _ _ _ _) ?_
  rintro _ rfl
  refine Run.Ensures.pure ⟨hranked, ?_, fun c hc => ?_⟩
  · dsimp only
    split
    · exact hranked leader (List.mem_of_head? hleader)
    · exact hs.best
  · exact (Elite.mem_of_mem_refresh hc).elim (hs.elite c) (hranked.take _ c)

end

theorem ensures_explore_recombines (hclosed : settings.NoWormholes)
    (hstarts : ∀ x ∈ starts, InBox m.bounds x) (progress : Float) {s : State V}
    (hs : s.Recombined m.bounds starts) :
    Run.Ensures (γ := γ) (fun _ => True) (explore m settings math progress s)
      (AllRecombine m.bounds starts) := by
  have hnone : ∀ r, 0.0 ≤ r → ¬ r < (passage m settings math progress s).wormholeProbability := by
    intro r hr
    unfold passage
    exact hclosed.not_lt_wormholeProbability hr progress
  refine Run.Ensures.bind (Run.Ensures.mapM fun pair hpair =>
    Run.Ensures.bind (P := fun _ => True) (Run.Ensures.expect fun _ _ => trivial) fun rate _ =>
      ensures_transform_recombines hstarts hnone hs.universes s.best.position
        (hs.universes pair.1 (List.fst_mem_of_mem_zipIdx hpair)) rate) fun xs hxs => ?_
  refine fun w _ => ⟨trivial, fun us hus => ?_⟩
  refine AllRecombine.of_settle (fun x hx => ?_) (Prod.ext hus rfl)
  obtain ⟨_, -, hx⟩ := exists_of_forall₂ hxs hx
  exact hx

theorem engine_recombines (hclosed : settings.NoWormholes)
    (hstarts : ∀ x ∈ starts, InBox m.bounds x) (host : Host σ) :
    (engine (γ := γ) m settings host).Keeps (fun _ => True) (State.Recombined m.bounds starts)
      (AllRecombine m.bounds starts) where
  enter _ _ _ henter hs := Option.some.inj henter ▸ hs
  explore _ _ hs := Run.Ensures.get fun _ => ensures_explore_recombines hclosed hstarts _ hs
  absorb _ _ hs hus := ensures_absorb_recombines hs hus

/-- **Without wormholes a run recombines its starting candidates**, wherever it gets to. -/
theorem recombines_of_visits (hclosed : settings.NoWormholes) {host : Host σ} {w v : World γ σ}
    (hinside : ∀ x ∈ (m.initial settings.universeAmount w).1, InBox m.bounds x) {stop : Bool}
    {p : Progress V (State V)} (h : Visits m settings host w stop p v) :
    p.engine.Recombined m.bounds (m.initial settings.universeAmount w).1 := by
  obtain ⟨-, s, v₀, hs, hreaches⟩ := h
  exact (hreaches.keeps m.confined_true.toKeeps (engine_recombines hclosed hinside host) trivial
    (recombined_of_start hinside hs)).2

end Multiverse

end Metaheuristics
