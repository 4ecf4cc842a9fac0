import Metaheuristics.Proofs.Annealing.Moves
import Metaheuristics.Proofs.Annealing.Translation
import Metaheuristics.Proofs.Model.Ordered
import Metaheuristics.Proofs.Search.Watching
import Metaheuristics.Proofs.Settings.Checks

/-!
# The best point of a chain

On a model that orders its fitness, the best point of the chain is the first of the elite wherever a
run gets to, and no point that has been tried, accepted or not, is better (`tracks_of_visits`).

The chain notes its best point trial by trial, and the elite sees the accepted points of an
iteration only sorted and all at once.  Both find the same point: the best one of the chain is the
better one, time after time, of the one before and the accepted points (`Batch.Tracks.best`), and so
is the first of the elite.  A point that is not accepted is no better than the current one, and that
is no better than the best one.
-/

namespace Metaheuristics.Annealing

variable {γ σ V : Type} {P : Option V → Prop} {m : Model γ σ V} {settings : Settings}

/-! ## Trials -/

/-- **What the trials of an iteration have found** when it began at the best point `b₀`. -/
structure Batch.Tracks (P : Option V → Prop) (m : Model γ σ V) (b₀ : Candidate V) (b : Batch V)
    (seen : List (Candidate V)) : Prop where
  best : b.chain.best.toCandidate = b.accepted.toList.foldl (preferred m.compareCandidates) b₀
  accepted : ∀ c ∈ b.accepted.toList, P c.fitness
  ordered : P (some b.chain.best.fitness)
  current : P (some b.chain.current.fitness) ∧
    m.compare (some b.chain.best.fitness) (some b.chain.current.fitness) ≠ .gt
  least : ∀ c ∈ seen, P c.fitness ∧ m.compare (some b.chain.best.fitness) c.fitness ≠ .gt

/-- One more point tried: it is accepted when it improves on the current one. -/
theorem Batch.Tracks.step (hm : m.Ordered P) {b₀ : Candidate V} {b : Batch V}
    {seen : List (Candidate V)} (h : b.Tracks P m b₀ seen) {p : Point V}
    (hp : P (some p.fitness)) {accepted : Bool}
    (haccepted : m.isBetter (some p.fitness) (some b.chain.current.fitness) = true →
      accepted = true) :
    (if accepted then b.accept m settings p
      (m.isBetter (some p.fitness) (some b.chain.current.fitness)) else b).Tracks P m b₀
        (seen ++ [p.toCandidate]) := by
  cases accepted
  case false =>
    rw [if_neg Bool.false_ne_true]
    have hworse : m.compare (some b.chain.current.fitness) (some p.fitness) ≠ .gt := by
      refine (hm.preorder.ne_gt_iff h.current.1 hp).mpr fun hlt => ?_
      exact Bool.false_ne_true (haccepted (by rw [Model.isBetter, hlt]; rfl))
    refine ⟨h.best, h.accepted, h.ordered, h.current, fun c hc => ?_⟩
    rcases List.mem_append.mp hc with hc | hc
    · exact h.least c hc
    · rw [List.mem_singleton.mp hc]
      exact ⟨hp, hm.preorder.trans _ _ _ h.ordered h.current.1 hp h.current.2 hworse⟩
  case true =>
    rw [if_pos rfl]
    obtain ⟨hpush, hcurrent, hbest⟩ := Batch.accept_eq m settings b p
      (m.isBetter (some p.fitness) (some b.chain.current.fitness))
    generalize b.accept m settings p _ = b' at hpush hcurrent hbest ⊢
    obtain ⟨hle, hlep⟩ := preferred_le hm.candidates (x := b.chain.best.toCandidate)
      (y := p.toCandidate) h.ordered hp
    have hordered : P (preferred m.compareCandidates b.chain.best.toCandidate _).fitness :=
      preferred_of (P := fun c : Candidate V => P c.fitness) (y := p.toCandidate) h.ordered hp
    rw [← hbest] at hle hlep hordered
    refine ⟨?_, fun c hc => ?_, hordered, ?_, fun c hc => ?_⟩
    · rw [hbest, hpush, Array.toList_push, List.foldl_append, ← h.best]
      rfl
    · rw [hpush, Array.toList_push] at hc
      rcases List.mem_append.mp hc with hc | hc
      · exact h.accepted c hc
      · rw [List.mem_singleton.mp hc]
        exact hp
    · rw [hcurrent]
      exact ⟨hp, hlep⟩
    · rcases List.mem_append.mp hc with hc | hc
      · obtain ⟨hcP, hcle⟩ := h.least c hc
        exact ⟨hcP, hm.preorder.trans _ _ _ hordered h.ordered hcP hle hcle⟩
      · rw [List.mem_singleton.mp hc]
        exact ⟨hp, hlep⟩

section
variable [Random.Source γ] {math : Elementary} {w w' : World γ (σ × List (Call V))}

theorem Batch.Tracks.trial (hm : m.Ordered P) {b₀ : Candidate V} {b b' : Batch V}
    {temperature : Float}
    (h : (Annealing.trial m.watched settings math temperature b).exec w = (.ok b', w'))
    (htracks : b.Tracks P m b₀ ((evaluated w.state.2).map m.complete)) :
    b'.Tracks P m b₀ ((evaluated w'.state.2).map m.complete) := by
  obtain ⟨x, v, fitness, v', accepted, hx, hfitness, haccepted, rfl⟩ := trial_eq_ok h
  have hstate : v.state = w.state := Run.Ensures.state_eq
    (fun I => ensures_perturb m.bounds b.chain.step b.chain.current.position) hx
  have haccepts (I : σ × List (Call V) → Prop) :=
    ensures_accepts (I := I) m.watched math temperature
      (m.isBetter (some (m.present fitness)) (some b.chain.current.fitness))
      b.chain.current.fitness (m.present fitness)
  have hstate' : w'.state = v'.state := Run.Ensures.state_eq haccepts haccepted
  have himproving := ((haccepts fun _ => True).of_ok trivial haccepted).2
  have hP : P (some (m.present fitness)) :=
    hm.present (hm.watched.tryCall_evaluate hfitness)
  rw [hstate', Model.tryCall_evaluate_eq_ok hfitness, hstate, List.map_append]
  exact htracks.step hm hP himproving

theorem Batch.Tracks.trials (hm : m.Ordered P) {b₀ : Candidate V} {temperature : Float}
    {amount : Nat} {b b' : Batch V}
    (h : (Annealing.trials m.watched settings math temperature amount b).exec w = (.ok b', w'))
    (htracks : b.Tracks P m b₀ ((evaluated w.state.2).map m.complete)) :
    b'.Tracks P m b₀ ((evaluated w'.state.2).map m.complete) := by
  induction amount generalizing b w with
  | zero =>
    obtain ⟨rfl, rfl⟩ := Run.pure_eq_ok.mp h
    exact htracks
  | succ amount ih =>
    obtain ⟨b'', v, htrial, h⟩ := Run.bind_eq_ok.mp h
    exact ih h (htracks.trial hm htrial)

end

/-! ## Runs -/

/-- **The best point leads**, and the current point is no better. -/
structure State.Tracks (P : Option V → Prop) (m : Model γ σ V) (s : State V)
    (seen : List (Candidate V)) : Prop where
  leads : m.Leads P s.chain.best.toCandidate s.elite seen
  current : P (some s.chain.current.fitness) ∧
    m.compare (some s.chain.best.fitness) (some s.chain.current.fitness) ≠ .gt

theorem State.Tracks.begin {s : State V} {seen : List (Candidate V)} (h : s.Tracks P m seen) :
    (⟨s.chain, #[], false⟩ : Batch V).Tracks P m s.chain.best.toCandidate seen :=
  ⟨rfl, fun c hc => absurd hc (by simp), h.leads.ordered, h.current, h.leads.least⟩

/-- **The elite finds the same best point** in the accepted points as the chain. -/
theorem State.Tracks.absorbed (hm : m.Ordered P) (hcapacity : 0 < settings.solutionAmount)
    {s : State V} {b : Batch V} {seen seen' : List (Candidate V)} (h : s.Tracks P m seen)
    (hb : b.Tracks P m s.chain.best.toCandidate seen') :
    (s.absorbed m settings b).Tracks P m seen' := by
  refine ⟨⟨?_, hb.ordered, hb.least⟩, hb.current⟩
  show (Elite.refresh _ s.elite _ _).head? = some b.chain.best.toCandidate
  rw [hb.best]
  obtain ⟨rest, helite⟩ := List.head?_eq_some_iff.mp h.leads.head
  have haccepted := hb.accepted
  rw [helite]
  rcases hlist : b.accepted.toList with _ | ⟨a, l⟩ <;> rw [hlist] at haccepted
  · rw [show Ranking.sort m.compareCandidates [] = [] from rfl, List.take_nil]
    exact Elite.head?_refresh_nil hcapacity
  · have hhead := Ranking.head?_sort hm.candidates haccepted
    obtain ⟨rest', hsort⟩ := List.head?_eq_some_iff.mp hhead
    obtain ⟨k, hk⟩ : ∃ k, settings.solutionAmount = k + 1 :=
      ⟨settings.solutionAmount - 1, by omega⟩
    rw [hsort, hk, List.take_succ_cons, Elite.head?_refresh (Nat.succ_pos k),
      preferred_foldl hm.candidates h.leads.ordered (haccepted a (by simp))
        fun c hc => haccepted c (by simp [hc])]

section
variable {w w' : World γ (σ × List (Call V))}

theorem populate_eq_ok (hm : m.Ordered P) {cs : List (Candidate V)}
    (h : (populate m.watched settings).exec w = (.ok cs, w')) :
    (evaluated w'.state.2).map m.complete = (evaluated w.state.2).map m.complete ++ cs ∧
      ∀ c ∈ cs, P c.fitness := by
  obtain ⟨positions, v, hpositions, h⟩ := Run.bind_eq_ok.mp h
  rw [← Model.startingPositions_evaluated hpositions]
  exact hm.settle_eq_ok h

theorem ordered_of_populate (hm : m.Ordered P) {u u' : World γ σ} {cs : List (Candidate V)}
    (h : (populate m settings).exec u = (.ok cs, u')) : ∀ c ∈ cs, P c.fitness := by
  obtain ⟨positions, v, -, h⟩ := Run.bind_eq_ok.mp h
  exact hm.settle h

theorem fitness_of_populate {u u' : World γ σ} {cs : List (Candidate V)}
    (h : (populate m settings).exec u = (.ok cs, u')) :
    ∀ c ∈ cs, c.fitness = some (m.present c.fitness) := by
  obtain ⟨positions, v, hpositions, h⟩ := Run.bind_eq_ok.mp h
  obtain ⟨cs', hcs, rfl⟩ := Model.settle_eq_ok h
  intro c hc
  obtain ⟨c', -, rfl⟩ := List.mem_map.mp hc
  rfl

theorem Visits.history [Random.Source γ] {host : Host σ} {w₀ w : World γ σ} {stop : Bool}
    {p : Progress V (State V)} (h : Visits m settings host w₀ stop p w) : p.tracker.iteration = 0 ∨
      p.history.toList.getLast? = some (m.present (some p.engine.chain.best.fitness)) := by
  obtain ⟨-, -, s, v₀, -, hreaches⟩ := h
  exact hreaches.history

theorem Visits.watched [Random.Source γ] {host : Host σ} {w u : World γ σ} {stop : Bool}
    {p : Progress V (State V)} (h : Visits m settings host w stop p u) :
    ∃ v, Visits m.watched settings host.watched w.watched stop p v := by
  obtain ⟨q, v, hq, hp, -⟩ := Visits.of_translates settings m.watched_translates
    host.watched_translates (w := w.watched) h
  rw [Progress.map_id State.map_id] at hp
  exact ⟨v, hp ▸ hq⟩

/-- **The best point of the chain leads** wherever a run gets to. -/
theorem tracks_of_visits [Random.Source γ] (hm : m.Ordered P) {host : Host σ} {w₀ : World γ σ}
    {stop : Bool} {p : Progress V (State V)}
    (h : Visits m.watched settings host.watched w₀.watched stop p w) :
    p.engine.Tracks P m ((evaluated w.state.2).map m.complete) := by
  obtain ⟨hcheck, -, s, v, hs, hreaches⟩ := h
  have hcapacity : 0 < settings.solutionAmount := by
    obtain ⟨-, -, -, -, -, -, -, -, -, hpos⟩ := Settings.check_eq_ok.mp hcheck
    exact hpos
  induction hreaches with
  | start =>
    obtain ⟨cs, u, hcs, hgather⟩ := Run.bind_eq_ok.mp hs
    obtain ⟨leader, hleader, rfl, rfl⟩ := gather_eq_ok hgather
    obtain ⟨hseen, hP⟩ := populate_eq_ok hm hcs
    have hmem : leader ∈ cs := Ranking.mem_sort.mp (List.mem_of_head? hleader)
    have hfitness : leader.fitness = some (m.present leader.fitness) :=
      fitness_of_populate hcs leader hmem
    have hpoint : Point.toCandidate ⟨leader.position, m.present leader.fitness⟩ = leader := by
      show Candidate.mk leader.position (some (m.present leader.fitness)) = leader
      rw [← hfitness]
    have hleads := Model.Leads.start hm hcapacity hP hleader
    rw [hseen]
    rw [← hpoint] at hleads
    refine ⟨hleads, hleads.ordered, ?_⟩
    show m.compare (some (m.present leader.fitness)) (some (m.present leader.fitness)) ≠ .gt
    rw [hm.preorder.refl (x := some (m.present leader.fitness)) hleads.ordered]
    decide
  | @step _ _ s _ _ _ _ henters hiterates ih =>
    obtain ⟨hchain, helite⟩ := cool_eq_some (Search.enter_of_verdict henters)
    obtain ⟨b, u, _, better, u', hexplore, habsorb, rfl, hseen⟩ :=
      Search.iterate_eq_ok_evaluated hiterates
    obtain ⟨-, rfl, rfl⟩ := absorb_eq_ok habsorb
    have htracks : s.Tracks P m _ :=
      ⟨by rw [hchain, helite]; exact ih.leads, by rw [hchain]; exact ih.current⟩
    rw [hseen]
    exact htracks.absorbed hm hcapacity (htracks.begin.trials hm hexplore)

end

end Metaheuristics.Annealing
