import Metaheuristics.Proofs.Runs.Guarantees
import Metaheuristics.Proofs.Search.Reach

/-!
# Guarantees of searches

An engine keeps a property `K` of its states when it explores, from a state with `K`, batches with
some property `L` only, and absorbs such batches into states with `K` (`Engine.Keeps`).  Such a
property holds wherever a search gets to (`Search.Reaches.keeps`), and a whole search keeps it, and
with it what the callbacks keep of the caller's state (`Search.ensures_run`).
-/

namespace Metaheuristics

variable {γ σ V S B : Type}

/-- **An engine keeps `K`** of its states, by batches with `L`, and `I` of the caller's state. -/
structure Engine.Keeps (I : σ → Prop) (K : S → Prop) (L : B → Prop) (e : Engine γ σ V S B) :
    Prop where
  enter : ∀ k s s', e.enter k s = some s' → K s → K s'
  explore : ∀ t s, K s → Run.Ensures I (e.explore t s) L
  absorb : ∀ s b, K s → L b → Run.Ensures I (e.absorb s b) fun (s', _) => K s'

/-- **A model keeps `I`** of the caller's state when it is told of the end of an iteration. -/
structure Model.Keeps (I : σ → Prop) (m : Model γ σ V) : Prop where
  flush : ∀ s, I s → I (m.flush s).2
  observe : ∀ t best s, I s → I (m.observe t best s).2

namespace Search

variable {I : σ → Prop} {K : S → Prop} {L : B → Prop} {host : Host σ} {m : Model γ σ V}
  {criteria : StopCriteria} {e : Engine γ σ V S B}

theorem ensures_iterate (hm : m.Keeps I) (he : e.Keeps I K L) {s : S} (hs : K s)
    (p : Progress V S) : Run.Ensures I (iterate m e p s) fun (p', _) => K p'.engine := by
  refine Run.Ensures.bind (he.explore p.tracker s hs) fun batch hbatch => ?_
  refine Run.Ensures.bind (he.absorb s batch hs hbatch) fun (s', better) hs' => ?_
  refine Run.Ensures.bind (Run.Ensures.call (P := fun _ => True) fun st hst =>
    ⟨hm.flush st hst, trivial⟩) fun _ _ => ?_
  refine Run.Ensures.bind (Run.Ensures.call (P := fun _ => True) fun st hst =>
    ⟨hm.observe _ _ st hst, trivial⟩) fun _ _ => ?_
  exact Run.Ensures.pure hs'

theorem ensures_loop (hm : m.Keeps I) (he : e.Keeps I K L) (rounds : Nat) {p : Progress V S}
    (hp : K p.engine) : Run.Ensures I (loop host m criteria e rounds p)
      fun result => ∀ reason p', result = some (reason, p') → K p'.engine := by
  induction rounds generalizing p with
  | zero => exact Run.Ensures.pure fun _ _ h => by cases h
  | succ rounds ih =>
    refine Run.Ensures.get fun w => ?_
    rcases hv : verdict host criteria e p w.state with reason | s
    · refine Run.Ensures.pure fun reason' p' heq => ?_
      obtain ⟨-, rfl⟩ := Prod.mk.inj (Option.some.inj heq)
      exact hp
    · have hs : K s := he.enter _ _ _ (enter_of_verdict hv) hp
      refine Run.Ensures.bind (ensures_iterate hm he hs p) fun (p', stop) hp' => ?_
      refine Run.Ensures.ite (fun _ => Run.Ensures.pure fun reason q heq => ?_) fun _ => ih hp'
      obtain ⟨-, rfl⟩ := Prod.mk.inj (Option.some.inj heq)
      exact hp'

/-- **What every iteration keeps** holds wherever a search gets to. -/
theorem Reaches.keeps (hm : m.Keeps I) (he : e.Keeps I K L) {p₀ p : Progress V S}
    {w₀ w : World γ σ} {stop : Bool} (h : Reaches host m criteria e p₀ w₀ stop p w)
    (hw₀ : I w₀.state) (hp₀ : K p₀.engine) : I w.state ∧ K p.engine := by
  induction h with
  | start => exact ⟨hw₀, hp₀⟩
  | step _ henters hiterates ih =>
    have hs := he.enter _ _ _ (enter_of_verdict henters) ih.2
    exact (ensures_iterate hm he hs _).of_ok ih.1 hiterates

theorem ensures_run (hm : m.Keeps I) (he : e.Keeps I K L) (rounds : Nat) {s : S} (hs : K s) :
    Run.Ensures I (run host m criteria e rounds s)
      fun result => ∀ reason p, result = some (reason, p) → K p.engine :=
  ensures_loop hm he rounds hs

theorem ensures_result (hm : m.Keeps I) (he : e.Keeps I K L) (rounds : Nat) {s : S} (hs : K s)
    {α : Type} {read : StopReason × Progress V S → α} {Q : α → Prop}
    (hread : ∀ reason p, K p.engine → Q (read (reason, p))) :
    Run.Ensures I (do
        let result ← run host m criteria e rounds s
        return result.map read)
      fun result => ∀ a, result = some a → Q a := by
  refine Run.Ensures.bind (ensures_run hm he rounds hs) fun result hresult => ?_
  refine Run.Ensures.pure fun a ha => ?_
  obtain ⟨⟨reason, p⟩, rfl, rfl⟩ := Option.map_eq_some_iff.mp ha
  exact hread reason p (hresult reason p rfl)

end Search

end Metaheuristics
