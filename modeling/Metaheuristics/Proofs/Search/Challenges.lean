import Metaheuristics.Proofs.Model.Ordered
import Metaheuristics.Proofs.Search.Course

/-!
# Records and their challengers

An engine keeps a record of its best candidate.  In an iteration some candidates of the batch
challenge the record, one after the other, and each that is strictly better takes its place
(`Challenged.push`); the engine has found a new best when one of them is better than the record was
before (`Challenged`).  So an iteration without a new best leaves the record alone
(`Challenged.kept`).  On a model that orders its fitness a new best is strictly better than the old
one (`Leg.Challenged.replaced`), hence another candidate.
-/

namespace Metaheuristics

section
variable {α : Type} {compare : α → α → Ordering} {x : α} {items : List α}

theorem foldl_preferred_of_forall (h : ∀ y ∈ items, compare y x ≠ .lt) :
    items.foldl (preferred compare) x = x := by
  induction items with
  | nil => rfl
  | cons y items ih =>
    rw [List.foldl_cons, preferred, if_neg (h y List.mem_cons_self)]
    exact ih fun z hz => h z (List.mem_cons_of_mem _ hz)

variable {P : α → Prop}

theorem foldl_preferred_le (hp : TotalPreorderOn compare P) (hx : P x)
    (hitems : ∀ y ∈ items, P y) :
    P (items.foldl (preferred compare) x) ∧ compare (items.foldl (preferred compare) x) x ≠ .gt ∧
      ∀ y ∈ items, compare (items.foldl (preferred compare) x) y ≠ .gt := by
  induction items generalizing x with
  | nil => exact ⟨hx, by rw [List.foldl_nil, hp.refl hx]; decide, fun y hy => nomatch hy⟩
  | cons z items ih =>
    have hz : P z := hitems z List.mem_cons_self
    have hpref : P (preferred compare x z) := preferred_of hx hz
    obtain ⟨hlex, hlez⟩ := preferred_le hp hx hz
    obtain ⟨hbest, hle, hall⟩ := ih hpref fun y hy => hitems y (List.mem_cons_of_mem _ hy)
    rw [List.foldl_cons]
    refine ⟨hbest, hp.trans _ _ _ hbest hpref hx hle hlex, fun y hy => ?_⟩
    rcases List.mem_cons.mp hy with rfl | hy
    · exact hp.trans _ _ _ hbest hpref hz hle hlez
    · exact hall y hy

end

variable {γ σ V S B : Type} {m : Model γ σ V} {record : S → Candidate V}
  {challengers : B → List (Candidate V)} {leg : Leg S B}

theorem Model.isBetter_iff {c d : Candidate V} :
    m.isBetter c.fitness d.fitness = true ↔ m.compareCandidates c d = .lt :=
  beq_iff_eq

/-- **A record `x` that has been challenged** by some candidates, one after the other, so that `y`
is the record now. -/
structure Challenged (m : Model γ σ V) (x : Candidate V) (items : List (Candidate V))
    (y : Candidate V) (better : Bool) : Prop where
  winner : y = items.foldl (preferred m.compareCandidates) x
  better : better = true ↔ ∃ c ∈ items, m.isBetter c.fitness x.fitness = true

namespace Challenged

variable {x y : Candidate V} {items : List (Candidate V)} {better : Bool}

theorem nil (m : Model γ σ V) (x : Candidate V) : Challenged m x [] x false :=
  ⟨rfl, iff_of_false Bool.false_ne_true fun ⟨_, hc, _⟩ => nomatch hc⟩

theorem kept (h : Challenged m x items y better) (hbetter : better = false) : y = x := by
  rw [h.winner]
  refine foldl_preferred_of_forall fun c hc hlt => ?_
  rw [h.better.mpr ⟨c, hc, Model.isBetter_iff.mpr hlt⟩] at hbetter
  cases hbetter

theorem push (h : Challenged m x items y better) (c : Candidate V) :
    Challenged m x (items ++ [c]) (preferred m.compareCandidates y c)
      (better || m.isBetter c.fitness y.fitness) := by
  constructor
  · rw [List.foldl_append, ← h.winner]
    rfl
  · cases better with
    | true =>
      obtain ⟨d, hd, hlt⟩ := h.better.mp rfl
      exact iff_of_true rfl ⟨d, List.mem_append_left _ hd, hlt⟩
    | false =>
      -- the record of the moment is still the one before
      rw [h.kept rfl, Bool.false_or]
      constructor
      · intro hlt
        exact ⟨c, List.mem_append_right _ (List.mem_singleton_self c), hlt⟩
      · rintro ⟨d, hd, hlt⟩
        rcases List.mem_append.mp hd with hd | hd
        · exact absurd (h.better.mpr ⟨d, hd, hlt⟩) Bool.false_ne_true
        · rwa [List.mem_singleton.mp hd] at hlt

theorem single (m : Model γ σ V) (x c : Candidate V) :
    Challenged m x [c] (if m.isBetter c.fitness x.fitness then c else x)
      (m.isBetter c.fitness x.fitness) := by
  rw [m.ite_isBetter]
  exact (nil m x).push c

end Challenged

/-- **What an iteration does to the record** of the best candidate. -/
def Leg.Challenged (m : Model γ σ V) (record : S → Candidate V)
    (challengers : B → List (Candidate V)) (leg : Leg S B) : Prop :=
  Metaheuristics.Challenged m (record leg.before) (challengers leg.batch) (record leg.after)
    leg.better

theorem Leg.Challenged.of_watched {leg : Leg S B}
    (h : leg.Challenged m.watched record challengers) : leg.Challenged m record challengers :=
  ⟨h.winner, h.better⟩

/-- **A new best is strictly better** than the record before, on a model that orders its fitness. -/
theorem Leg.Challenged.replaced {P : Option V → Prop} (hm : m.Ordered P)
    (h : leg.Challenged m record challengers) (hrecord : P (record leg.before).fitness)
    (hchallengers : ∀ c ∈ challengers leg.batch, P c.fitness) (hbetter : leg.better = true) :
    m.compareCandidates (record leg.after) (record leg.before) = .lt := by
  obtain ⟨c, hc, hlt⟩ := h.better.mp hbetter
  obtain ⟨hafter, -, hle⟩ := foldl_preferred_le hm.candidates hrecord hchallengers
  rw [h.winner]
  exact hm.candidates.lt_of_ne_gt_of_lt hafter (hchallengers c hc) hrecord (hle c hc)
    (Model.isBetter_iff.mp hlt)

/-- **A new best is another candidate**, and without one the record stays. -/
theorem Leg.Challenged.better_eq_false_iff {P : Option V → Prop} (hm : m.Ordered P)
    (h : leg.Challenged m record challengers) (hrecord : P (record leg.before).fitness)
    (hchallengers : ∀ c ∈ challengers leg.batch, P c.fitness) :
    leg.better = false ↔ record leg.after = record leg.before := by
  refine ⟨Challenged.kept h, fun heq => Bool.eq_false_iff.mpr fun hbetter => ?_⟩
  have hlt := h.replaced hm hrecord hchallengers hbetter
  rw [heq, hm.candidates.refl hrecord] at hlt
  cases hlt

end Metaheuristics
