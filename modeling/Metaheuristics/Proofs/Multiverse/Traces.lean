import Metaheuristics.Proofs.Search.Accounts
import Metaheuristics.Proofs.Multiverse.Steps
import Metaheuristics.Proofs.Multiverse.Translation

/-!
# Traces of multiverses

All calls of a multiverse are evaluations, but for the release and the observer at the end of each
iteration, so that its runs have an account (`exists_account`).
-/

namespace Metaheuristics.Multiverse

variable {γ σ V : Type} {m : Model γ σ V} {settings : Settings} {host : Host σ}
  {math : Elementary} {r : Replies V}

theorem traced_gather (us : List (Candidate V)) :
    Run.Traced (γ := γ) r (gather m.watched settings host.watched us) := by
  refine Run.Traced.bind (Run.Traced.expect _ _) fun _ => ?_
  exact Run.Traced.bind (Run.Traced.expect _ _) fun _ => Run.Traced.pure _

theorem traced_absorb (s : State V) (us : List (Candidate V)) :
    Run.Traced (γ := γ) r (absorb m.watched settings host.watched s us) := by
  refine Run.Traced.bind (Run.Traced.expect _ _) fun _ => ?_
  refine Run.Traced.bind (Run.Traced.expect _ _) fun _ => ?_
  exact Run.Traced.bind (Run.Traced.expect _ _) fun _ => Run.Traced.pure _

theorem traced_start (hm : m.RepliesWith r) :
    Run.Traced r (start m.watched settings host.watched) := by
  refine Run.Traced.bind ?_ traced_gather
  exact Run.Traced.bind (Model.traced_startingPositions m _) (Model.traced_settle hm)

variable [Random.Source γ]

theorem Axis.traced_move (passage : Passage V) (rate : Float) (axis : Axis) :
    Run.Traced (γ := γ) (σ := σ) r (axis.move settings math passage rate) := by
  refine Run.Traced.bind ?_ fun inherited => Run.Traced.bind ?_ fun _ => Run.Traced.pure _
  · refine Run.Traced.bind (Run.Traced.draw _) fun _ => ?_
    refine Run.Traced.ite ?_ (Run.Traced.pure _)
    exact Run.Traced.bind (Run.Traced.tryDraw _) fun _ => Run.Traced.expect _ _
  · refine Run.Traced.bind (Run.Traced.draw _) fun _ => ?_
    refine Run.Traced.ite ?_ (Run.Traced.pure _)
    refine Run.Traced.bind (Run.Traced.draw _) fun _ => ?_
    exact Run.Traced.bind (Run.Traced.draw _) fun _ => Run.Traced.pure _

theorem traced_transformAt (bounds : List Bound) (passage : Passage V) (best : Position)
    (u : Candidate V) (i : Nat) :
    Run.Traced (γ := γ) (σ := σ) r (transformAt settings math bounds passage best u i) :=
  Run.Traced.bind (Run.Traced.expect _ _) fun rate =>
    Run.Traced.bind (Run.Traced.expect _ _) (Run.Traced.mapM (Axis.traced_move passage rate))

theorem traced_explore (hm : m.RepliesWith r) (progress : Float) (s : State V) :
    Run.Traced r (explore m.watched settings math progress s) := by
  refine Run.Traced.bind (Run.Traced.mapM (fun pair => ?_) _) (Model.traced_settle hm)
  exact traced_transformAt m.watched.bounds (passage m.watched settings math progress s)
    s.best.position pair.1 pair.2

theorem engine_traced (hm : m.RepliesWith r) :
    (engine m.watched settings host.watched).Traced r where
  explore _ s := Run.Traced.get fun _ => traced_explore hm _ s
  absorb := traced_absorb

/-- **The account of a multiverse's run.** -/
theorem exists_account (hm : m.RepliesWith r) (host : Host σ) (rounds : Nat) (w : World γ σ) :
    ∃ a, Account.Of m r
      (fun p v => ∃ stop, Visits m.watched settings host.watched w.watched stop p v) id
      ((run m settings host rounds).exec w).1
      ((run m.watched settings host.watched rounds).calls w) a := by
  have htranslates :=
    translates_run settings m.watched_translates host.watched_translates rounds
  rw [← Run.result_watched htranslates Outcome.map_id]
  rcases hcheck : settings.check with error | ⟨⟩
  · exact ⟨⟨[], [], []⟩, .refused (Run.exec_require_error hcheck _ _)⟩
  obtain ⟨a, ha⟩ := Search.exists_account host.watched settings.criteria (traced_start hm)
    (engine_traced hm) rounds (fun result => outcome result.1 result.2) id
    (fun _ _ => ⟨rfl, rfl⟩) w
  refine ⟨a, ?_⟩
  unfold Run.calls at ha ⊢
  unfold run
  rw [Run.exec_require hcheck]
  refine ha.mono fun p v hp => ?_
  obtain ⟨s, v₀, stop, hs, hp⟩ := hp
  exact ⟨stop, hcheck, s, v₀, hs, hp⟩

end Metaheuristics.Multiverse
