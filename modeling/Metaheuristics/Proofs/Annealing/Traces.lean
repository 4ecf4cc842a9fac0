import Metaheuristics.Proofs.Annealing.Steps
import Metaheuristics.Proofs.Annealing.Translation
import Metaheuristics.Proofs.Search.Accounts

/-!
# Traces of chains

All calls of annealing are evaluations, but for the release and the observer at the end of each
iteration, so that its runs have an account (`exists_account`).  An iteration evaluates one point
after the other, and ends in the middle when one of the trials fails.
-/

namespace Metaheuristics.Annealing

variable {γ σ V : Type} {m : Model γ σ V} {settings : Settings} {math : Elementary}
  {host : Host σ} {r : Replies V}

theorem traced_gather (cs : List (Candidate V)) :
    Run.Traced (γ := γ) r (gather m.watched settings host.watched cs) :=
  Run.Traced.bind (Run.Traced.expect _ _) fun _ =>
    Run.Traced.bind (Run.Traced.expect _ _) fun _ => Run.Traced.pure _

theorem traced_absorb (s : State V) (b : Batch V) :
    Run.Traced (γ := γ) r (absorb m.watched settings host.watched s b) :=
  Run.Traced.bind (Run.Traced.expect _ _) fun _ =>
    Run.Traced.bind (Run.Traced.expect _ _) fun _ => Run.Traced.pure _

theorem traced_start (hm : m.RepliesWith r) :
    Run.Traced r (start m.watched settings host.watched) := by
  refine Run.Traced.bind ?_ traced_gather
  exact Run.Traced.bind (Model.traced_startingPositions m _) (Model.traced_settle hm)

variable [Random.Source γ]

theorem traced_perturb (bounds : List Bound) (step : Float) (x : Position) :
    Run.Traced (γ := γ) (σ := σ) r (perturb settings bounds step x) := by
  refine Run.Traced.ite (Run.Traced.violate _) ?_
  refine Run.Traced.bind (Run.Traced.draw _) fun indices => ?_
  exact Run.Traced.foldlM (fun _ _ => Run.Traced.bind (Run.Traced.draw _) fun _ =>
    Run.Traced.expect _ _) indices x

theorem traced_accepts (temperature : Float) (improving : Bool) (current point : V) :
    Run.Traced r (accepts m.watched math temperature improving current point) := by
  refine Run.Traced.ite (Run.Traced.pure _) ?_
  exact Run.Traced.bind (Run.Traced.draw _) fun _ => Run.Traced.pure _

theorem traced_trial (hm : m.RepliesWith r) (temperature : Float) (b : Batch V) :
    Run.Traced r (trial m.watched settings math temperature b) := by
  refine Run.Traced.bind (traced_perturb _ _ _) fun x => ?_
  refine Run.Traced.bind (Run.Traced.evaluate hm x) fun fitness => ?_
  exact Run.Traced.bind (traced_accepts temperature _ _ _) fun _ => Run.Traced.pure _

theorem traced_trials (hm : m.RepliesWith r) (temperature : Float) (amount : Nat) (b : Batch V) :
    Run.Traced r (trials m.watched settings math temperature amount b) := by
  induction amount generalizing b with
  | zero => exact Run.Traced.pure b
  | succ amount ih => exact Run.Traced.bind (traced_trial hm temperature b) ih

theorem engine_traced (hm : m.RepliesWith r) :
    (engine m.watched settings host.watched).Traced r where
  explore _ _ := traced_trials hm _ _ _
  absorb := traced_absorb

/-- **The account of an annealing run.** -/
theorem exists_account (hm : m.RepliesWith r) (host : Host σ) (rounds : Nat) (w : World γ σ) :
    ∃ a, Account.Of m r
      (fun p v => ∃ stop, Visits m.watched settings host.watched w.watched stop p v)
      Outcome.toOutcome
      ((run m settings host rounds).exec w).1
      ((run m.watched settings host.watched rounds).calls w) a := by
  have htranslates :=
    translates_run settings m.watched_translates host.watched_translates rounds
  rw [← Run.result_watched htranslates Outcome.map_id]
  rcases hcheck : settings.check with error | ⟨⟩
  · exact ⟨⟨[], [], []⟩, .refused (Run.exec_require_error hcheck _ _)⟩
  rcases hdimension : settings.checkDimension m.watched.dimension with error | ⟨⟩
  · exact ⟨⟨[], [], []⟩,
      .refused ((Run.exec_require hcheck).trans (Run.exec_require_error hdimension _ _))⟩
  obtain ⟨a, ha⟩ := Search.exists_account host.watched settings.criteria (traced_start hm)
    (engine_traced hm) rounds (fun result => outcome result.1 result.2) Outcome.toOutcome
    (fun _ _ => ⟨rfl, rfl⟩) w
  refine ⟨a, ?_⟩
  unfold Run.calls at ha ⊢
  unfold run
  rw [Run.exec_require hcheck, Run.exec_require hdimension]
  refine ha.mono fun p v hp => ?_
  obtain ⟨s, v₀, stop, hs, hp⟩ := hp
  exact ⟨stop, hcheck, hdimension, s, v₀, hs, hp⟩

end Metaheuristics.Annealing
