import Metaheuristics.Proofs.Search.Accounts
import Metaheuristics.Proofs.Swarm.Steps
import Metaheuristics.Proofs.Swarm.Translation

/-!
# Traces of swarms

All calls of a swarm are evaluations, but for the release and the observer at the end of each
iteration, so that its runs have an account (`exists_account`).
-/

namespace Metaheuristics.Swarm

variable {γ σ V : Type} {m : Model γ σ V} {settings : Settings} {host : Host σ} {r : Replies V}

theorem traced_gather (particles : List (Particle V)) :
    Run.Traced (γ := γ) r (gather m.watched settings host.watched particles) := by
  refine Run.Traced.bind (Run.Traced.expect _ _) fun _ => ?_
  exact Run.Traced.bind (Run.Traced.expect _ _) fun _ => Run.Traced.pure _

theorem traced_absorb (s : State V) (particles : List (Particle V)) :
    Run.Traced (γ := γ) r (absorb m.watched settings host.watched s particles) := by
  refine Run.Traced.bind (Run.Traced.expect _ _) fun _ => ?_
  refine Run.Traced.bind (Run.Traced.expect _ _) fun _ => ?_
  exact Run.Traced.bind (Run.Traced.expect _ _) fun _ => Run.Traced.pure _

variable [Random.Source γ]

theorem traced_launch (c : Candidate V) : Run.Traced r (launch m.watched settings c) := by
  refine Run.Traced.bind (Run.Traced.mapM (fun _ => ?_) _) fun velocity => ?_
  · exact Run.Traced.bind (Run.Traced.draw _) fun _ => Run.Traced.pure _
  · split
    · exact Run.Traced.pure _
    · exact Run.Traced.violate _

theorem traced_start (hm : m.RepliesWith r) :
    Run.Traced r (start m.watched settings host.watched) := by
  refine Run.Traced.bind ?_ traced_gather
  refine Run.Traced.bind (Model.traced_startingPositions m _) fun xs => ?_
  exact Run.Traced.bind (Model.traced_evaluateAll hm xs) (Run.Traced.mapM traced_launch)

theorem Particle.traced_move (bounds : List Bound) (shared : Position) (p : Particle V) :
    Run.Traced (γ := γ) (σ := σ) r (p.move settings bounds shared) := by
  refine Run.Traced.bind (Run.Traced.expect _ _) fun axes => ?_
  refine Run.Traced.bind (Run.Traced.mapM (fun axis => ?_) axes) fun _ => Run.Traced.pure _
  refine Run.Traced.bind (Run.Traced.draw _) fun _ => ?_
  refine Run.Traced.bind (Run.Traced.draw _) fun _ => ?_
  exact Run.Traced.bind (Run.Traced.expect _ _) fun _ => Run.Traced.pure _

theorem engine_traced (hm : m.RepliesWith r) :
    (engine m.watched settings host.watched).Traced r where
  explore _ s := by
    refine Run.Traced.bind (Run.Traced.mapM (Particle.traced_move _ _) _) fun moved => ?_
    exact Run.Traced.mapM (fun p => Run.Traced.bind (Run.Traced.evaluate hm _) fun _ =>
      Run.Traced.pure _) moved
  absorb := traced_absorb

/-- **The account of a swarm's run.** -/
theorem exists_account (hm : m.RepliesWith r) (host : Host σ) (rounds : Nat) (w : World γ σ) :
    ∃ a, Account.Of m r
      (fun p v => ∃ stop, Visits m.watched settings host.watched w.watched stop p v) id
      ((run m settings host rounds).exec w).1
      ((run m.watched settings host.watched rounds).calls w) a := by
  have htranslates :=
    translates_run settings m.watched_translates host.watched_translates rounds
  rw [← Run.result_watched htranslates Outcome.map_id]
  rcases hcheck : settings.check with error | ⟨⟩
  · exact ⟨⟨[], [], []⟩, .refused (Run.exec_require_error hcheck _ _)⟩
  obtain ⟨a, ha⟩ := Search.exists_account host.watched settings.criteria (traced_start hm)
    (engine_traced hm) rounds (fun result => outcome result.1 result.2) id (fun _ _ => ⟨rfl, rfl⟩) w
  refine ⟨a, ?_⟩
  unfold Run.calls at ha ⊢
  unfold run
  rw [Run.exec_require hcheck]
  refine ha.mono fun p v hp => ?_
  obtain ⟨s, v₀, stop, hs, hp⟩ := hp
  exact ⟨stop, hcheck, s, v₀, hs, hp⟩

end Metaheuristics.Swarm
