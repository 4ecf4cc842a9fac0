import Metaheuristics.Proofs.Annealing.Steps
import Metaheuristics.Proofs.Multiverse.Steps
import Metaheuristics.Proofs.Outcomes.TopOfRun
import Metaheuristics.Proofs.Population.Refreshing
import Metaheuristics.Proofs.Swarm.Steps

/-!
# What a refreshed elite is

An elite and a batch of candidates, both from best to worst, are refreshed to the top of a stable
sort (`Elite.refresh_isTop`): of the elite and all candidates if the elite is full or nobody
overtakes its last member, and otherwise of the elite and the first few candidates only, because
the room that is left bounds the index of a candidate and not the number of those that are appended.
Candidates past the capacity make no difference, even where the comparison is no order, so each
engine keeps the elite that it would have if it folded in everything that it has explored
(`elite_of_batch`).
-/

namespace Metaheuristics

namespace Elite

variable {α : Type} {compare : α → α → Ordering} {elite candidates : List α}

/-- **The meaning of a refresh**, which always comes to an elite. -/
theorem refresh_isTop (h : TotalPreorderOn compare (· ∈ elite ++ candidates))
    (heo : elite.Pairwise fun x y => compare x y ≠ .gt)
    (hco : candidates.Pairwise fun x y => compare x y ≠ .gt) (capacity : Nat) :
    refresh? compare elite candidates capacity
      = some (refresh compare elite candidates capacity) ∧
    IsTop compare capacity
      (elite ++ candidates.take (min candidates.length (max (overtaking compare elite candidates)
        (capacity - (elite.length + overtaking compare elite candidates)))))
      (refresh compare elite candidates capacity) ∧
    ((refresh compare elite candidates capacity).Pairwise fun x y => compare x y ≠ .gt) ∧
    (capacity ≤ elite.length ∨
        (∀ last ∈ elite.getLast?, ∀ c ∈ candidates, compare c last ≠ .lt) →
      IsTop compare capacity (elite ++ candidates)
        (refresh compare elite candidates capacity)) := by
  have he : ∀ x ∈ elite, x ∈ elite ++ candidates := fun x hx => List.mem_append_left _ hx
  have hc : ∀ x ∈ candidates, x ∈ elite ++ candidates := fun x hx => List.mem_append_right _ hx
  have hinserted := inserted_eq h he hc heo hco
  have htop := refresh_isStableSort h he hc heo hco capacity
  refine ⟨refresh?_eq compare elite candidates capacity, ?_, ?_, fun hall => ?_⟩
  · rwa [reach, hinserted] at htop
  · obtain ⟨sorted, hsorted, heq⟩ := htop
    rw [heq]
    exact hsorted.ordered.sublist (List.take_sublist capacity sorted)
  · refine refresh_isStableSort_all h he hc heo hco (hall.imp_right fun hnone => ?_)
    rw [hinserted, overtaking_eq_zero hnone]

/-- Where one of two candidates overtakes the only member, there is room for a third entry, but the
other candidate is passed over. -/
theorem refresh_isTop_passed_over :
    refresh Direction.minimize.compare [5.0] [3.0, 7.0] 3 = [3.0, 5.0] ∧
    IsTop Direction.minimize.compare 3 [5.0, 3.0] [3.0, 5.0] ∧
    ¬ IsTop Direction.minimize.compare 3 [5.0, 3.0, 7.0] [3.0, 5.0] := by
  have hrefresh : refresh Direction.minimize.compare [5.0] [3.0, 7.0] 3 = [3.0, 5.0] := by
    decide +kernel
  have hpreorder : TotalPreorderOn Direction.minimize.compare (· ∈ [5.0] ++ [3.0, 7.0]) :=
    (Direction.totalPreorder .minimize).mono fun _ _ => trivial
  have htop := (refresh_isTop hpreorder (List.pairwise_singleton _ _) (by decide +kernel) 3).2.1
  rw [hrefresh, show overtaking Direction.minimize.compare [5.0] [3.0, 7.0] = 1 by
    decide +kernel] at htop
  refine ⟨hrefresh, htop, fun ⟨sorted, hsorted, heq⟩ => ?_⟩
  have hlength : sorted.length = 3 := hsorted.perm.length_eq
  rw [List.take_of_length_le (Nat.le_of_eq hlength)] at heq
  rw [← heq] at hlength
  cases hlength

end Elite

variable {γ σ V : Type}

/-- **Cutting the candidates first is harmless**, whatever is compared, so the elite of each engine
is the one refreshed with all that the engine has explored. -/
theorem elite_of_batch :
    (∀ {α : Type} (compare : α → α → Ordering) (elite candidates : List α) (capacity : Nat),
      Elite.refresh? compare elite (candidates.take capacity) capacity
        = some (Elite.refresh compare elite candidates capacity) ∧
      Elite.refresh compare elite (candidates.take capacity) capacity
        = Elite.refresh compare elite candidates capacity) ∧
    ∀ (m : Model γ σ V) (host : Host σ) (w w' : World γ σ),
      (∀ (settings : Swarm.Settings) (s s' : Swarm.State V) particles better,
        (Swarm.absorb m settings host s particles).exec w = (.ok (s', better), w') →
        s'.elite = Elite.refresh m.compareCandidates s.elite
          ((Swarm.rank m particles).map (·.snapshot)) settings.solutionAmount) ∧
      (∀ (settings : Multiverse.Settings) (s s' : Multiverse.State V) universes better,
        (Multiverse.absorb m settings host s universes).exec w = (.ok (s', better), w') →
        s'.elite = Elite.refresh m.compareCandidates s.elite (Multiverse.rank m universes)
          settings.solutionAmount) ∧
      ∀ (settings : Annealing.Settings) (s : Annealing.State V) batch,
        (Annealing.absorb m settings host s batch).exec w
            = (.error (.violation .unorderedComparison), w) ∨
          ∃ s', (Annealing.absorb m settings host s batch).exec w = (.ok (s', batch.better), w) ∧
            s'.elite = Elite.refresh m.compareCandidates s.elite
              (Ranking.sort m.compareCandidates batch.accepted.toList) settings.solutionAmount := by
  refine ⟨fun compare elite candidates capacity => ⟨?_, ?_⟩, fun m host w w' => ⟨?_, ?_, ?_⟩⟩
  · rw [Elite.refresh?_eq, Elite.refresh_take]
  · exact Elite.refresh_take compare elite candidates capacity
  · intro settings s s' particles better h
    obtain ⟨_, -, -, rfl, -⟩ := Swarm.absorb_eq_ok h
    rw [Swarm.leaders, List.map_take]
    exact Elite.refresh_take _ _ _ _
  · intro settings s s' universes better h
    obtain ⟨_, -, -, rfl, -⟩ := Multiverse.absorb_eq_ok h
    exact Elite.refresh_take _ _ _ _
  · intro settings s batch
    refine (Annealing.absorb_cases m settings host s batch w).imp_right fun hok => ?_
    exact ⟨s.absorbed m settings batch, hok, Elite.refresh_take _ _ _ _⟩

/-- Three candidates on the unit interval, the best one in the middle. -/
def Interval.batch : List (Candidate Float) :=
  [⟨[0.25], some 0.25⟩, ⟨[0.5], some 0.0⟩, ⟨[0.625], some 0.125⟩]

/-- The candidates as particles at rest. -/
def Interval.particles : List (Swarm.Particle Float) :=
  batch.map fun c => ⟨c.fitness, c.position, [0.0], c⟩

/-- A chain at the left end. -/
def Interval.chain : Annealing.Chain Float := ⟨⟨[0.0], 0.5⟩, ⟨[0.0], 0.5⟩, 0.1, 0, 0⟩

/-- A swarm, a multiverse and a chain that take in three candidates, one more than go into the
elite. -/
theorem elite_of_batch_interval :
    (∃ s' better w', (Swarm.absorb Interval.model Interval.swarm Interval.host
        ⟨[], ⟨[0.0], some 0.5⟩, []⟩ Interval.particles).exec Interval.world
          = (.ok (s', better), w') ∧
      s'.elite = Elite.refresh Interval.model.compareCandidates []
        ((Swarm.rank Interval.model Interval.particles).map (·.snapshot)) 2) ∧
    (∃ s' better w', (Multiverse.absorb Interval.model Interval.multiverse Interval.host
        ⟨[], ⟨[0.0], some 0.5⟩, []⟩ Interval.batch).exec Interval.world = (.ok (s', better), w') ∧
      s'.elite = Elite.refresh Interval.model.compareCandidates []
        (Multiverse.rank Interval.model Interval.batch) 2) ∧
    ∃ s', (Annealing.absorb Interval.model Interval.annealing Interval.host
        ⟨Interval.chain, [], .start 1.0 0.5, 1.0⟩
        ⟨Interval.chain, Interval.batch.toArray, true⟩).exec Interval.world
          = (.ok (s', true), Interval.world) ∧
      s'.elite = Elite.refresh Interval.model.compareCandidates []
        (Ranking.sort Interval.model.compareCandidates Interval.batch) 2 := by
  obtain ⟨-, h⟩ := elite_of_batch (γ := Random.SplitMix) (σ := Unit) (V := Float)
  obtain ⟨hswarm, hmultiverse, hannealing⟩ :=
    h Interval.model Interval.host Interval.world Interval.world
  refine ⟨⟨_, _, _, rfl, hswarm Interval.swarm ⟨[], ⟨[0.0], some 0.5⟩, []⟩ _ _ _ rfl⟩,
    ⟨_, _, _, rfl, hmultiverse Interval.multiverse ⟨[], ⟨[0.0], some 0.5⟩, []⟩ _ _ _ rfl⟩, ?_⟩
  -- the host sorts by whatever there is
  refine (hannealing Interval.annealing ⟨Interval.chain, [], .start 1.0 0.5, 1.0⟩
    ⟨Interval.chain, Interval.batch.toArray, true⟩).resolve_left fun hrefused => ?_
  cases congrArg Prod.fst hrefused

end Metaheuristics
