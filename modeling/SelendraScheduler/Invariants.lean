import SelendraScheduler.Protocol
import SelendraScheduler.BlockSpec
import SelendraScheduler.SessionSpec

/-!
# SelendraScheduler.Invariants

What every run keeps, whatever the order of its calls (`Reachable`): `Scheduled` is
strictly increasing by core and holds no occupied core, there are fewer than `2^32` cores
and no groups or one per core, and the claim index is strictly increasing (`RunInv`).

Each entry point keeps `RunInv` by its specification lemma (`RunInv.session`, ...,
`RunInv.clear`); `RunInv.step` dispatches on the call, and `Reachable.runInv` is the
induction over the run.
-/

namespace SelendraScheduler

/-- What every run keeps. -/
structure RunInv (s : Scheduler) : Prop where
  /-- `Scheduled` is strictly increasing by core index. -/
  sorted : SortedByCore s.scheduled
  /-- No scheduled core holds an occupant. -/
  unoccupied : ∀ c ∈ s.scheduledCores, s.isOccupied c = false
  /-- The core count is a `u32`. -/
  coresLt : s.availabilityCores.length < 2 ^ 32
  /-- No groups, or one group per core. -/
  groups : s.validatorGroups = [] ∨ s.validatorGroups.length = s.availabilityCores.length
  /-- The claim index is strictly increasing. -/
  index : s.indrabaseClaimIndex.Pairwise (· < ·)

/-- Freeing a core keeps the claim index sorted. -/
theorem freeCore_index_sorted {h : Host} {s s' : Scheduler} {x : Nat × FreedReason}
    (hs : s.indrabaseClaimIndex.Pairwise (· < ·)) (hok : freeCore h s x = .ok s') :
    s'.indrabaseClaimIndex.Pairwise (· < ·) := by
  obtain ⟨index, queue, rfl, heff⟩ := freeCore_ok hok
  revert heff
  split
  · rintro (⟨-, rfl, -⟩ | ⟨-, rfl, -⟩)
    · exact removeFromIndex_sorted hs _
    · exact hs
  · rintro ⟨rfl, -⟩; exact hs

namespace RunInv

variable {h : Host} {s s' : Scheduler}

theorem empty : RunInv .empty :=
  ⟨.nil, by simp [Scheduler.scheduledCores, Scheduler.empty], by decide, .inl rfl, .nil⟩

theorem session (hs : RunInv s) (notification : SessionChangeNotification) (indras : Indras)
    (blockNumber : Nat) : RunInv (initializerOnNewSession notification indras blockNumber s) := by
  obtain ⟨hlt, hg⟩ := initializerOnNewSession_shape notification indras blockNumber s
  obtain ⟨hk0, hk⟩ := initializerOnNewSession_claims notification indras blockNumber s hs.index
  refine ⟨by simpa using hs.sorted, fun c _ => ?_, hlt, hg, ?_⟩
  · unfold Scheduler.isOccupied
    split
    · exact absurd ‹_› (initializerOnNewSession_core_empty _ _ _ _ c _)
    · rfl
  · rcases Nat.eq_zero_or_pos notification.newConfig.indrabaseCores with h0 | h0
    · rw [(hk0 h0).2]; exact .nil
    · exact (hk h0).2.1

theorem addClaim (hs : RunInv s) {claim : IndrabaseClaim}
    (hok : addIndrabaseClaim h claim s = .ok s') : RunInv s' := by
  rcases addIndrabaseClaim_ok hs.index hok with rfl | ⟨-, -, -, -, index, hl, -, rfl⟩
  · exact hs
  · exact ⟨hs.sorted, hs.unoccupied, hs.coresLt, hs.groups, hl⟩

theorem freeCores (hs : RunInv s) {freed : List (Nat × FreedReason)}
    (hok : SelendraScheduler.freeCores h freed s = .ok s') : RunInv s' := by
  obtain ⟨hsch, hg, -, hlen⟩ := freeCores_frame hok
  have hindex := freeCores_induction (fun t => t.indrabaseClaimIndex.Pairwise (· < ·))
    (fun _ _ _ => freeCore_index_sorted) hs.index hok
  refine ⟨hsch ▸ hs.sorted, fun c hc => ?_, hlen ▸ hs.coresLt, hg ▸ hlen ▸ hs.groups, hindex⟩
  have := hs.unoccupied c (by simpa [Scheduler.scheduledCores, hsch] using hc)
  cases ho : s'.isOccupied c
  · rfl
  · exact absurd (freeCores_isOccupied hok c ho) (by simp [this])

theorem schedule (hs : RunInv s) {freed : List (Nat × FreedReason)} {now : Nat}
    (hok : SelendraScheduler.schedule h freed now s = .ok s') : RunInv s' := by
  obtain ⟨s₁, new, scheduled, queue, h₁, rfl, hsorted, hperm, hnew, -, -⟩ :=
    schedule_ok hs.sorted (Nat.le_of_lt hs.coresLt) hok
  have hs₁ := hs.freeCores h₁
  refine ⟨hsorted, fun c hc => ?_, hs₁.coresLt, hs₁.groups, hs₁.index⟩
  obtain ⟨a, ha, rfl⟩ := List.mem_map.mp hc
  rcases List.mem_append.mp ((hperm.mem_iff).mp ha) with ha | ha
  · exact hs₁.unoccupied _ (List.mem_map_of_mem _ ha)
  · obtain ⟨c, hc, -, -, rfl⟩ := hnew a ha
    simp [Scheduler.isOccupied, hc]

theorem occupied (hs : RunInv s) {nowOccupied : List Nat}
    (hok : SelendraScheduler.occupied nowOccupied s = .ok s') : RunInv s' := by
  obtain ⟨kept, removed, rfl, hsub, hperm, -⟩ := occupied_ok hok
  have hnd : ((kept ++ removed).map (·.core)).Nodup := (hperm.map _).nodup_iff.mpr hs.sorted.nodup_cores
  rw [List.map_append] at hnd
  refine ⟨hs.sorted.sublist hsub, fun c hc => ?_, by simpa using hs.coresLt,
    by simpa using hs.groups, hs.index⟩
  have hcr : c ∉ removed.map (·.core) := List.disjoint_of_nodup_append hnd hc
  have := hs.unoccupied c (List.mem_map.mpr (by
    obtain ⟨a, ha, rfl⟩ := List.mem_map.mp hc; exact ⟨a, hsub.subset ha, rfl⟩))
  simpa [Scheduler.isOccupied, getElem?_foldl_occupy_of_not_mem removed _ hcr] using this

theorem clear (hs : RunInv s) (hok : SelendraScheduler.clear h s = .ok s') : RunInv s' := by
  obtain ⟨queue, rfl, -⟩ := clear_ok hok
  exact ⟨.nil, by simp [Scheduler.scheduledCores], hs.coresLt, hs.groups, hs.index⟩

/-- Every call keeps `RunInv`. -/
theorem step {w w' : Chain} (hs : RunInv w.scheduler) (c : Call)
    (happ : c.apply w = .ok w') : RunInv w'.scheduler := by
  cases c with
  | initializerOnNewSession n i b => cases happ; exact hs.session n i b
  | addIndrabaseClaim claim =>
    obtain ⟨s', hok, rfl⟩ := map_eq_ok.mp happ; exact hs.addClaim hok
  | freeCores freed => obtain ⟨s', hok, rfl⟩ := map_eq_ok.mp happ; exact hs.freeCores hok
  | schedule freed now => obtain ⟨s', hok, rfl⟩ := map_eq_ok.mp happ; exact hs.schedule hok
  | occupied o => obtain ⟨s', hok, rfl⟩ := map_eq_ok.mp happ; exact hs.occupied hok
  | clear => obtain ⟨s', hok, rfl⟩ := map_eq_ok.mp happ; exact hs.clear hok

end RunInv

theorem Reachable.runInv {w : Chain} (hw : Reachable w) : RunInv w.scheduler := by
  induction hw with
  | init host => exact RunInv.empty
  | step c _ _ happ ih => exact ih.step c happ

/-- In every state of every run, `Scheduled` is strictly increasing by core index (so it
holds at most one assignment per core) and none of its cores is occupied. -/
theorem scheduled_sorted_and_unoccupied {w : Chain} (hw : Reachable w) :
    SortedByCore w.scheduler.scheduled ∧
      ∀ c ∈ w.scheduler.scheduledCores, w.scheduler.isOccupied c = false :=
  ⟨hw.runInv.sorted, hw.runInv.unoccupied⟩

theorem scheduled_sorted_and_unoccupied_at_block_two :
    Reachable ⟨testHost, scheduledAtBlockTwo⟩ ∧ SortedByCore scheduledAtBlockTwo.scheduled ∧
      ∀ c ∈ scheduledAtBlockTwo.scheduledCores, scheduledAtBlockTwo.isOccupied c = false :=
  ⟨scheduledAtBlockTwo_reachable.reachable,
    scheduled_sorted_and_unoccupied scheduledAtBlockTwo_reachable.reachable⟩

end SelendraScheduler
