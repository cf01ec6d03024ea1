import SelendraScheduler.Session
import SelendraScheduler.Merge

/-!
# SelendraScheduler.SessionSpec

What a session change leaves behind: every core empty and as many cores as `n_cores`
gives, no groups or one group per core, `Scheduled` untouched, and a queue that holds the
old queue and the indrabase occupants that `will_keep` accepts, while the claim index
loses exactly the ids of those it drops (`pruneQueue_spec`).
-/

namespace SelendraScheduler

theorem vecResize_map_none (l : List (Option CoreOccupied)) (n : Nat) :
    vecResize (l.map fun _ => (none : Option CoreOccupied)) n none = List.replicate n none := by
  simp only [vecResize, List.length_map]
  rw [List.map_const', List.take_replicate, ← List.replicate_add]
  congr 1; omega

/-- The pruning keeps the entries `will_keep` accepts and removes from the sorted claim
index exactly the ids of the others. -/
theorem pruneQueue_spec (config : HostConfiguration) (isIndrabase : Nat → Bool) :
    ∀ (l : List QueuedIndrabase) (index : List Nat), index.Pairwise (· < ·) →
      (pruneQueue config isIndrabase l index).1 = l.filter (willKeep config isIndrabase) ∧
      (pruneQueue config isIndrabase l index).2.Pairwise (· < ·) ∧
      ∀ y, y ∈ (pruneQueue config isIndrabase l index).2 ↔
        y ∈ index ∧ ∀ q ∈ l, willKeep config isIndrabase q = false → y ≠ q.claim.claim.indraId
  | [], index, hs => ⟨rfl, hs, fun y => by simp [pruneQueue]⟩
  | q :: rest, index, hs => by
    by_cases hq : willKeep config isIndrabase q = true
    · obtain ⟨h1, h2, h3⟩ := pruneQueue_spec config isIndrabase rest index hs
      refine ⟨by simp [pruneQueue, hq, h1], by simpa [pruneQueue, hq] using h2, fun y => ?_⟩
      simp only [pruneQueue, hq, if_true] at h3 ⊢
      rw [h3]; simp [hq]
    · have hs' := removeFromIndex_sorted hs q.claim.claim.indraId
      obtain ⟨h1, h2, h3⟩ := pruneQueue_spec config isIndrabase rest _ hs'
      refine ⟨by simp [pruneQueue, hq, h1], by simpa [pruneQueue, hq] using h2, fun y => ?_⟩
      simp only [pruneQueue, hq, Bool.false_eq_true, if_false] at h3 ⊢
      rw [h3, mem_removeFromIndex hs]
      simp only [List.mem_cons, forall_eq_or_imp, Bool.not_eq_true] at hq ⊢
      simp only [hq, true_implies]
      tauto
termination_by structural l => l

/-- The entries the pruning keeps are those `will_keep` accepts, whatever the index. -/
theorem pruneQueue_fst (config : HostConfiguration) (isIndrabase : Nat → Bool) :
    ∀ (l : List QueuedIndrabase) (index : List Nat),
      (pruneQueue config isIndrabase l index).1 = l.filter (willKeep config isIndrabase)
  | [], _ => rfl
  | q :: rest, index => by
    by_cases hq : willKeep config isIndrabase q = true <;>
      simp [pruneQueue, hq, pruneQueue_fst config isIndrabase rest]
termination_by structural l => l

theorem rebalance_claims (l : List QueuedIndrabase) (k : Nat) :
    (rebalance l k).queue.map (·.claim) = l.map (·.claim) := by
  conv_rhs => rw [← List.enum_map_snd l]
  simp only [rebalance, List.map_map]
  rfl

/-- The re-balancing puts every entry, and the next one, on an offset below the count. -/
theorem rebalance_onCores (l : List QueuedIndrabase) {k : Nat} (hk : 0 < k) :
    (rebalance l k).OnCores k :=
  ⟨fun _ => Nat.mod_lt _ hk, fun e he => by
    obtain ⟨⟨i, q⟩, -, rfl⟩ := List.mem_map.mp he
    exact Nat.mod_lt _ hk⟩

section Session

variable (notification : SessionChangeNotification) (indras : Indras) (blockNumber : Nat)
  (s : Scheduler)

@[simp] theorem initializerOnNewSession_scheduled :
    (initializerOnNewSession notification indras blockNumber s).scheduled = s.scheduled := rfl

@[simp] theorem initializerOnNewSession_sessionStartBlock :
    (initializerOnNewSession notification indras blockNumber s).sessionStartBlock =
      blockNumber + 1 := rfl

theorem initializerOnNewSession_availabilityCores :
    (initializerOnNewSession notification indras blockNumber s).availabilityCores =
      List.replicate (nCores indras.indracores.length notification.newConfig
        notification.validators.length) none :=
  vecResize_map_none _ _

/-- Without indrabase cores a session change wipes the queue and the claim index. -/
theorem initializerOnNewSession_wiped (hk : notification.newConfig.indrabaseCores = 0) :
    (initializerOnNewSession notification indras blockNumber s).indrabaseQueue = .empty ∧
      (initializerOnNewSession notification indras blockNumber s).indrabaseClaimIndex = [] := by
  simp [initializerOnNewSession, hk]

/-- With indrabase cores, the queue after a session change is the re-balanced selection of
`will_keep` among the old queue and the indrabase occupants. -/
theorem initializerOnNewSession_indrabaseQueue (hk : 0 < notification.newConfig.indrabaseCores) :
    (initializerOnNewSession notification indras blockNumber s).indrabaseQueue =
      rebalance ((s.indrabaseQueue.queue ++ occupiedClaims s.availabilityCores).filter
        (willKeep notification.newConfig indras.isIndrabase)) notification.newConfig.indrabaseCores := by
  simp only [initializerOnNewSession, Nat.pos_iff_ne_zero.mp hk, if_false]
  rw [pruneQueue_fst]

/-- A session change makes at least `n_indracores + indrabase_cores` cores, as a `u32`. -/
theorem initializerOnNewSession_cores_ge :
    asU32 (indras.indracores.length + notification.newConfig.indrabaseCores) ≤
      (initializerOnNewSession notification indras blockNumber s).availabilityCores.length := by
  rw [initializerOnNewSession_availabilityCores, List.length_replicate]
  exact le_max_left _ _

/-- A session change leaves every core empty. -/
theorem initializerOnNewSession_core_empty (c : Nat) (o : CoreOccupied) :
    (initializerOnNewSession notification indras blockNumber s).availabilityCores[c]? ≠
      some (some o) := by
  rw [initializerOnNewSession_availabilityCores, List.getElem?_replicate]
  split_ifs <;> simp

/-- After a session change there are fewer than `2^32` cores, and no groups or one per
core. -/
theorem initializerOnNewSession_shape :
    let s' := initializerOnNewSession notification indras blockNumber s
    s'.availabilityCores.length < 2 ^ 32 ∧
      (s'.validatorGroups = [] ∨ s'.validatorGroups.length = s'.availabilityCores.length) := by
  simp only [initializerOnNewSession_availabilityCores, List.length_replicate]
  refine ⟨nCores_lt _ _ _, ?_⟩
  simp only [initializerOnNewSession]
  split
  · exact .inl rfl
  · rename_i hn
    exact .inr (length_partitionValidators _ _ (Nat.pos_of_ne_zero fun h => hn (.inl h)))

/-- The queue and the claim index after a session change: emptied without indrabase cores;
otherwise the entries of the old queue and of the indrabase occupants that `will_keep`
accepts, and the index without the ids of the others. -/
theorem initializerOnNewSession_claims (hs : s.indrabaseClaimIndex.Pairwise (· < ·)) :
    let s' := initializerOnNewSession notification indras blockNumber s
    let threadQueue := s.indrabaseQueue.queue ++ occupiedClaims s.availabilityCores
    (notification.newConfig.indrabaseCores = 0 →
      s'.indrabaseQueue = .empty ∧ s'.indrabaseClaimIndex = []) ∧
    (0 < notification.newConfig.indrabaseCores →
      s'.indrabaseQueue.queue.map (·.claim) =
        (threadQueue.filter (willKeep notification.newConfig indras.isIndrabase)).map (·.claim) ∧
      s'.indrabaseClaimIndex.Pairwise (· < ·) ∧
      ∀ y, y ∈ s'.indrabaseClaimIndex ↔ y ∈ s.indrabaseClaimIndex ∧
        ∀ q ∈ threadQueue, willKeep notification.newConfig indras.isIndrabase q = false →
          y ≠ q.claim.claim.indraId) := by
  obtain ⟨h1, h2, h3⟩ := pruneQueue_spec notification.newConfig indras.isIndrabase
    (s.indrabaseQueue.queue ++ occupiedClaims s.availabilityCores) _ hs
  refine ⟨fun hk => by simp [initializerOnNewSession, hk], fun hk => ?_⟩
  simp only [initializerOnNewSession, Nat.pos_iff_ne_zero.mp hk, if_false]
  exact ⟨by rw [rebalance_claims, h1], h2, h3⟩

end Session

end SelendraScheduler
