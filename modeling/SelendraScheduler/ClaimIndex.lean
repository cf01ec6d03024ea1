import SelendraScheduler.Invariants

/-!
# SelendraScheduler.ClaimIndex

The claim index of the block protocol. `IndrabaseClaimIndex` is documented to ensure
"that only one claim on a indrabase exists in the queue or is currently being handled by
an occupied core". The ids with a claim somewhere are `presentIds`: those of the queue,
of the indrabase assignments in `Scheduled` and of the indrabase occupants.

`ClaimInv` is the inductive invariant of protocol runs: the present ids are distinct and
all in the index, except that after a session change to zero indrabase cores the stale
`Scheduled` may name ids the wiped index no longer holds. Every entry point keeps it
(`ClaimInv.session`, ..., `ClaimInv.clear`), so in every protocol run the index is sorted
and no id is present twice (`claim_ids_unique`).

The converse fails: `clear` drops claims past their retries without cleaning the index
(`claim_index_keeps_dropped_id`), and `clear` re-queues without the capacity check of
`add_indrabase_claim` (`queue_exceeds_capacity`).
-/

namespace SelendraScheduler

/-! ## The present ids -/

/-- The ids of the queued claims. -/
def queueIds (s : Scheduler) : List Nat := s.indrabaseQueue.queue.map (·.claim.claim.indraId)

/-- The ids of the indrabase assignments in `Scheduled`. -/
def scheduledIds (s : Scheduler) : List Nat :=
  (s.scheduled.filterMap CoreAssignment.indrabaseEntry?).map (·.claim.indraId)

/-- The ids of the indrabase occupants. -/
def occupantIds (s : Scheduler) : List Nat :=
  (occupiedClaims s.availabilityCores).map (·.claim.claim.indraId)

/-- Every id with a claim somewhere: queued, scheduled or occupying a core. -/
def presentIds (s : Scheduler) : List Nat := queueIds s ++ scheduledIds s ++ occupantIds s

/-- Any rearrangement of three blocks. -/
theorem perm_append_swap {α : Type} [DecidableEq α] (a b c : List α) :
    (a ++ b ++ c).Perm (c ++ b ++ a) :=
  List.perm_iff_count.mpr fun x => by simp only [List.count_append]; omega

theorem occupiedClaims_cons (c : Option CoreOccupied) (cores : List (Option CoreOccupied)) :
    occupiedClaims (c :: cores) = occupiedClaims [c] ++ occupiedClaims cores :=
  List.filterMap_append [c] cores _

/-- Overwriting one core trades its occupant's claim for the new one's. -/
theorem occupiedClaims_set : ∀ {cores : List (Option CoreOccupied)} {i : Nat}
    (v : Option CoreOccupied) (hi : i < cores.length),
    (occupiedClaims (cores.set i v) ++ occupiedClaims [cores[i]]).Perm
      (occupiedClaims cores ++ occupiedClaims [v])
  | x :: xs, 0, v, _ => by
    rw [List.set_cons_zero, occupiedClaims_cons v xs, occupiedClaims_cons x xs]
    exact perm_append_swap _ _ _
  | x :: xs, i + 1, v, hi => by
    rw [List.set_cons_succ, occupiedClaims_cons x, occupiedClaims_cons x xs,
      List.getElem_cons_succ, List.append_assoc, List.append_assoc]
    exact (occupiedClaims_set v (by simpa using hi)).append_left _
termination_by structural cores => cores

theorem presentIds_perm (s : Scheduler) :
    (presentIds s).Perm (queueIds s ++ occupantIds s ++ scheduledIds s) :=
  List.perm_iff_count.mpr fun x => by simp only [presentIds, List.count_append]; omega

/-- The ids of the queue and the occupants: what a session change re-queues. -/
theorem threadQueue_ids (s : Scheduler) :
    (s.indrabaseQueue.queue ++ occupiedClaims s.availabilityCores).map (·.claim.claim.indraId) =
      queueIds s ++ occupantIds s := List.map_append _ _ _

@[simp] theorem occupiedClaims_replicate_none (n : Nat) :
    occupiedClaims (List.replicate n none) = [] := by
  induction n with
  | zero => rfl
  | succ n ih => rw [List.replicate_succ, occupiedClaims_cons, ih]; rfl

theorem nodup_of_subperm {α : Type} {l₁ l₂ : List α} (h : l₁.Subperm l₂) (hn : l₂.Nodup) :
    l₁.Nodup := by
  obtain ⟨l, hp, hs⟩ := h
  exact (hn.sublist hs).perm hp

/-- Emptying a core takes its occupant's claim out of the occupants. -/
theorem occupiedClaims_set_none {cores : List (Option CoreOccupied)} {i : Nat}
    {o : Option CoreOccupied} (hi : cores[i]? = some o) :
    (occupiedClaims (cores.set i none) ++ occupiedClaims [o]).Perm (occupiedClaims cores) := by
  obtain ⟨hlt, rfl⟩ := List.getElem?_eq_some_iff.mp hi
  simpa [occupiedClaims] using occupiedClaims_set none hlt

theorem subperm_map {α β : Type} (f : α → β) {l₁ l₂ : List α} (h : l₁.Subperm l₂) :
    (l₁.map f).Subperm (l₂.map f) := by
  obtain ⟨l, hp, hs⟩ := h
  exact ⟨l.map f, hp.map f, hs.map f⟩

/-- Installing an assignment adds at most its own claim to the occupants. -/
theorem occupiedClaims_occupy (cores : List (Option CoreOccupied)) (a : CoreAssignment) :
    ((occupiedClaims (occupy cores a)).map (·.claim.claim.indraId)).Subperm
      ((occupiedClaims cores).map (·.claim.claim.indraId) ++
        (a.indrabaseEntry?.toList.map (·.claim.indraId))) := by
  have hv : (occupiedClaims [some a.toCoreOccupied]).map (·.claim.claim.indraId) =
      a.indrabaseEntry?.toList.map (·.claim.indraId) := by
    unfold CoreAssignment.toCoreOccupied CoreAssignment.indrabaseEntry?
    cases a.kind <;> rfl
  by_cases hlt : a.core < cores.length
  · rw [← hv, ← List.map_append]
    exact subperm_map _ ((List.sublist_append_left _ _).subperm.trans
      (occupiedClaims_set _ hlt).subperm)
  · rw [occupy, List.set_eq_of_length_le (by omega)]
    exact (List.sublist_append_left _ _).subperm

/-- The occupants after `occupied`: the old ones and the claims it installed. -/
theorem occupiedClaims_foldl_occupy : ∀ (removed : List CoreAssignment) cores,
    ((occupiedClaims (removed.foldl occupy cores)).map (·.claim.claim.indraId)).Subperm
      ((occupiedClaims cores).map (·.claim.claim.indraId) ++
        (removed.filterMap CoreAssignment.indrabaseEntry?).map (·.claim.indraId))
  | [], cores => by simpa using List.Subperm.refl _
  | a :: rest, cores => by
    refine (occupiedClaims_foldl_occupy rest (occupy cores a)).trans ?_
    have := (List.subperm_append_right
      ((rest.filterMap CoreAssignment.indrabaseEntry?).map (·.claim.indraId))).mpr
      (occupiedClaims_occupy cores a)
    rcases ha : a.indrabaseEntry? with _ | e <;> simpa [ha, List.filterMap_cons] using this
termination_by structural removed => removed

/-! ## The invariant -/

/-- The claim-index invariant of a protocol run in phase `p` under host `h`. -/
structure ClaimInv (p : Phase) (h : Host) (s : Scheduler) : Prop where
  /-- No id is present twice. -/
  nodup : (presentIds s).Nodup
  /-- The ids of the queue and of the occupants are in the index. -/
  queued : ∀ x ∈ queueIds s ++ occupantIds s, x ∈ s.indrabaseClaimIndex
  /-- So are those of `Scheduled`, unless a session change just wiped the index. -/
  scheduled : ∀ x ∈ scheduledIds s, x ∈ s.indrabaseClaimIndex ∨
    (p = .sessionChanged ∧ h.config.indrabaseCores = 0)

namespace ClaimInv

variable {p : Phase} {h : Host} {s s' : Scheduler}

theorem empty (h : Host) : ClaimInv .blockEnd h .empty :=
  ⟨.nil, by simp [queueIds, occupantIds, Scheduler.empty, IndrabaseClaimQueue.empty,
    occupiedClaims], by simp [scheduledIds, Scheduler.empty]⟩

/-- Outside a wiped session, every present id is in the index. -/
theorem mem_index (hs : ClaimInv p h s) (hk : ¬(p = .sessionChanged ∧ h.config.indrabaseCores = 0))
    {x : Nat} (hx : x ∈ presentIds s) : x ∈ s.indrabaseClaimIndex := by
  rw [(presentIds_perm s).mem_iff, List.mem_append] at hx
  rcases hx with hx | hx
  · exact hs.queued x hx
  · exact (hs.scheduled x hx).resolve_right hk

theorem session (hs : ClaimInv .blockEnd h s) (hr : RunInv s) (n : SessionChangeNotification)
    (indras : Indras) (b : Nat) :
    ClaimInv .sessionChanged ⟨n.newConfig, indras⟩ (initializerOnNewSession n indras b s) := by
  obtain ⟨hk0, hk⟩ := initializerOnNewSession_claims n indras b s hr.index
  have hocc : occupantIds (initializerOnNewSession n indras b s) = [] := by
    simp [occupantIds, initializerOnNewSession_availabilityCores]
  have hnd := (presentIds_perm s).nodup_iff.mp hs.nodup
  have hsch : scheduledIds (initializerOnNewSession n indras b s) = scheduledIds s := rfl
  rcases Nat.eq_zero_or_pos n.newConfig.indrabaseCores with h0 | h0
  · obtain ⟨hq, -⟩ := hk0 h0
    have hqi : queueIds (initializerOnNewSession n indras b s) = [] := by
      simp [queueIds, hq, IndrabaseClaimQueue.empty]
    refine ⟨?_, by simp [hqi, hocc], fun x _ => .inr ⟨rfl, h0⟩⟩
    simpa [presentIds, hqi, hocc, hsch] using hnd.sublist (List.sublist_append_right _ _)
  obtain ⟨hq, -, hmem⟩ := hk h0
  set tq := s.indrabaseQueue.queue ++ occupiedClaims s.availabilityCores
  have hqi : queueIds (initializerOnNewSession n indras b s) =
      (tq.filter (willKeep n.newConfig indras.isIndrabase)).map (·.claim.claim.indraId) := by
    simpa [queueIds, List.map_map] using congrArg (List.map (·.claim.indraId)) hq
  have htq : (tq.map (·.claim.claim.indraId)).Nodup := by
    rw [threadQueue_ids]; exact hnd.sublist (List.sublist_append_left _ _)
  have hpresent : ∀ x ∈ tq.map (·.claim.claim.indraId), x ∈ presentIds s := fun x hx =>
    (presentIds_perm s).mem_iff.mpr (List.mem_append_left _ (threadQueue_ids s ▸ hx))
  -- An id present before and not the id of a dropped entry stays in the index.
  have hkeep : ∀ x, x ∈ presentIds s → (∀ q ∈ tq, willKeep n.newConfig indras.isIndrabase q = false →
      x ≠ q.claim.claim.indraId) →
      x ∈ (initializerOnNewSession n indras b s).indrabaseClaimIndex := fun x hx hne =>
    (hmem x).mpr ⟨hs.mem_index (by simp) hx, hne⟩
  refine ⟨?_, fun x hx => ?_, fun x hx => .inl ?_⟩
  · have hsub : List.Sublist ((tq.filter (willKeep n.newConfig indras.isIndrabase)).map
        (·.claim.claim.indraId)) (queueIds s ++ occupantIds s) := by
      rw [← threadQueue_ids]; exact (List.filter_sublist _).map _
    rw [presentIds, hqi, hocc, hsch, List.append_nil]
    exact hnd.sublist (hsub.append_right _)
  · rw [hqi, hocc, List.append_nil] at hx
    obtain ⟨q, hq, rfl⟩ := List.mem_map.mp hx
    obtain ⟨hq, hkq⟩ := List.mem_filter.mp hq
    refine hkeep _ (hpresent _ (List.mem_map_of_mem _ hq)) fun q' hq' hk' he => ?_
    rw [List.inj_on_of_nodup_map htq hq hq' he] at hkq
    simp [hk'] at hkq
  · rw [hsch] at hx
    refine hkeep x ((presentIds_perm s).mem_iff.mpr (List.mem_append_right _ hx))
      fun q hq _ he => List.disjoint_of_nodup_append hnd ?_ hx
    rw [he, ← threadQueue_ids]; exact List.mem_map_of_mem _ hq

theorem addClaim (hs : ClaimInv p h s) (hr : RunInv s) {claim : IndrabaseClaim}
    (hok : addIndrabaseClaim h claim s = .ok s') : ClaimInv p h s' := by
  rcases addIndrabaseClaim_ok hr.index hok with rfl | ⟨-, hk, -, hnew, index, -, hperm, rfl⟩
  · exact hs
  have hk' : ¬(p = .sessionChanged ∧ h.config.indrabaseCores = 0) := fun h' => by omega
  have hfresh : claim.indraId ∉ presentIds s := fun hx => hnew (hs.mem_index hk' hx)
  have hmem : ∀ {x}, x ∈ s.indrabaseClaimIndex → x ∈ index := fun hx =>
    hperm.mem_iff.mpr (List.mem_cons_of_mem _ hx)
  refine ⟨?_, fun x hx => ?_, fun x hx => .inl (hmem ((hs.scheduled x hx).resolve_right hk'))⟩
  · refine (?_ : List.Perm (claim.indraId :: presentIds s) _).nodup_iff.mp
      (List.nodup_cons.mpr ⟨hfresh, hs.nodup⟩)
    simpa [presentIds, queueIds, List.append_assoc] using List.perm_middle.symm
  · simp only [queueIds, occupantIds, List.map_append, List.map_cons, List.map_nil,
      List.mem_append, List.mem_singleton] at hx
    rcases hx with (hx | rfl) | hx
    · exact hmem (hs.queued x (List.mem_append_left _ hx))
    · exact hperm.mem_iff.mpr (List.mem_cons_self _ _)
    · exact hmem (hs.queued x (List.mem_append_right _ hx))

/-- Freeing one core: a concluded occupant leaves with its id, a timed-out one moves to
the queue. -/
theorem freeCore (hs : ClaimInv p h s) (hidx : s.indrabaseClaimIndex.Pairwise (· < ·))
    {x : Nat × FreedReason} (hok : SelendraScheduler.freeCore h s x = .ok s') :
    ClaimInv p h s' := by
  obtain ⟨i, r⟩ := x
  obtain ⟨index, queue, rfl, heff⟩ := freeCore_ok hok
  set s₁ : Scheduler := { s with availabilityCores := s.availabilityCores.set i none,
                                 indrabaseClaimIndex := index, indrabaseQueue := queue }
  have hsch : scheduledIds s₁ = scheduledIds s := rfl
  revert heff
  split
  · rename_i e hi
    have hocc : (occupantIds s₁ ++ [e.claim.indraId]).Perm (occupantIds s) := by
      simpa [occupantIds, occupiedClaims] using (occupiedClaims_set_none hi).map
        (·.claim.claim.indraId)
    rintro (⟨-, rfl, rfl⟩ | ⟨-, rfl, hq⟩)
    · have hp : (presentIds s₁ ++ [e.claim.indraId]).Perm (presentIds s) := by
        rw [presentIds, List.append_assoc]; exact hocc.append_left _
      have hnd := hp.nodup_iff.mpr hs.nodup
      have hne : ∀ x ∈ presentIds s₁, x ≠ e.claim.indraId := fun x hx he =>
        List.disjoint_of_nodup_append hnd hx (he ▸ List.mem_singleton_self _)
      have hmem : ∀ x ∈ presentIds s₁, x ∈ s.indrabaseClaimIndex →
          x ∈ removeFromIndex s.indrabaseClaimIndex e.claim.indraId := fun x hx hi =>
        (mem_removeFromIndex hidx).mpr ⟨hne x hx, hi⟩
      refine ⟨hnd.of_append_left, fun x hx => hmem x ?_ (hs.queued x ?_), fun x hx => ?_⟩
      · simp only [presentIds, List.mem_append] at hx ⊢; tauto
      · simp only [List.mem_append] at hx ⊢
        exact hx.imp_right fun hx => hocc.subset (List.mem_append_left _ hx)
      · exact (hs.scheduled x hx).imp_left (hmem x (by simp [presentIds, hx]))
    · have hk : 0 < h.config.indrabaseCores := Nat.pos_of_ne_zero fun hk => by
        rw [hk, IndrabaseClaimQueue.enqueueEntry_zero] at hq; cases hq
      rw [IndrabaseClaimQueue.enqueueEntry_of_pos _ _ hk] at hq
      cases hq
      have hqi : queueIds s₁ = queueIds s ++ [e.claim.indraId] := by simp [s₁, queueIds]
      have hp : (presentIds s₁).Perm (presentIds s) := List.perm_iff_count.mpr fun x => by
        have := hocc.count_eq x
        simp only [presentIds, hqi, hsch, List.count_append] at this ⊢; omega
      refine ⟨hp.nodup_iff.mpr hs.nodup, fun x hx => hs.queued x ?_, by simpa using hs.scheduled⟩
      rw [hqi] at hx
      simp only [List.mem_append, List.mem_singleton] at hx ⊢
      rcases hx with (hx | rfl) | hx
      · exact .inl hx
      · exact .inr (hocc.subset (List.mem_append_right _ (List.mem_singleton_self _)))
      · exact .inr (hocc.subset (List.mem_append_left _ hx))
  · rename_i hi
    rintro ⟨rfl, rfl⟩
    have hocc : (occupantIds s₁).Perm (occupantIds s) := by
      rcases hc : s.availabilityCores[i]? with _ | o
      · simp [s₁, List.set_eq_of_length_le (List.getElem?_eq_none_iff.mp hc)]
      · have hnil : occupiedClaims [o] = [] := by
          rcases o with _ | _ | e
          · rfl
          · rfl
          · exact absurd hc (hi e)
        simpa [occupantIds, hnil] using (occupiedClaims_set_none hc).map (·.claim.claim.indraId)
    have hp : (presentIds s₁).Perm (presentIds s) := hocc.append_left _
    refine ⟨hp.nodup_iff.mpr hs.nodup, fun x hx => hs.queued x ?_, by simpa using hs.scheduled⟩
    exact (List.perm_append_left_iff _).mpr hocc |>.subset hx

theorem freeCores (hs : ClaimInv p h s) (hr : RunInv s) {freed : List (Nat × FreedReason)}
    (hok : SelendraScheduler.freeCores h freed s = .ok s') : ClaimInv p h s' :=
  (freeCores_induction (fun t => ClaimInv p h t ∧ t.indrabaseClaimIndex.Pairwise (· < ·))
    (fun _ _ _ ht hstep => ⟨ht.1.freeCore ht.2 hstep, freeCore_index_sorted ht.2 hstep⟩)
    ⟨hs, hr.index⟩ hok).1

/-- `schedule` moves ids from the queue to `Scheduled`. -/
theorem schedule (hs : ClaimInv .cleared h s) (hr : RunInv s) {freed : List (Nat × FreedReason)}
    {now : Nat} (hok : SelendraScheduler.schedule h freed now s = .ok s') :
    ClaimInv .scheduled h s' := by
  obtain ⟨s₁, new, scheduled, queue, h₁, rfl, -, hperm, -, hq, -⟩ :=
    schedule_ok hr.sorted (Nat.le_of_lt hr.coresLt) hok
  have hs₁ := hs.freeCores hr h₁
  set s' : Scheduler := { s₁ with scheduled, indrabaseQueue := queue }
  set moved := (new.filterMap CoreAssignment.indrabaseEntry?).map (·.claim.indraId)
  have hqi : (queueIds s₁).Perm (queueIds s' ++ moved) := by
    simpa [queueIds, moved, List.map_map] using hq.map (·.claim.indraId)
  have hsi : (scheduledIds s').Perm (scheduledIds s₁ ++ moved) := by
    simpa [scheduledIds, moved, List.filterMap_append] using
      (hperm.filterMap CoreAssignment.indrabaseEntry?).map (fun e : IndrabaseEntry => e.claim.indraId)
  have hocc : occupantIds s' = occupantIds s₁ := rfl
  have hp : (presentIds s').Perm (presentIds s₁) := List.perm_iff_count.mpr fun x => by
    have h1 := hqi.count_eq x
    have h2 := hsi.count_eq x
    simp only [presentIds, hocc, List.count_append] at h1 h2 ⊢
    omega
  refine ⟨hp.nodup_iff.mpr hs₁.nodup, fun x hx => hs₁.queued x ?_, fun x hx => .inl ?_⟩
  · simp only [List.mem_append] at hx ⊢
    exact hx.imp_left fun hx => hqi.symm.subset (List.mem_append_left _ hx)
  · rcases List.mem_append.mp (hsi.subset hx) with hx | hx
    · exact (hs₁.scheduled x hx).resolve_right (by simp)
    · exact hs₁.queued x (List.mem_append_left _ (hqi.symm.subset (List.mem_append_right _ hx)))

/-- `occupied` moves ids from `Scheduled` into the cores. -/
theorem occupied (hs : ClaimInv .scheduled h s) {o : List Nat}
    (hok : SelendraScheduler.occupied o s = .ok s') : ClaimInv .blockEnd h s' := by
  obtain ⟨kept, removed, rfl, -, hperm, -⟩ := occupied_ok hok
  set s' : Scheduler := { s with scheduled := kept,
                                 availabilityCores := removed.foldl occupy s.availabilityCores }
  set moved := (removed.filterMap CoreAssignment.indrabaseEntry?).map (·.claim.indraId)
  have hsi : (scheduledIds s).Perm (scheduledIds s' ++ moved) := by
    simpa [scheduledIds, moved, List.filterMap_append] using
      ((hperm.filterMap CoreAssignment.indrabaseEntry?).map
        (fun e : IndrabaseEntry => e.claim.indraId)).symm
  have hocc : (occupantIds s').Subperm (occupantIds s ++ moved) :=
    occupiedClaims_foldl_occupy removed s.availabilityCores
  have hsch : ∀ x ∈ scheduledIds s, x ∈ s.indrabaseClaimIndex := fun x hx =>
    (hs.scheduled x hx).resolve_right (by simp)
  have hp : (presentIds s').Subperm (presentIds s) := by
    refine ((List.subperm_append_left _).mpr hocc).trans (List.perm_iff_count.mpr fun x => ?_).subperm
    have := hsi.count_eq x
    have hq : queueIds s' = queueIds s := rfl
    simp only [presentIds, hq, List.count_append] at this ⊢
    omega
  refine ⟨nodup_of_subperm hp hs.nodup, fun x hx => ?_,
    fun x hx => .inl (hsch x (hsi.symm.subset (List.mem_append_left _ hx)))⟩
  rcases List.mem_append.mp hx with hx | hx
  · exact hs.queued x (List.mem_append_left _ hx)
  · rcases List.mem_append.mp (hocc.subset hx) with hx | hx
    · exact hs.queued x (List.mem_append_right _ hx)
    · exact hsch x (hsi.symm.subset (List.mem_append_right _ hx))

/-- `clear` re-queues ids of `Scheduled`, and only when there are indrabase cores. -/
theorem clear {p : Phase} (hs : ClaimInv p h s) (hok : SelendraScheduler.clear h s = .ok s') :
    ClaimInv .cleared h s' := by
  obtain ⟨queue, rfl, hq, hk⟩ := clear_ok hok
  set s' : Scheduler := { s with scheduled := [], indrabaseQueue := queue }
  set requeued := (s.scheduled.filterMap (requeueEntry? h)).map (·.claim.indraId)
  have hqi : queueIds s' = queueIds s ++ requeued := by
    simpa [queueIds, requeued, List.map_map] using congrArg (List.map (·.claim.indraId)) hq
  have hsub : List.Sublist requeued (scheduledIds s) := requeueEntry?_ids s.scheduled
  refine ⟨?_, fun x hx => ?_, by simp [scheduledIds, s']⟩
  · have : presentIds s' = queueIds s ++ requeued ++ occupantIds s := by
      simp [presentIds, hqi, scheduledIds, s']; rfl
    rw [this]
    exact hs.nodup.sublist ((hsub.append_left _).append_right _)
  · rw [hqi, List.append_assoc] at hx
    rcases List.mem_append.mp hx with hx | hx
    · exact hs.queued x (List.mem_append_left _ hx)
    rcases List.mem_append.mp hx with hx | hx
    · have hk' : 0 < h.config.indrabaseCores := hk fun he => by simp [requeued, he] at hx
      exact (hs.scheduled x (hsub.subset hx)).resolve_right (by omega)
    · exact hs.queued x (List.mem_append_right _ hx)

end ClaimInv

theorem ProtocolReachable.claimInv {p : Phase} {w : Chain} (hw : ProtocolReachable p w) :
    ClaimInv p w.host w.scheduler := by
  induction hw with
  | init host => exact ClaimInv.empty host
  | step c hw hnext _ _ happ ih =>
    have hr := hw.reachable.runInv
    rcases Phase.next_cases hnext with ⟨claim, rfl, rfl⟩ | ⟨n, i, b, rfl, rfl, rfl⟩ |
        ⟨rfl, -, rfl⟩ | ⟨freed, now, rfl, rfl, rfl⟩ | ⟨o, rfl, rfl, rfl⟩
    · obtain ⟨s', hok, rfl⟩ := map_eq_ok.mp happ; exact ih.addClaim hr hok
    · cases happ; exact ih.session hr n i b
    · obtain ⟨s', hok, rfl⟩ := map_eq_ok.mp happ; exact ih.clear hok
    · obtain ⟨s', hok, rfl⟩ := map_eq_ok.mp happ; exact ih.schedule hr hok
    · obtain ⟨s', hok, rfl⟩ := map_eq_ok.mp happ; exact ih.occupied hok

/-- In every state of every protocol run the claim index is strictly increasing, and no
indrabase id occurs twice among the queue, the indrabase assignments in `Scheduled` and the
indrabase occupants. -/
theorem claim_ids_unique {p : Phase} {w : Chain} (hw : ProtocolReachable p w) :
    w.scheduler.indrabaseClaimIndex.Pairwise (· < ·) ∧ (presentIds w.scheduler).Nodup :=
  ⟨hw.reachable.runInv.index, hw.claimInv.nodup⟩

theorem claim_ids_unique_at_block_two :
    ProtocolReachable .scheduled ⟨testHost, scheduledAtBlockTwo⟩ ∧
      scheduledAtBlockTwo.indrabaseClaimIndex.Pairwise (· < ·) ∧
      (presentIds scheduledAtBlockTwo).Nodup :=
  ⟨scheduledAtBlockTwo_reachable, claim_ids_unique scheduledAtBlockTwo_reachable⟩

/-! ## What the index does not track -/

/-- `indrabase_claims_are_pruned_after_retries` up to block 4: a session of two
validators, the claims of `1` and `2`, then blocks until `clear` has dropped both. -/
def prunedAfterRetries : List Call :=
  [.initializerOnNewSession ⟨[0, 1], defaultConfig⟩ prunedHost.indras 0] ++ idleBlock 1 ++
    [.addIndrabaseClaim ⟨1, 0⟩, .addIndrabaseClaim ⟨2, 0⟩] ++ idleBlock 2 ++ idleBlock 3 ++
    idleBlock 4

/-- The end of block 4 of that run: nothing queued, scheduled or occupied, and both ids
still in the index. -/
def prunedAtBlockFour : Scheduler :=
  ⟨[[0], [1], []], ⟨[], 1⟩, [none, none, none], [1, 2], 1, []⟩

/-- `clear` drops the claims past their retries but leaves their ids in the index, so a
new claim of the same indrabase is refused. -/
theorem claim_index_keeps_dropped_id :
    ProtocolReachable .blockEnd ⟨prunedHost, prunedAtBlockFour⟩ ∧
      1 ∈ prunedAtBlockFour.indrabaseClaimIndex ∧ 1 ∉ presentIds prunedAtBlockFour ∧
      addIndrabaseClaim prunedHost ⟨1, 0⟩ prunedAtBlockFour = .ok prunedAtBlockFour :=
  ⟨runProtocol_reachable (.init prunedHost)
    (show runProtocol .blockEnd _ prunedAfterRetries = _ from rfl),
    by decide, by decide, rfl⟩

/-- `default_config()` with one indrabase core and a lookahead of one: a queue of capacity
one. -/
def oneCoreConfig : HostConfiguration :=
  { defaultConfig with indrabaseCores := 1, schedulingLookahead := 1 }

def oneCoreHost : Host := ⟨oneCoreConfig, prunedHost.indras⟩

/-- Indrabase `1` is scheduled at block 2 and not backed, while the claim of `2` fills the
queue; the `clear` of block 3 re-queues `1` behind it. -/
def overfullQueue : List Call :=
  [.initializerOnNewSession ⟨[0], oneCoreConfig⟩ prunedHost.indras 0] ++ idleBlock 1 ++
    [.addIndrabaseClaim ⟨1, 0⟩, .clear, .schedule [] 2, .addIndrabaseClaim ⟨2, 0⟩, .occupied [],
     .clear]

/-- After the `clear` of block 3: two claims queued. -/
def overfullAtBlockThree : Scheduler :=
  ⟨[[0]], ⟨[⟨⟨⟨2, 0⟩, 0⟩, 0⟩, ⟨⟨⟨1, 0⟩, 1⟩, 0⟩], 0⟩, [none], [1, 2], 1, []⟩

/-- `clear` re-queues without the capacity check of `add_indrabase_claim`, so the queue
outgrows `indrabase_cores * scheduling_lookahead`. -/
theorem queue_exceeds_capacity :
    ProtocolReachable .cleared ⟨oneCoreHost, overfullAtBlockThree⟩ ∧
      oneCoreConfig.indrabaseCores * oneCoreConfig.schedulingLookahead <
        overfullAtBlockThree.indrabaseQueue.queue.length :=
  ⟨runProtocol_reachable (.init oneCoreHost)
    (show runProtocol .blockEnd _ overfullQueue = _ from rfl), by decide⟩

end SelendraScheduler
