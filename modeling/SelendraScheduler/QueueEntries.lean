import SelendraScheduler.Safety

/-!
# SelendraScheduler.QueueEntries

What a protocol run keeps of the indrabase claims waiting in the queue, on the cores and
in `Scheduled` (`EntryInv`):

* every queued entry, and the next one, is on an offset below `indrabase_cores`, so once a
  session change has sized the cores for the active configuration
  (`SessionReachable.cores_ge`) every queued claim names an existing multiplexer core,
  provided `n_indracores + indrabase_cores` fits a `u32` (`queued_offsets_within_cores`);
* every claim's retries are within `indrabase_retries` (`ProtocolReachable.entryInv`): a
  session change prunes the queue with the new limit and empties the cores, `clear`
  re-queues only within the limit, and the other entry points move claims unchanged.

When `n_indracores + indrabase_cores` wraps, `n_cores` is smaller than the offsets the
queue hands out (`queued_claim_without_core`).
-/

namespace SelendraScheduler

/-- What a protocol run in phase `p` under host `h` keeps of its indrabase claims. -/
structure EntryInv (p : Phase) (h : Host) (s : Scheduler) : Prop where
  /-- The queue's offsets are below the indrabase core count. -/
  onCores : s.indrabaseQueue.OnCores h.config.indrabaseCores
  /-- The queued claims are within the retry limit, -/
  queued : ∀ e ∈ s.indrabaseQueue.queue, e.claim.retries ≤ h.config.indrabaseRetries
  /-- so are the indrabase occupants, -/
  occupants : ∀ (c : Nat) e, s.availabilityCores[c]? = some (some (CoreOccupied.indrabase e)) →
    e.retries ≤ h.config.indrabaseRetries
  /-- and, but right after a session change, the indrabase assignments. -/
  scheduled : p ≠ .sessionChanged →
    ∀ e ∈ s.scheduled.filterMap CoreAssignment.indrabaseEntry?, e.retries ≤ h.config.indrabaseRetries

namespace EntryInv

variable {p : Phase} {h : Host} {s s' : Scheduler}

theorem empty (h : Host) : EntryInv .blockEnd h .empty :=
  ⟨⟨id, nofun⟩, nofun, fun c e => by simp [Scheduler.empty], fun _ => nofun⟩

/-- A session change re-balances what `will_keep` accepts and empties the cores. -/
theorem session (n : SessionChangeNotification) (indras : Indras) (b : Nat) :
    EntryInv .sessionChanged ⟨n.newConfig, indras⟩ (initializerOnNewSession n indras b s) := by
  have hocc : ∀ (c : Nat) e, (initializerOnNewSession n indras b s).availabilityCores[c]? =
      some (some (CoreOccupied.indrabase e)) → e.retries ≤ n.newConfig.indrabaseRetries :=
    fun c _ hc => (initializerOnNewSession_core_empty n indras b s c _ hc).elim
  rcases Nat.eq_zero_or_pos n.newConfig.indrabaseCores with hk | hk
  · have hq := (initializerOnNewSession_wiped n indras b s hk).1
    exact ⟨by rw [hq, hk]; exact ⟨id, nofun⟩, by rw [hq]; exact nofun, hocc, fun h => absurd rfl h⟩
  have hq := initializerOnNewSession_indrabaseQueue n indras b s hk
  refine ⟨hq ▸ rebalance_onCores _ hk, fun e he => ?_, hocc, fun h => absurd rfl h⟩
  rw [hq] at he
  have hmem := List.mem_map_of_mem QueuedIndrabase.claim he
  rw [rebalance_claims] at hmem
  obtain ⟨x, hx, hxe⟩ := List.mem_map.mp hmem
  have hkeep := (List.mem_filter.mp hx).2
  simp only [willKeep, Bool.and_eq_true, decide_eq_true_eq] at hkeep
  rw [← hxe]; exact hkeep.1

theorem addClaim (hs : EntryInv p h s) (hr : RunInv s) {claim : IndrabaseClaim}
    (hok : addIndrabaseClaim h claim s = .ok s') : EntryInv p h s' := by
  rcases addIndrabaseClaim_ok hr.index hok with rfl | ⟨-, hk, -, -, index, -, -, rfl⟩
  · exact hs
  refine ⟨hs.onCores.enqueueEntry (IndrabaseClaimQueue.enqueueEntry_of_pos _ ⟨claim, 0⟩ hk),
    fun e he => ?_, hs.occupants, hs.scheduled⟩
  rcases List.mem_append.mp he with he | he
  · exact hs.queued e he
  · rw [List.mem_singleton.mp he]; exact Nat.zero_le _

/-- Freeing a core drops its occupant or re-queues it unchanged. -/
theorem freeCore (hs : EntryInv p h s) {x : Nat × FreedReason}
    (hok : SelendraScheduler.freeCore h s x = .ok s') : EntryInv p h s' := by
  obtain ⟨i, r⟩ := x
  obtain ⟨index, queue, rfl, heff⟩ := freeCore_ok hok
  have hq : queue.OnCores h.config.indrabaseCores ∧
      ∀ e ∈ queue.queue, e.claim.retries ≤ h.config.indrabaseRetries := by
    revert heff
    split
    · rename_i e hi
      rintro (⟨-, -, rfl⟩ | ⟨-, -, hq⟩)
      · exact ⟨hs.onCores, hs.queued⟩
      refine ⟨hs.onCores.enqueueEntry hq, fun x hx => ?_⟩
      rw [IndrabaseClaimQueue.enqueueEntry_queue hq, List.mem_append, List.mem_singleton] at hx
      rcases hx with hx | rfl
      · exact hs.queued x hx
      · exact hs.occupants i e hi
    · rintro ⟨-, rfl⟩; exact ⟨hs.onCores, hs.queued⟩
  exact ⟨hq.1, hq.2, fun c e he => hs.occupants c e (getElem?_set_none he), hs.scheduled⟩

theorem freeCores (hs : EntryInv p h s) {freed : List (Nat × FreedReason)}
    (hok : SelendraScheduler.freeCores h freed s = .ok s') : EntryInv p h s' :=
  freeCores_induction (EntryInv p h) (fun _ _ _ ht hstep => ht.freeCore hstep) hs hok

/-- `schedule` moves claims off the queue into `Scheduled` unchanged. -/
theorem schedule (hs : EntryInv .cleared h s) (hr : RunInv s) {freed : List (Nat × FreedReason)}
    {now : Nat} (hok : SelendraScheduler.schedule h freed now s = .ok s') :
    EntryInv .scheduled h s' := by
  obtain ⟨s₂, h₂, hsub, hnext⟩ := schedule_queue hr.sorted hok
  obtain ⟨s₁, new, scheduled, queue, h₁, rfl, -, hperm, -, hq, -⟩ :=
    schedule_ok hr.sorted (Nat.le_of_lt hr.coresLt) hok
  obtain rfl : s₂ = s₁ := Except.ok.inj (h₂.symm.trans h₁)
  have hs₁ := hs.freeCores h₁
  refine ⟨hs₁.onCores.of_sublist hsub hnext, fun e he => hs₁.queued e (hsub.subset he),
    hs₁.occupants, fun _ e he => ?_⟩
  have hmem := (hperm.filterMap CoreAssignment.indrabaseEntry?).subset he
  rw [List.filterMap_append, List.mem_append] at hmem
  rcases hmem with hmem | hmem
  · exact hs₁.scheduled nofun e hmem
  · obtain ⟨x, hx, rfl⟩ := List.mem_map.mp (hq.symm.subset (List.mem_append_right _ hmem))
    exact hs₁.queued x hx

/-- `occupied` moves claims from `Scheduled` into their cores unchanged. -/
theorem occupied (hs : EntryInv .scheduled h s) {o : List Nat}
    (hok : SelendraScheduler.occupied o s = .ok s') : EntryInv .blockEnd h s' := by
  obtain ⟨kept, removed, rfl, hsub, hperm, -⟩ := occupied_ok hok
  have hsched := hs.scheduled nofun
  refine ⟨hs.onCores, hs.queued, fun c e he => ?_,
    fun _ e he => hsched e ((hsub.filterMap _).subset he)⟩
  rcases getElem?_foldl_occupy removed _ he with he | ⟨a, ha, -, hae⟩
  · exact hs.occupants c e he
  · exact hsched e (List.mem_filterMap.mpr ⟨a, hperm.subset (List.mem_append_right _ ha),
      CoreAssignment.indrabaseEntry?_of_toCoreOccupied hae.symm⟩)

/-- `clear` re-queues within the retry limit. -/
theorem clear (hs : EntryInv p h s) (hok : SelendraScheduler.clear h s = .ok s') :
    EntryInv .cleared h s' := by
  have hon := clear_onCores hs.onCores hok
  obtain ⟨queue, rfl, hq, -⟩ := clear_ok hok
  refine ⟨hon, fun e he => ?_, hs.occupants, fun _ => by simp⟩
  have hmem := List.mem_map_of_mem QueuedIndrabase.claim he
  rw [hq, List.mem_append] at hmem
  rcases hmem with hmem | hmem
  · obtain ⟨x, hx, hxe⟩ := List.mem_map.mp hmem
    rw [← hxe]; exact hs.queued x hx
  · obtain ⟨a, -, ha⟩ := List.mem_filterMap.mp hmem
    exact requeueEntry?_retries ha

end EntryInv

theorem ProtocolReachable.entryInv {p : Phase} {w : Chain} (hw : ProtocolReachable p w) :
    EntryInv p w.host w.scheduler := by
  induction hw with
  | init host => exact EntryInv.empty host
  | step c hw hnext _ _ happ ih =>
    have hr := hw.reachable.runInv
    rcases Phase.next_cases hnext with ⟨claim, rfl, rfl⟩ | ⟨n, i, b, rfl, rfl, rfl⟩ |
        ⟨rfl, -, rfl⟩ | ⟨freed, now, rfl, rfl, rfl⟩ | ⟨o, rfl, rfl, rfl⟩
    · obtain ⟨s', hok, rfl⟩ := map_eq_ok.mp happ; exact ih.addClaim hr hok
    · cases happ; exact EntryInv.session n i b
    · obtain ⟨s', hok, rfl⟩ := map_eq_ok.mp happ; exact ih.clear hok
    · obtain ⟨s', hok, rfl⟩ := map_eq_ok.mp happ; exact ih.schedule hr hok
    · obtain ⟨s', hok, rfl⟩ := map_eq_ok.mp happ; exact ih.occupied hok

/-! ## Offsets name cores -/

/-- After a session change there are at least `n_indracores + indrabase_cores` cores, as a
`u32`: only a session change sets the host and resizes the cores. -/
theorem SessionReachable.cores_ge {p : Phase} {w : Chain} (hw : SessionReachable p w) :
    asU32 (w.host.indras.indracores.length + w.host.config.indrabaseCores) ≤
      w.scheduler.availabilityCores.length := by
  induction hw with
  | session n i b _ happ => cases happ; exact initializerOnNewSession_cores_ge n i b _
  | step c hw hnext _ _ happ ih =>
    have hr := hw.protocolReachable.reachable.runInv
    rcases Phase.next_cases hnext with ⟨claim, rfl, rfl⟩ | ⟨n, i, b, rfl, rfl, rfl⟩ |
        ⟨rfl, -, rfl⟩ | ⟨freed, now, rfl, rfl, rfl⟩ | ⟨o, rfl, rfl, rfl⟩
    · obtain ⟨s', hok, rfl⟩ := map_eq_ok.mp happ
      rcases addIndrabaseClaim_ok hr.index hok with rfl | ⟨-, -, -, -, _, -, -, rfl⟩ <;> exact ih
    · cases happ; exact initializerOnNewSession_cores_ge n i b _
    · obtain ⟨s', hok, rfl⟩ := map_eq_ok.mp happ
      obtain ⟨_, rfl, -⟩ := clear_ok hok
      exact ih
    · obtain ⟨s', hok, rfl⟩ := map_eq_ok.mp happ
      obtain ⟨s₁, _, _, _, h₁, rfl, -⟩ := schedule_ok hr.sorted (Nat.le_of_lt hr.coresLt) hok
      exact (freeCores_frame h₁).2.2.2 ▸ ih
    · obtain ⟨s', hok, rfl⟩ := map_eq_ok.mp happ
      obtain ⟨_, _, rfl, -⟩ := occupied_ok hok
      simpa using ih

/-- After a session change, with indrabase cores, the next offset and every queued entry's
offset are below `indrabase_cores`, so when `n_indracores + indrabase_cores` fits a `u32`,
the multiplexer core `n_indracores + core_offset` exists; without indrabase cores the
queue is empty. -/
theorem queued_offsets_within_cores {p : Phase} {w : Chain} (hw : SessionReachable p w) :
    (0 < w.host.config.indrabaseCores →
      w.scheduler.indrabaseQueue.nextCoreOffset < w.host.config.indrabaseCores ∧
      ∀ e ∈ w.scheduler.indrabaseQueue.queue, e.coreOffset < w.host.config.indrabaseCores ∧
        (w.host.indras.indracores.length + w.host.config.indrabaseCores < 2 ^ 32 →
          w.host.indras.indracores.length + e.coreOffset <
            w.scheduler.availabilityCores.length)) ∧
    (w.host.config.indrabaseCores = 0 → w.scheduler.indrabaseQueue.queue = []) := by
  have hon := hw.protocolReachable.entryInv.onCores
  have hge := hw.cores_ge
  refine ⟨fun hk => ⟨hon.next hk, fun e he => ⟨hon.queued e he, fun hn => ?_⟩⟩,
    hw.protocolReachable.safeInv.noQueue⟩
  rw [asU32_of_lt hn] at hge
  have := hon.queued e he
  omega

/-- `schedule_schedules` past its session change, up to the `schedule` of block 2. -/
theorem scheduledAtBlockTwo_sessionReachable :
    SessionReachable .scheduled ⟨testHost, scheduledAtBlockTwo⟩ :=
  runProtocol_sessionReachable
    (.session ⟨[0, 1, 2, 3, 4], defaultConfig⟩ testHost.indras 0 (.init testHost) rfl)
    (show runProtocol .sessionChanged _ scheduleSchedules.tail = _ from rfl)

/-- Two calls further: block 2 ends with cores 0 and 2 occupied, and the `clear` of block 3
re-queues the claim of indrabase `5`. -/
theorem clearedAtBlockThree_sessionReachable :
    SessionReachable .cleared ⟨testHost, clearedAtBlockThree⟩ :=
  runProtocol_sessionReachable scheduledAtBlockTwo_sessionReachable
    (show runProtocol _ _ [.occupied [0, 2], .clear] = _ from rfl)

theorem queued_offsets_within_cores_at_block_three :
    SessionReachable .cleared ⟨testHost, clearedAtBlockThree⟩ ∧
    (0 < testHost.config.indrabaseCores →
      clearedAtBlockThree.indrabaseQueue.nextCoreOffset < testHost.config.indrabaseCores ∧
      ∀ e ∈ clearedAtBlockThree.indrabaseQueue.queue, e.coreOffset < testHost.config.indrabaseCores ∧
        (testHost.indras.indracores.length + testHost.config.indrabaseCores < 2 ^ 32 →
          testHost.indras.indracores.length + e.coreOffset <
            clearedAtBlockThree.availabilityCores.length)) ∧
    (testHost.config.indrabaseCores = 0 → clearedAtBlockThree.indrabaseQueue.queue = []) :=
  ⟨clearedAtBlockThree_sessionReachable,
    queued_offsets_within_cores clearedAtBlockThree_sessionReachable⟩

/-- `default_config()` with the largest `u32` count of indrabase cores. -/
def maxCoresConfig : HostConfiguration := { defaultConfig with indrabaseCores := 2 ^ 32 - 1 }

/-- Indracore `1` and indrabase `2`. -/
def maxCoresHost : Host := ⟨maxCoresConfig, ⟨[1], fun i => i == 2⟩⟩

/-- A session change to that configuration with one validator, then a claim of `2`. -/
def wrappedCoreCount : List Call :=
  [.initializerOnNewSession ⟨[0], maxCoresConfig⟩ maxCoresHost.indras 0,
   .addIndrabaseClaim ⟨2, 0⟩]

/-- After that run: no core, and the claim queued on offset `0`. -/
def claimWithoutCore : Scheduler := ⟨[], ⟨[⟨⟨⟨2, 0⟩, 0⟩, 0⟩], 1⟩, [], [2], 1, []⟩

/-- `n_indracores + indrabase_cores` wraps to `0` in `n_cores`, so the session change makes
no core, and the claim queued on offset `0` names the core `1`, which does not exist. -/
theorem queued_claim_without_core :
    SessionReachable .sessionChanged ⟨maxCoresHost, claimWithoutCore⟩ ∧
      0 < maxCoresHost.config.indrabaseCores ∧
      ⟨⟨⟨2, 0⟩, 0⟩, 0⟩ ∈ claimWithoutCore.indrabaseQueue.queue ∧
      claimWithoutCore.availabilityCores.length ≤ maxCoresHost.indras.indracores.length + 0 :=
  ⟨runProtocol_sessionReachable
    (.session ⟨[0], maxCoresConfig⟩ maxCoresHost.indras 0 (.init maxCoresHost) rfl)
    (show runProtocol .sessionChanged _ wrappedCoreCount.tail = _ from rfl),
    by decide, List.mem_singleton_self _, by decide⟩

end SelendraScheduler
