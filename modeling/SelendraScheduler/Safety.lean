import SelendraScheduler.Invariants

/-!
# SelendraScheduler.Safety

Why the block protocol does not panic in `schedule` and `occupied`. Beside `RunInv` (as
many groups as cores, or none), a protocol run keeps `SafeInv`:

* without indrabase cores nothing indrabase is queued or occupying a core, and, but right
  after a session change, nothing indrabase is scheduled: so `free_cores` never re-queues
  with a zero divisor;
* after the block's `clear`, every scheduled core is in bounds: so `occupied` never
  indexes past the cores;
* `Scheduled` is empty after `clear`.

So with a positive rotation frequency, `schedule` at or after the session start and
`occupied` on any cores succeed (`schedule_and_occupied_succeed`). The exception in the
first point is real: a session change to zero indrabase cores keeps a stale indrabase
assignment in `Scheduled`, and the next `clear` divides by zero
(`clear_panics_after_zero_core_session`). `add_indrabase_claim` needs no invariant: it
never panics, from any state (`add_claim_never_panics`).
-/

namespace SelendraScheduler

theorem CoreAssignment.indrabaseEntry?_of_toCoreOccupied {a : CoreAssignment} {e : IndrabaseEntry}
    (h : a.toCoreOccupied = .indrabase e) : a.indrabaseEntry? = some e := by
  unfold CoreAssignment.toCoreOccupied at h
  unfold CoreAssignment.indrabaseEntry?
  rcases hk : a.kind with _ | ⟨collator, retries⟩ <;> rw [hk] at h
  · cases h
  · cases h; rfl

/-- What keeps `schedule` and `occupied` from panicking in a protocol run. -/
structure SafeInv (p : Phase) (h : Host) (s : Scheduler) : Prop where
  /-- Without indrabase cores nothing is queued, -/
  noQueue : h.config.indrabaseCores = 0 → s.indrabaseQueue.queue = []
  /-- no core holds an indrabase, -/
  noOccupant : h.config.indrabaseCores = 0 →
    ∀ (c : Nat) e, s.availabilityCores[c]? ≠ some (some (CoreOccupied.indrabase e))
  /-- and, but right after a session change, nothing indrabase is scheduled. -/
  noScheduled : h.config.indrabaseCores = 0 → p ≠ .sessionChanged →
    s.scheduled.filterMap CoreAssignment.indrabaseEntry? = []
  /-- After the block's `clear`, every scheduled core is in bounds. -/
  bounded : p ≠ .sessionChanged → ∀ a ∈ s.scheduled, a.core < s.availabilityCores.length
  /-- `Scheduled` is empty after `clear`. -/
  cleared : p = .cleared → s.scheduled = []

namespace SafeInv

variable {p : Phase} {h : Host} {s s' : Scheduler}

theorem empty (h : Host) : SafeInv .blockEnd h .empty :=
  ⟨fun _ => rfl, fun _ c e => by simp [Scheduler.empty], fun _ _ => rfl, fun _ => by
    simp [Scheduler.empty], nofun⟩

theorem session (hs : RunInv s) (n : SessionChangeNotification) (indras : Indras) (b : Nat) :
    SafeInv .sessionChanged ⟨n.newConfig, indras⟩ (initializerOnNewSession n indras b s) := by
  obtain ⟨hk0, -⟩ := initializerOnNewSession_claims n indras b s hs.index
  exact ⟨fun hk => by rw [(hk0 hk).1]; rfl,
    fun _ c _ => initializerOnNewSession_core_empty n indras b s c _, fun _ h => absurd rfl h,
    fun h => absurd rfl h, nofun⟩

theorem addClaim (hs : SafeInv p h s) (hr : RunInv s) {claim : IndrabaseClaim}
    (hok : addIndrabaseClaim h claim s = .ok s') : SafeInv p h s' := by
  rcases addIndrabaseClaim_ok hr.index hok with rfl | ⟨-, hk, -, -, index, -, -, rfl⟩
  · exact hs
  · exact ⟨fun h => by omega, hs.noOccupant, hs.noScheduled, hs.bounded, hs.cleared⟩

theorem freeCore (hs : SafeInv p h s) {x : Nat × FreedReason}
    (hok : SelendraScheduler.freeCore h s x = .ok s') : SafeInv p h s' := by
  obtain ⟨i, r⟩ := x
  obtain ⟨index, queue, rfl, heff⟩ := freeCore_ok hok
  have hq : h.config.indrabaseCores = 0 → queue = s.indrabaseQueue := fun hk => by
    revert heff
    split
    · rintro (⟨-, -, rfl⟩ | ⟨-, -, hq⟩)
      · rfl
      · rw [hk, IndrabaseClaimQueue.enqueueEntry_zero] at hq; cases hq
    · rintro ⟨-, rfl⟩; rfl
  refine ⟨fun hk => by rw [hq hk]; exact hs.noQueue hk, fun hk c e he =>
    hs.noOccupant hk c e (getElem?_set_none he), hs.noScheduled, fun hp => ?_, hs.cleared⟩
  simpa using hs.bounded hp

theorem freeCores (hs : SafeInv p h s) {freed : List (Nat × FreedReason)}
    (hok : SelendraScheduler.freeCores h freed s = .ok s') : SafeInv p h s' :=
  freeCores_induction (SafeInv p h) (fun _ _ _ ht hstep => ht.freeCore hstep) hs hok

theorem schedule (hs : SafeInv .cleared h s) (hr : RunInv s) {freed : List (Nat × FreedReason)}
    {now : Nat} (hok : SelendraScheduler.schedule h freed now s = .ok s') :
    SafeInv .scheduled h s' := by
  obtain ⟨s₁, new, scheduled, queue, h₁, rfl, -, hperm, hnew, hq, -⟩ :=
    schedule_ok hr.sorted (Nat.le_of_lt hr.coresLt) hok
  have hs₁ := hs.freeCores h₁
  have hsch : scheduled.Perm new := by simpa [hs₁.cleared rfl] using hperm
  -- Without indrabase cores the queue was empty, so no indrabase was taken off it.
  have hk0 : h.config.indrabaseCores = 0 →
      queue.queue = [] ∧ new.filterMap CoreAssignment.indrabaseEntry? = [] := fun hk => by
    have := hq.length_eq
    rw [hs₁.noQueue hk] at this
    simpa [List.length_append, eq_comm (a := 0)] using this
  refine ⟨fun hk => (hk0 hk).1, hs₁.noOccupant, fun hk _ => ?_, fun _ a ha => ?_, nofun⟩
  · exact List.eq_nil_of_length_eq_zero
      (((hsch.filterMap _).length_eq).trans (by rw [(hk0 hk).2]; rfl))
  · obtain ⟨c, hc, -, -, rfl⟩ := hnew a (hsch.subset ha)
    exact (List.getElem?_eq_some_iff.mp hc).1

theorem occupied (hs : SafeInv .scheduled h s) {o : List Nat}
    (hok : SelendraScheduler.occupied o s = .ok s') : SafeInv .blockEnd h s' := by
  obtain ⟨kept, removed, rfl, hsub, hperm, -⟩ := occupied_ok hok
  have hsched := fun hk => hs.noScheduled hk (by simp)
  refine ⟨hs.noQueue, fun hk c e he => ?_, fun hk _ => ?_, fun _ a ha => ?_, nofun⟩
  · rcases getElem?_foldl_occupy removed _ he with he | ⟨a, ha, -, hae⟩
    · exact hs.noOccupant hk c e he
    · have := List.filterMap_eq_nil_iff.mp (hsched hk) a
        (hperm.subset (List.mem_append_right _ ha))
      rw [CoreAssignment.indrabaseEntry?_of_toCoreOccupied hae.symm] at this
      cases this
  · exact List.eq_nil_of_sublist_nil (hsched hk ▸ hsub.filterMap _)
  · simpa using hs.bounded (by simp) a (hsub.subset ha)

theorem clear (hs : SafeInv p h s) (hok : SelendraScheduler.clear h s = .ok s') :
    SafeInv .cleared h s' := by
  obtain ⟨queue, rfl, hq, hk⟩ := clear_ok hok
  refine ⟨fun h0 => ?_, hs.noOccupant, fun _ _ => rfl, fun _ => by simp, fun _ => rfl⟩
  have hnil : s.scheduled.filterMap (requeueEntry? h) = [] := by
    by_contra hne; have := hk hne; omega
  have : queue.queue.map (·.claim) = [] := by rw [hq, hs.noQueue h0, hnil]; rfl
  exact List.map_eq_nil_iff.mp this

end SafeInv

theorem ProtocolReachable.safeInv {p : Phase} {w : Chain} (hw : ProtocolReachable p w) :
    SafeInv p w.host w.scheduler := by
  induction hw with
  | init host => exact SafeInv.empty host
  | step c hw hnext _ _ happ ih =>
    have hr := hw.reachable.runInv
    rcases Phase.next_cases hnext with ⟨claim, rfl, rfl⟩ | ⟨n, i, b, rfl, rfl, rfl⟩ |
        ⟨rfl, -, rfl⟩ | ⟨freed, now, rfl, rfl, rfl⟩ | ⟨o, rfl, rfl, rfl⟩
    · obtain ⟨s', hok, rfl⟩ := map_eq_ok.mp happ; exact ih.addClaim hr hok
    · cases happ; exact SafeInv.session hr n i b
    · obtain ⟨s', hok, rfl⟩ := map_eq_ok.mp happ; exact ih.clear hok
    · obtain ⟨s', hok, rfl⟩ := map_eq_ok.mp happ; exact ih.schedule hr hok
    · obtain ⟨s', hok, rfl⟩ := map_eq_ok.mp happ; exact ih.occupied hok

/-- In every protocol state with a positive rotation frequency, `schedule` at or after the
session start succeeds on any freed cores. -/
theorem ProtocolReachable.schedule_succeeds {p : Phase} {w : Chain} (hw : ProtocolReachable p w)
    (hf : 0 < w.host.config.groupRotationFrequency) (freed : List (Nat × FreedReason))
    {now : Nat} (hnow : w.scheduler.sessionStartBlock ≤ now) :
    ∃ s', schedule w.host freed now w.scheduler = .ok s' := by
  have hr := hw.reachable.runInv
  obtain ⟨s₁, h₁⟩ : ∃ s₁, freeCores w.host freed w.scheduler = .ok s₁ :=
    freeCores_exists ((Nat.eq_zero_or_pos _).symm.imp_right hw.safeInv.noOccupant)
  exact schedule_exists hr.sorted (Nat.le_of_lt hr.coresLt) (fun hne c hc =>
    ⟨_, groupAssignedToCore_eq hf hnow (by rw [hr.groups.resolve_left hne]; exact hc)⟩) h₁

/-- After the block's `schedule`, `occupied` succeeds on any cores. -/
theorem ProtocolReachable.occupied_succeeds {w : Chain} (hw : ProtocolReachable .scheduled w)
    (o : List Nat) : ∃ s', occupied o w.scheduler = .ok s' :=
  occupied_exists fun a ha _ => hw.safeInv.bounded nofun a ha

/-- In every protocol run with a positive rotation frequency: there are no groups or one
per core; after the block's `clear` every scheduled core is in bounds; `schedule`, called
after `clear` at or after the session start, succeeds, so it never reaches the panic of its
`expect`; and `occupied` after `schedule` succeeds on any cores, so it never indexes past
them. -/
theorem schedule_and_occupied_succeed {p : Phase} {w : Chain} (hw : ProtocolReachable p w)
    (hf : 0 < w.host.config.groupRotationFrequency) :
    (w.scheduler.validatorGroups ≠ [] →
      w.scheduler.validatorGroups.length = w.scheduler.availabilityCores.length) ∧
    (p ≠ .sessionChanged →
      ∀ a ∈ w.scheduler.scheduled, a.core < w.scheduler.availabilityCores.length) ∧
    (p = .cleared → ∀ freed now, w.scheduler.sessionStartBlock ≤ now →
      ∃ s', schedule w.host freed now w.scheduler = .ok s') ∧
    (p = .scheduled → ∀ o, ∃ s', occupied o w.scheduler = .ok s') := by
  refine ⟨hw.reachable.runInv.groups.resolve_left, hw.safeInv.bounded,
    fun _ freed _ hnow => hw.schedule_succeeds hf freed hnow,
    fun hp => by subst hp; exact hw.occupied_succeeds⟩

theorem schedule_and_occupied_succeed_at_block_two :
    ProtocolReachable .scheduled ⟨testHost, scheduledAtBlockTwo⟩ ∧
      0 < testHost.config.groupRotationFrequency ∧
      (scheduledAtBlockTwo.validatorGroups ≠ [] →
        scheduledAtBlockTwo.validatorGroups.length =
          scheduledAtBlockTwo.availabilityCores.length) ∧
      (Phase.scheduled ≠ .sessionChanged → ∀ a ∈ scheduledAtBlockTwo.scheduled,
        a.core < scheduledAtBlockTwo.availabilityCores.length) ∧
      (Phase.scheduled = .cleared → ∀ freed now, scheduledAtBlockTwo.sessionStartBlock ≤ now →
        ∃ s', schedule testHost freed now scheduledAtBlockTwo = .ok s') ∧
      (Phase.scheduled = .scheduled → ∀ o, ∃ s', occupied o scheduledAtBlockTwo = .ok s') :=
  ⟨scheduledAtBlockTwo_reachable, by decide,
    schedule_and_occupied_succeed scheduledAtBlockTwo_reachable (by decide)⟩

/-! ## `add_indrabase_claim` -/

/-- **`add_indrabase_claim` never panics**, from any state: without indrabase cores the
capacity `n_indrabase_cores * scheduling_lookahead` is `0`, so it returns before
`enqueue_entry` divides by the core count, and `binary_search` never reports an insertion
point past the index. -/
theorem add_claim_never_panics (h : Host) (claim : IndrabaseClaim) (s : Scheduler) :
    ∃ s', addIndrabaseClaim h claim s = .ok s' := by
  unfold addIndrabaseClaim
  split
  · exact ⟨_, rfl⟩
  simp only
  split
  · exact ⟨_, rfl⟩
  rename_i hroom
  have hk : 0 < h.config.indrabaseCores :=
    Nat.pos_of_ne_zero fun hk => by simp [hk, asU32] at hroom
  split
  · exact ⟨_, rfl⟩
  rename_i i hi
  simp [vecInsert, binarySearch_error_le hi, IndrabaseClaimQueue.enqueueEntry_of_pos _ _ hk,
    bind, Except.bind, pure, Except.pure]

/-! ## A session change to zero indrabase cores -/

/-- `default_config()` with no indrabase cores. -/
def zeroCoreConfig : HostConfiguration := { defaultConfig with indrabaseCores := 0 }

def zeroCoreHost : Host := ⟨zeroCoreConfig, prunedHost.indras⟩

/-- The claim of indrabase `1` is scheduled at block 2 and not backed; at the end of block 2
a session change removes every indrabase core. -/
def zeroCoreSession : List Call :=
  [.initializerOnNewSession ⟨[0, 1], defaultConfig⟩ prunedHost.indras 0] ++ idleBlock 1 ++
    [.addIndrabaseClaim ⟨1, 0⟩] ++ idleBlock 2 ++
    [.initializerOnNewSession ⟨[0, 1], zeroCoreConfig⟩ prunedHost.indras 2]

/-- After that session change: queue, index, groups and cores wiped, the assignment of `1`
still in `Scheduled`. -/
def afterZeroCoreSession : Scheduler :=
  ⟨[], ⟨[], 0⟩, [], [], 3, [⟨0, 1, .indrabase 0 0, 0⟩]⟩

/-- The session change wipes the queue and the index but not `Scheduled`, so the next
block's `clear` re-queues the stale claim with zero indrabase cores and panics. -/
theorem clear_panics_after_zero_core_session :
    ProtocolReachable .sessionChanged ⟨zeroCoreHost, afterZeroCoreSession⟩ ∧
      Phase.sessionChanged.next .clear = some .cleared ∧
      clear zeroCoreHost afterZeroCoreSession = .error .remainderByZero :=
  ⟨runProtocol_reachable (.init prunedHost)
    (show runProtocol .blockEnd _ zeroCoreSession = _ from rfl), rfl, rfl⟩

end SelendraScheduler
