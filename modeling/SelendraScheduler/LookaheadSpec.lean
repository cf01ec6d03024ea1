import SelendraScheduler.Safety

/-!
# SelendraScheduler.LookaheadSpec

The two lookaheads against what `schedule` does once the core is freed.

`schedule` assigns a free core that `Scheduled` does not hold what `assignCoreWith` gives
on the queue `free_cores` leaves behind, although the sweep fills the smaller free cores
first: those take on other offsets (`sweepSpec_find`, `schedule_find`).

* A concluded core: `free_cores` leaves the queue as it was, so `next_up_on_available`,
  which reads that queue, is what `schedule` puts on the core
  (`next_up_on_available_agrees_with_schedule`).
* A timed-out indrabase core: `free_cores` re-queues the occupant on `next_core_offset`,
  not on the core's own offset.  `schedule` then puts on the core the first entry queued
  on its offset, or else the occupant only if `next_core_offset` was that offset
  (`schedule_timedOut_find`).  `next_up_on_time_out` always falls back to the occupant, so
  it is right exactly when an entry is queued on the offset or the two offsets agree
  (`nextUpOnTimeOut_eq_iff`), which with one multiplexer core is always the case, and with
  several is not (`time_out_lookahead_misses_core`).
-/

namespace SelendraScheduler

/-! ## The lookaheads -/

section Lookahead

variable {h : Host} {s : Scheduler} {c : Nat}

/-- On a multiplexer core `assignCoreWith` assigns the first entry queued on the core's
offset. -/
theorem assignCoreWith_toScheduledCore {g : Nat} {q : IndrabaseClaimQueue}
    (hn : h.indras.indracores.length ≤ c) :
    (assignCoreWith h c g q).2.map CoreAssignment.toScheduledCore =
      (q.getNextOnCore (asU32 (c - h.indras.indracores.length))).map
        IndrabaseEntry.toScheduledCore := by
  simp only [assignCoreWith, Nat.not_lt.mpr hn, dite_false,
    IndrabaseClaimQueue.takeNextOnCore_snd, Option.map_map]
  rfl

theorem nextUpOnAvailable_of_le (hn : h.indras.indracores.length ≤ c) :
    nextUpOnAvailable h s c =
      (s.indrabaseQueue.getNextOnCore (asU32 (c - h.indras.indracores.length))).map
        IndrabaseEntry.toScheduledCore := by
  simp [nextUpOnAvailable, Nat.not_lt.mpr hn]

/-- `next_up_on_available` is what `assignCoreWith` assigns the core from the current
queue, whatever its group. -/
theorem nextUpOnAvailable_eq (g : Nat) :
    nextUpOnAvailable h s c =
      (assignCoreWith h c g s.indrabaseQueue).2.map CoreAssignment.toScheduledCore := by
  by_cases hc : c < h.indras.indracores.length
  · simp [nextUpOnAvailable, assignCoreWith, hc, CoreAssignment.toScheduledCore,
      CoreAssignment.requiredCollator]
  · rw [nextUpOnAvailable_of_le (Nat.le_of_not_lt hc), assignCoreWith_toScheduledCore
      (Nat.le_of_not_lt hc)]

/-- `next_up_on_time_out` is `next_up_on_available` falling back to an indrabase
occupant. -/
theorem nextUpOnTimeOut_eq_or :
    nextUpOnTimeOut h s c = (nextUpOnAvailable h s c).or (occupyingClaim s c) := by
  by_cases hc : c < h.indras.indracores.length <;> simp [nextUpOnTimeOut, nextUpOnAvailable, hc]

end Lookahead

/-! ## `schedule` on one freed core -/

section FreeOne

variable {h : Host} {s s' : Scheduler} {c : Nat}

theorem freeCores_singleton (x : Nat × FreedReason) : freeCores h [x] s = freeCore h s x := by
  simp [freeCores]

/-- Freeing a core as concluded empties it and touches only the claim index. -/
theorem freeCore_concluded (hok : freeCore h s (c, .concluded) = .ok s') :
    ∃ index, s' = { s with availabilityCores := s.availabilityCores.set c none,
                           indrabaseClaimIndex := index } := by
  obtain ⟨index, queue, rfl, heff⟩ := freeCore_ok hok
  suffices queue = s.indrabaseQueue from ⟨index, by rw [this]⟩
  revert heff
  split
  · rintro (⟨-, -, rfl⟩ | ⟨hr, -⟩)
    · rfl
    · cases hr
  · rintro ⟨-, rfl⟩; rfl

/-- Freeing a core whose indrabase occupant timed out empties it and re-queues the
occupant with `enqueue_entry`. -/
theorem freeCore_timedOut {e : IndrabaseEntry}
    (he : s.availabilityCores[c]? = some (some (.indrabase e)))
    (hok : freeCore h s (c, .timedOut) = .ok s') :
    ∃ queue, s.indrabaseQueue.enqueueEntry e h.config.indrabaseCores = .ok queue ∧
      s' = { s with availabilityCores := s.availabilityCores.set c none,
                    indrabaseQueue := queue } := by
  obtain ⟨index, queue, rfl, heff⟩ := freeCore_ok hok
  simp only [he] at heff
  obtain ⟨hr, -⟩ | ⟨-, rfl, hq⟩ := heff
  · cases hr
  · exact ⟨queue, hq, rfl⟩

/-- What `schedule` puts on a free core that `Scheduled` does not hold, when there are
groups: what `assignCoreWith` gives on the queue `free_cores` leaves. -/
theorem schedule_find {freed : List (Nat × FreedReason)} {now : Nat} {s₁ : Scheduler}
    (hs : SortedByCore s.scheduled) (hlen : s.availabilityCores.length ≤ 2 ^ 32)
    (h₁ : freeCores h freed s = .ok s₁) (hne : s₁.validatorGroups ≠ [])
    (hc : s₁.availabilityCores[c]? = some none) (hcs : c ∉ s₁.scheduledCores)
    (hok : schedule h freed now s = .ok s') :
    ∃ g, s'.scheduled.find? (·.core == c) = (assignCoreWith h c g s₁.indrabaseQueue).2 := by
  obtain ⟨s₂, h₂, hcases⟩ := schedule_eq hs hok
  obtain rfl : s₁ = s₂ := Except.ok.inj (h₁.symm.trans h₂)
  obtain ⟨hg, -⟩ | ⟨q, us, r, hsw, hins, rfl⟩ := hcases
  · exact absurd hg hne
  obtain ⟨hsch, -, -, hlen₁⟩ := freeCores_frame h₁
  obtain ⟨r', hr, hrs, hrp, -⟩ := insertUpdates_of_sweep (hsch ▸ hs) (hlen₁ ▸ hlen) hsw
  obtain rfl : r' = r := Except.ok.inj (hr.symm.trans hins)
  have hlt : ∀ c' ∈ freeCoreIndices s₁.availabilityCores, c' < 2 ^ 32 := fun c' hc' => by
    have := lt_of_mem_freeCoreIndices hc'; omega
  obtain ⟨g, hfind⟩ :=
    sweepSpec_find (freeCoreIndices_sorted _) hlt hsw (mem_freeCoreIndices.mpr hc) hcs
  exact ⟨g, (hrs.find?_core_of_perm hrp fun a ha he =>
    hcs (List.mem_map.mpr ⟨a, ha, he⟩)).trans hfind⟩

end FreeOne

/-! ## A concluded core -/

/-- In every protocol state with groups, for an occupied core that `Scheduled` does not
hold and a block at or after the session start: `schedule` with the core concluded
succeeds when the rotation frequency is positive, and `next_up_on_available` is the indra
and collator of what it puts on the core, `None` when it puts nothing there. -/
theorem next_up_on_available_agrees_with_schedule {p : Phase} {w : Chain} {c now : Nat}
    (hw : ProtocolReachable p w) (hne : w.scheduler.validatorGroups ≠ [])
    (hocc : w.scheduler.isOccupied c = true) (hcs : c ∉ w.scheduler.scheduledCores)
    (hnow : w.scheduler.sessionStartBlock ≤ now) :
    (0 < w.host.config.groupRotationFrequency →
      ∃ s', schedule w.host [(c, .concluded)] now w.scheduler = .ok s') ∧
    ∀ s', schedule w.host [(c, .concluded)] now w.scheduler = .ok s' →
      nextUpOnAvailable w.host w.scheduler c =
        (s'.scheduled.find? (·.core == c)).map CoreAssignment.toScheduledCore := by
  refine ⟨fun hf => hw.schedule_succeeds hf _ hnow, fun s' hok => ?_⟩
  have hr := hw.reachable.runInv
  obtain ⟨s₁, h₁, -⟩ := schedule_eq hr.sorted hok
  obtain ⟨index, rfl⟩ := freeCore_concluded (by rwa [freeCores_singleton] at h₁)
  obtain ⟨g, hfind⟩ := schedule_find hr.sorted (Nat.le_of_lt hr.coresLt) h₁ hne
    (List.getElem?_set_self (Scheduler.lt_of_isOccupied hocc)) hcs hok
  rw [nextUpOnAvailable_eq g, hfind]

theorem next_up_on_available_agrees_with_schedule_at_block_two :
    ProtocolReachable .blockEnd ⟨testHost, occupiedAtBlockTwo⟩ ∧
      occupiedAtBlockTwo.validatorGroups ≠ [] ∧ occupiedAtBlockTwo.isOccupied 0 = true ∧
      0 ∉ occupiedAtBlockTwo.scheduledCores ∧ occupiedAtBlockTwo.sessionStartBlock ≤ 2 ∧
      (0 < testHost.config.groupRotationFrequency →
        ∃ s', schedule testHost [(0, .concluded)] 2 occupiedAtBlockTwo = .ok s') ∧
      ∀ s', schedule testHost [(0, .concluded)] 2 occupiedAtBlockTwo = .ok s' →
        nextUpOnAvailable testHost occupiedAtBlockTwo 0 =
          (s'.scheduled.find? (·.core == 0)).map CoreAssignment.toScheduledCore :=
  ⟨occupiedAtBlockTwo_reachable, by decide, rfl, by decide, by decide,
    next_up_on_available_agrees_with_schedule occupiedAtBlockTwo_reachable (by decide) rfl
      (by decide) (by decide)⟩

/-! ## A timed-out core -/

section TimedOut

variable {h : Host} {s s' : Scheduler} {c now : Nat} {e : IndrabaseEntry}

/-- What `schedule` puts on a multiplexer core whose indrabase occupant timed out: the first
entry queued on the core's offset, or else the occupant if `enqueue_entry` put it back on
that offset. -/
theorem schedule_timedOut_find (hr : RunInv s) (hne : s.validatorGroups ≠ [])
    (hn : h.indras.indracores.length ≤ c)
    (he : s.availabilityCores[c]? = some (some (.indrabase e))) (hcs : c ∉ s.scheduledCores)
    (hok : schedule h [(c, .timedOut)] now s = .ok s') :
    (s'.scheduled.find? (·.core == c)).map CoreAssignment.toScheduledCore =
      ((s.indrabaseQueue.getNextOnCore (asU32 (c - h.indras.indracores.length))).map
          IndrabaseEntry.toScheduledCore).or
        (if s.indrabaseQueue.nextCoreOffset = asU32 (c - h.indras.indracores.length) then
          some e.toScheduledCore else none) := by
  obtain ⟨s₁, h₁, -⟩ := schedule_eq hr.sorted hok
  obtain ⟨queue, hq, rfl⟩ := freeCore_timedOut he (by rwa [freeCores_singleton] at h₁)
  obtain ⟨g, hfind⟩ := schedule_find hr.sorted (Nat.le_of_lt hr.coresLt) h₁ hne
    (List.getElem?_set_self (List.getElem?_eq_some_iff.mp he).1) hcs hok
  rw [hfind, assignCoreWith_toScheduledCore hn, IndrabaseClaimQueue.getNextOnCore_enqueueEntry hq]
  cases s.indrabaseQueue.getNextOnCore _ <;> split_ifs <;> rfl

/-- So `next_up_on_time_out` names what `schedule` puts on such a core exactly when an entry
is queued on the core's offset or `next_core_offset` is that offset. -/
theorem nextUpOnTimeOut_eq_iff (hr : RunInv s) (hne : s.validatorGroups ≠ [])
    (hn : h.indras.indracores.length ≤ c)
    (he : s.availabilityCores[c]? = some (some (.indrabase e))) (hcs : c ∉ s.scheduledCores)
    (hok : schedule h [(c, .timedOut)] now s = .ok s') :
    nextUpOnTimeOut h s c =
        (s'.scheduled.find? (·.core == c)).map CoreAssignment.toScheduledCore ↔
      (s.indrabaseQueue.getNextOnCore (asU32 (c - h.indras.indracores.length))).isSome ∨
        s.indrabaseQueue.nextCoreOffset = asU32 (c - h.indras.indracores.length) := by
  rw [schedule_timedOut_find hr hne hn he hcs hok, nextUpOnTimeOut_eq_or,
    nextUpOnAvailable_of_le hn, occupyingClaim, he]
  cases s.indrabaseQueue.getNextOnCore _ <;>
    by_cases ho : s.indrabaseQueue.nextCoreOffset = asU32 (c - h.indras.indracores.length) <;>
    simp [ho]

end TimedOut

/-- The run of `indrabase_claims_are_pruned_after_retries` until the inclusion of block 2
backs the claim of indrabase `1` on core 0. -/
def claimOnCoreZero : List Call :=
  [.initializerOnNewSession ⟨[0, 1], defaultConfig⟩ prunedHost.indras 0] ++ idleBlock 1 ++
    [.addIndrabaseClaim ⟨1, 0⟩, .clear, .schedule [] 2, .occupied [0]]

/-- The end of block 2: the claim occupies core 0, the queue is empty and the next claim
goes on offset 1. -/
def occupiedByClaimAtBlockTwo : Scheduler :=
  ⟨[[0], [1], []], ⟨[], 1⟩, [some (.indrabase ⟨⟨1, 0⟩, 0⟩), none, none], [1], 1, []⟩

/-- After core 0 times out, the claim is re-queued on offset 1 and scheduled on core 1. -/
def rescheduledAfterTimeOut : Scheduler :=
  ⟨[[0], [1], []], ⟨[], 2⟩, [none, none, none], [1], 1, [⟨1, 1, .indrabase 0 0, 1⟩]⟩

/-- With three multiplexer cores, `next_up_on_time_out` on core 0 names the claim occupying
it, but `schedule` re-queues the timed-out claim on offset 1, puts it on core 1 and leaves
core 0 empty. -/
theorem time_out_lookahead_misses_core :
    ProtocolReachable .blockEnd ⟨prunedHost, occupiedByClaimAtBlockTwo⟩ ∧
      occupiedByClaimAtBlockTwo.validatorGroups ≠ [] ∧
      prunedHost.indras.indracores.length ≤ 0 ∧
      occupiedByClaimAtBlockTwo.availabilityCores[0]? =
        some (some (.indrabase ⟨⟨1, 0⟩, 0⟩)) ∧
      0 ∉ occupiedByClaimAtBlockTwo.scheduledCores ∧
      occupiedByClaimAtBlockTwo.sessionStartBlock ≤ 2 ∧
      nextUpOnTimeOut prunedHost occupiedByClaimAtBlockTwo 0 = some ⟨1, some 0⟩ ∧
      schedule prunedHost [(0, .timedOut)] 2 occupiedByClaimAtBlockTwo =
        .ok rescheduledAfterTimeOut ∧
      rescheduledAfterTimeOut.scheduled.find? (·.core == 0) = none :=
  ⟨runProtocol_reachable (.init prunedHost)
    (show runProtocol .blockEnd _ claimOnCoreZero = _ from rfl),
    by decide, le_refl _, rfl, by decide, by decide, rfl, rfl, rfl⟩

end SelendraScheduler
