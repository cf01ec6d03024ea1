import SelendraScheduler.Protocol
import SelendraScheduler.BlockSpec

/-!
# SelendraScheduler.BlockResults

What the per-block entry points compute, as whole functions of the state they start from,
stated in the words of the pallet's documentation and assembled from the specification
lemmas of `SelendraScheduler.ScheduleSpec` and `SelendraScheduler.BlockSpec`:

* `schedule` is `free_cores`, then the sorted merge of `Scheduled` with one assignment for
  each empty core it does not hold that has an indracore or a queued claim
  (`newAssignments`), the queue losing the first claim on each filled offset
  (`schedule_merges_assignments`).  The one-core lemma is
  `assignCoreWith_snd_eq_fillCore`, the walker over the sweep `sweepSpec_result`;
* a second `schedule` with no freed cores changes nothing (`schedule_twice_unchanged`):
  every empty core the first one leaves unscheduled is a multiplexer core with nothing
  queued on its offset;
* `occupied` on its caller contract takes the given cores out of `Scheduled` and installs
  their assignments, leaving every other core as it was (`occupied_installs`);
* `add_indrabase_claim` on a sorted index accepts a claim exactly when it is live, there
  is room, and its id is new (`add_claim_accepts_exactly`);
* `clear` empties `Scheduled` and re-queues what `requeueEntry?` selects, in order,
  round-robin from the next offset (`clear_requeues`).

Off these contracts the entry points diverge from that description: without a rotation
frequency `schedule` panics (`schedule_panics_without_rotation`); past `2^32` cores the
wrapped core index lets a second `schedule` assign again
(`schedule_twice_assigns_beyond_u32`); on an unsorted index, or at the last `u32` offset,
`add_indrabase_claim` is off its description (`add_claim_off_contract`).
-/

namespace SelendraScheduler

/-! ## `schedule`, as the pallet documents it -/

/-- The cores to fill: those empty after `free_cores` that `Scheduled` does not hold, in
increasing order. -/
def coresToFill (s : Scheduler) : List Nat :=
  (List.range s.availabilityCores.length).filter fun c =>
    s.availabilityCores[c]? = some none ∧ c ∉ s.scheduledCores

/-- What a core to fill gets, with the given group: its indracore, or on a multiplexer core
the first claim queued on its offset, if any. -/
def fillCore (h : Host) (queue : List QueuedIndrabase) (group c : Nat) : Option CoreAssignment :=
  if hc : c < h.indras.indracores.length then
    some ⟨c, h.indras.indracores[c], .indracore, group⟩
  else
    (queue.find? (·.coreOffset == c - h.indras.indracores.length)).map fun e =>
      ⟨c, e.claim.claim.indraId, .indrabase e.claim.claim.collator e.claim.retries, group⟩

/-- The new assignments of `schedule`: one for each core to fill that has an indracore or a
queued claim, in core order, each with the core's rotated group. -/
def newAssignments (h : Host) (s : Scheduler) (now : Nat) : List CoreAssignment :=
  (coresToFill s).filterMap fun c =>
    fillCore h s.indrabaseQueue.queue ((c + rotations h s now) % s.validatorGroups.length) c

/-- The offsets of the multiplexer cores to fill. -/
def filledOffsets (h : Host) (s : Scheduler) : List Nat :=
  ((coresToFill s).filter (h.indras.indracores.length ≤ ·)).map (· - h.indras.indracores.length)

/-- The queue without the first entry on each of the offsets. -/
def removeFirstOn (queue : List QueuedIndrabase) (offsets : List Nat) : List QueuedIndrabase :=
  offsets.foldl (fun q o => q.eraseP (·.coreOffset == o)) queue

section Sweep

variable {h : Host} {s : Scheduler} {now : Nat}

theorem mem_fillCore {queue : List QueuedIndrabase} {g c : Nat} {a : CoreAssignment}
    (ha : a ∈ fillCore h queue g c) : a.core = c ∧ a.groupIdx = g := by
  unfold fillCore at ha
  split at ha
  · cases Option.mem_def.mp ha; exact ⟨rfl, rfl⟩
  · obtain ⟨e, -, rfl⟩ := Option.mem_map.mp ha; exact ⟨rfl, rfl⟩

/-- Below `2^32`, what `assignCoreWith` assigns is `fillCore` on its queue. -/
theorem assignCoreWith_snd_eq_fillCore {c g : Nat} {q : IndrabaseClaimQueue} (hc : c < 2 ^ 32) :
    (assignCoreWith h c g q).2 = fillCore h q.queue g c := by
  by_cases hn : c < h.indras.indracores.length
  · simp [assignCoreWith, fillCore, hn, asU32_of_lt hc]
  · simp [assignCoreWith, fillCore, hn, asU32_of_lt hc, asU32_of_lt (Nat.lt_of_le_of_lt (Nat.sub_le c _) hc),
      IndrabaseClaimQueue.getNextOnCore_eq_find, Option.map_map, Function.comp_def]

/-- The sweep over increasing free cores below `2^32`, each with its group, assigns what
`fillCore` gives on the queue it starts from (the cores swept before take on other
offsets), and leaves the queue without the first entry on the offset of each multiplexer
core it fills. -/
theorem sweepSpec_result {l : List CoreAssignment} (grp : Nat → Nat) :
    ∀ {free : List Nat} {q : IndrabaseClaimQueue}, free.Pairwise (· < ·) →
    (∀ c ∈ free, c < 2 ^ 32 ∧ groupAssignedToCore h s (asU32 c) now = .ok (some (grp c))) →
    ∃ us, sweepSpec h s now l q free = .ok (⟨removeFirstOn q.queue
        (((free.filter (· ∉ l.map (·.core))).filter (h.indras.indracores.length ≤ ·)).map
          (· - h.indras.indracores.length)), q.nextCoreOffset⟩, us) ∧
      us.map (·.2) = (free.filter (· ∉ l.map (·.core))).filterMap fun c =>
        fillCore h q.queue (grp c) c
  | [], q, _, _ => ⟨[], rfl, rfl⟩
  | c :: rest, q, hfree, hc => by
    have hrest := List.pairwise_cons.mp hfree
    have hc' := fun c' hc' => hc c' (List.mem_cons_of_mem _ hc')
    obtain ⟨hlt, hg⟩ := hc c (List.mem_cons_self _ _)
    by_cases hcl : c ∈ l.map (·.core)
    · obtain ⟨us, hsw, hus⟩ := sweepSpec_result (l := l) grp hrest.2 hc' (q := q)
      have hneg : (c :: rest).filter (· ∉ l.map (·.core)) = rest.filter (· ∉ l.map (·.core)) :=
        List.filter_cons_of_neg (by simpa using hcl)
      exact ⟨us, by rw [sweepSpec, if_pos hcl, hsw, hneg], by rw [hus, hneg]⟩
    have hpos : (c :: rest).filter (· ∉ l.map (·.core)) = c :: rest.filter (· ∉ l.map (·.core)) :=
      List.filter_cons_of_pos (by simpa using hcl)
    rcases hA : assignCoreWith h c (grp c) q with ⟨q₁, a⟩
    have h₁ : (assignCoreWith h c (grp c) q).1 = q₁ := by rw [hA]
    have ha : a = fillCore h q.queue (grp c) c := by rw [← assignCoreWith_snd_eq_fillCore hlt, hA]
    obtain ⟨us, hsw, hus⟩ := sweepSpec_result (l := l) grp hrest.2 hc' (q := q₁)
    -- The core takes on its own offset: the later cores find what they would have found.
    have hfill : ∀ c' ∈ rest, fillCore h q₁.queue (grp c') c' = fillCore h q.queue (grp c') c' :=
      fun c' hc'' => by
        rw [← assignCoreWith_snd_eq_fillCore (hc' c' hc'').1, ← h₁,
          assignCoreWith_snd_of_ne (Nat.ne_of_lt (hrest.1 c' hc'')) (hc' c' hc'').1 hlt,
          assignCoreWith_snd_eq_fillCore (hc' c' hc'').1]
    refine ⟨a.toList.map (((l.takeWhile (·.core < c)).length, ·)) ++ us, ?_, ?_⟩
    · have hq₁ := h₁ ▸ assignCoreWith_fst_queue (h := h) (c := c) (g := grp c) (q := q)
      have hn₁ := h₁ ▸ assignCoreWith_nextCoreOffset (h := h) (c := c) (g := grp c) (q := q)
      rw [asU32_of_lt (Nat.lt_of_le_of_lt (Nat.sub_le c _) hlt)] at hq₁
      rw [sweepSpec, if_neg hcl, assignCore_eq_of_group hg, hA, hpos]
      simp only [bind, Except.bind, hsw, hq₁, hn₁]
      cases a <;> by_cases hn : h.indras.indracores.length ≤ c <;>
        simp [hn, removeFirstOn, pure, Except.pure]
    · rw [hpos, List.filterMap_cons, ← ha,
        List.filterMap_congr fun c' hc'' => (hfill c' (List.mem_filter.mp hc'').1).symm, ← hus]
      cases a <;> rfl
termination_by structural free => free

end Sweep

section Schedule

variable {h : Host} {freed : List (Nat × FreedReason)} {now : Nat} {s s₁ : Scheduler}

theorem freeCoreIndices_filter_eq_coresToFill (s : Scheduler) :
    (freeCoreIndices s.availabilityCores).filter (· ∉ s.scheduled.map (·.core)) = coresToFill s := by
  rw [freeCoreIndices_eq_filter, List.filter_filter]
  exact List.filter_congr fun c _ => by simp [Scheduler.scheduledCores, Bool.and_comm]

theorem newAssignments_sorted : SortedByCore (newAssignments h s now) :=
  ((List.pairwise_lt_range _).filter _).filterMap _ fun _ _ hlt _ ha _ ha' => by
    rw [(mem_fillCore ha).1, (mem_fillCore ha').1]; exact hlt

/-- `schedule` with a positive rotation frequency, at or after the session start, on a
sorted `Scheduled` and one group per core, at most `2^32` of them: after `free_cores`,
`Scheduled` is the sorted merge of the old one with the new assignments, the queue loses
the first claim on each offset filled, and every other field is as `free_cores` left it;
each new assignment carries its core's group. -/
theorem schedule_merges_assignments (hs : SortedByCore s.scheduled)
    (hne : s.validatorGroups ≠ []) (hg : s.validatorGroups.length = s.availabilityCores.length)
    (hf : 0 < h.config.groupRotationFrequency) (hlen : s.availabilityCores.length ≤ 2 ^ 32)
    (hnow : s.sessionStartBlock ≤ now) (h₁ : freeCores h freed s = .ok s₁) :
    schedule h freed now s = .ok { s₁ with
      scheduled := s.scheduled.merge (newAssignments h s₁ now) fun a b => a.core ≤ b.core,
      indrabaseQueue := ⟨removeFirstOn s₁.indrabaseQueue.queue (filledOffsets h s₁),
        s₁.indrabaseQueue.nextCoreOffset⟩ } ∧
    ∀ a ∈ newAssignments h s₁ now, groupAssignedToCore h s₁ a.core now = .ok (some a.groupIdx) := by
  obtain ⟨hsch, hgr, hst, hlen₁⟩ := freeCores_frame h₁
  have hs₁ : SortedByCore s₁.scheduled := hsch ▸ hs
  have hg₁ : s₁.validatorGroups.length = s₁.availabilityCores.length := by rw [hgr, hlen₁, hg]
  have hgrp : ∀ c < s₁.availabilityCores.length, groupAssignedToCore h s₁ c now =
      .ok (some ((c + rotations h s₁ now) % s₁.validatorGroups.length)) := fun c hc =>
    groupAssignedToCore_eq_mod hf (hst ▸ hnow) (by omega) (by omega)
  obtain ⟨us, hsw, hus⟩ := sweepSpec_result (l := s₁.scheduled) (q := s₁.indrabaseQueue)
    (fun c => (c + rotations h s₁ now) % s₁.validatorGroups.length)
    (freeCoreIndices_sorted s₁.availabilityCores)
    fun c hc => by
      have hlt := lt_of_mem_freeCoreIndices hc
      exact ⟨by omega, by rw [asU32_of_lt (by omega)]; exact hgrp c hlt⟩
  rw [freeCoreIndices_filter_eq_coresToFill] at hsw hus
  obtain ⟨r, hins, hr, hrp, -⟩ := insertUpdates_of_sweep hs₁ (hlen₁ ▸ hlen) hsw
  rw [hus] at hrp
  refine ⟨?_, fun a ha => ?_⟩
  · have hge : s₁.validatorGroups.isEmpty = false := by simpa [hgr] using hne
    have hmerge : r = s₁.scheduled.merge (newAssignments h s₁ now) fun a b => a.core ≤ b.core :=
      hr.eq_merge hrp hs₁ newAssignments_sorted
    rw [← hsch, ← hmerge]
    simp [schedule, h₁, bind, Except.bind, hge, scheduleSweep_start hs₁, hsw, hins, pure,
      Except.pure, filledOffsets]
  · obtain ⟨c, hc, ha⟩ := List.mem_filterMap.mp ha
    obtain ⟨rfl, hga⟩ := mem_fillCore ha
    exact hga ▸ hgrp _ (List.mem_range.mp (List.mem_filter.mp hc).1)

/-- Block 3 of `schedule_schedules` after `free_cores` when core 0's candidate concluded:
cores 0 and 1 are empty, core 2 holds the claim of indrabase 3. -/
def freedAtBlockThree : Scheduler :=
  { occupiedAtBlockTwo with
    availabilityCores := [none, none, some (.indrabase ⟨⟨3, 0⟩, 0⟩), none, none] }

theorem schedule_merges_assignments_at_block_three :
    SortedByCore occupiedAtBlockTwo.scheduled ∧ occupiedAtBlockTwo.validatorGroups ≠ [] ∧
    occupiedAtBlockTwo.validatorGroups.length = occupiedAtBlockTwo.availabilityCores.length ∧
    0 < testHost.config.groupRotationFrequency ∧
    occupiedAtBlockTwo.availabilityCores.length ≤ 2 ^ 32 ∧
    occupiedAtBlockTwo.sessionStartBlock ≤ 3 ∧
    freeCores testHost [(0, .concluded)] occupiedAtBlockTwo = .ok freedAtBlockThree ∧
    (schedule testHost [(0, .concluded)] 3 occupiedAtBlockTwo = .ok { freedAtBlockThree with
      scheduled := occupiedAtBlockTwo.scheduled.merge (newAssignments testHost freedAtBlockThree 3)
        fun a b => a.core ≤ b.core,
      indrabaseQueue := ⟨removeFirstOn freedAtBlockThree.indrabaseQueue.queue
        (filledOffsets testHost freedAtBlockThree), freedAtBlockThree.indrabaseQueue.nextCoreOffset⟩ } ∧
    ∀ a ∈ newAssignments testHost freedAtBlockThree 3,
      groupAssignedToCore testHost freedAtBlockThree a.core 3 = .ok (some a.groupIdx)) :=
  have hs : SortedByCore occupiedAtBlockTwo.scheduled := by unfold SortedByCore; decide
  ⟨hs, by decide, rfl, by decide, by decide, by decide, rfl,
    schedule_merges_assignments hs (by decide) rfl (by decide) (by decide) (by decide) rfl⟩

/-- The tests' configuration with no rotation frequency. -/
def noRotationHost : Host := ⟨{ defaultConfig with groupRotationFrequency := 0 }, testHost.indras⟩

/-- One empty core and its group, at the session start, with nothing scheduled or queued. -/
def oneEmptyCore : Scheduler := ⟨[[0]], .empty, [none], [], 0, []⟩

/-- Without a rotation frequency, `schedule` panics on the group of the first core it
fills. -/
theorem schedule_panics_without_rotation :
    SortedByCore oneEmptyCore.scheduled ∧ oneEmptyCore.validatorGroups ≠ [] ∧
    oneEmptyCore.validatorGroups.length = oneEmptyCore.availabilityCores.length ∧
    oneEmptyCore.sessionStartBlock ≤ 0 ∧
    freeCores noRotationHost [] oneEmptyCore = .ok oneEmptyCore ∧
    0 ∈ coresToFill oneEmptyCore ∧
    schedule noRotationHost [] 0 oneEmptyCore = .error .divideByZero :=
  ⟨.nil, by decide, rfl, le_refl 0, rfl, by decide, rfl⟩

/-- `schedule` on a sorted `Scheduled` and at most `2^32` cores is idempotent: a second
call with no freed cores, at any block, changes nothing, since every empty core the first
call leaves unscheduled is a multiplexer core with nothing queued on its offset. -/
theorem schedule_twice_unchanged {s' : Scheduler} {now' : Nat} (hs : SortedByCore s.scheduled)
    (hlen : s.availabilityCores.length ≤ 2 ^ 32) (hok : schedule h freed now s = .ok s') :
    schedule h [] now' s' = .ok s' := by
  obtain ⟨s₁, h₁, ⟨hg, rfl⟩ | ⟨q, us, r, hsw, hins, rfl⟩⟩ := schedule_eq hs hok
  · simp [schedule, freeCores, hg, bind, Except.bind, pure, Except.pure]
  obtain ⟨hsch, -, -, hlen₁⟩ := freeCores_frame h₁
  have hs₁ : SortedByCore s₁.scheduled := hsch ▸ hs
  obtain ⟨r', hr', hrs, hrp, -⟩ := insertUpdates_of_sweep hs₁ (hlen₁ ▸ hlen) hsw
  obtain rfl : r' = r := Except.ok.inj (hr'.symm.trans hins)
  have hmem : ∀ a ∈ s₁.scheduled ++ us.map (·.2), a.core ∈ r'.map (·.core) := fun a ha =>
    List.mem_map_of_mem _ (hrp.symm.subset ha)
  have hlt : ∀ c ∈ freeCoreIndices s₁.availabilityCores, c < 2 ^ 32 := fun c hc =>
    Nat.lt_of_lt_of_le (lt_of_mem_freeCoreIndices hc) (hlen₁ ▸ hlen)
  -- An empty core left unscheduled is a multiplexer core with nothing queued on its offset.
  have hidle : ∀ c ∈ freeCoreIndices s₁.availabilityCores, c ∉ r'.map (·.core) →
      h.indras.indracores.length ≤ c ∧
        q.getNextOnCore (asU32 (c - h.indras.indracores.length)) = none := fun c hc hcr => by
    have hc₁ : c ∉ s₁.scheduled.map (·.core) := fun hc₁ => by
      obtain ⟨a, ha, rfl⟩ := List.mem_map.mp hc₁
      exact hcr (hmem a (List.mem_append_left _ ha))
    have hnone : (us.map (·.2)).find? (·.core == c) = none := List.find?_eq_none.mpr fun a ha => by
      simpa using fun he : a.core = c => hcr (he ▸ hmem a (List.mem_append_right _ ha))
    obtain ⟨g, hfind⟩ := sweepSpec_find (freeCoreIndices_sorted _) hlt hsw hc hc₁
    obtain ⟨hn, hq⟩ := assignCoreWith_snd_eq_none.mp (hfind.symm.trans hnone)
    exact ⟨hn, IndrabaseClaimQueue.getNextOnCore_of_sublist (sweepSpec_queue_sublist hsw) hq⟩
  by_cases hge : s₁.validatorGroups.isEmpty
  · simp [schedule, freeCores, hge, bind, Except.bind, pure, Except.pure]
  · have hstart := @scheduleSweep_start h now' { s₁ with scheduled := r', indrabaseQueue := q } hrs q
    simp only at hstart
    simp [schedule, freeCores, hge, hstart, sweepSpec_idle hidle, insertUpdates, bind, Except.bind,
      pure, Except.pure]

/-- `schedule_schedules`' block 3 after core 0's candidate concluded: core 0 gets its
indracore back, in front of the assignments of block 2 that are still waiting. -/
def rescheduledAtBlockThree : Scheduler :=
  { freedAtBlockThree with
    scheduled := [⟨0, 1, .indracore, 0⟩, ⟨1, 2, .indracore, 1⟩, ⟨3, 5, .indrabase 0 0, 3⟩] }

theorem schedule_twice_unchanged_at_block_three :
    SortedByCore occupiedAtBlockTwo.scheduled ∧
    occupiedAtBlockTwo.availabilityCores.length ≤ 2 ^ 32 ∧
    schedule testHost [(0, .concluded)] 3 occupiedAtBlockTwo = .ok rescheduledAtBlockThree ∧
    schedule testHost [] 4 rescheduledAtBlockThree = .ok rescheduledAtBlockThree :=
  have hs : SortedByCore occupiedAtBlockTwo.scheduled := by unfold SortedByCore; decide
  have hok : schedule testHost [(0, .concluded)] 3 occupiedAtBlockTwo = .ok rescheduledAtBlockThree :=
    rfl
  ⟨hs, by decide, hok, schedule_twice_unchanged hs (by decide) hok⟩

/-- The one empty core past a run of occupied ones is the only free core. -/
theorem freeCoreIndices_replicate_append (n : Nat) (o : CoreOccupied) :
    freeCoreIndices (List.replicate n (some o) ++ [none]) = [n] := by
  rw [freeCoreIndices_eq_filter, List.length_append, List.length_replicate, List.length_singleton,
    List.range_succ, List.filter_append, List.filter_eq_nil_iff.mpr fun c hc => ?_]
  · simp
  · simp [List.getElem?_append_left, List.mem_range.mp hc]

/-- `2^32` cores held by indracores and one empty core past them, on which two claims of
`prunedHost` (no indracores, indrabases `1` and `2`) are queued. -/
def beyondU32 : Scheduler :=
  ⟨[[0]], ⟨[⟨⟨⟨1, 0⟩, 0⟩, 0⟩, ⟨⟨⟨2, 0⟩, 0⟩, 0⟩], 0⟩,
    List.replicate (2 ^ 32) (some .indracore) ++ [none], [1, 2], 0, []⟩

/-- After one `schedule`: the first claim, assigned to the empty core under its wrapped
index `0`. -/
def beyondU32Once : Scheduler :=
  { beyondU32 with
    scheduled := [⟨0, 1, .indrabase 0 0, 0⟩], indrabaseQueue := ⟨[⟨⟨⟨2, 0⟩, 0⟩, 0⟩], 0⟩ }

/-- After a second `schedule`: the second claim as well, on the same wrapped index. -/
def beyondU32Twice : Scheduler :=
  { beyondU32 with
    scheduled := [⟨0, 1, .indrabase 0 0, 0⟩, ⟨0, 2, .indrabase 0 0, 0⟩], indrabaseQueue := ⟨[], 0⟩ }

/-- Past `2^32` cores, the wrapped core index hides the assignment from the sweep's cursor,
so a second `schedule` with no freed cores assigns the empty core again. -/
theorem schedule_twice_assigns_beyond_u32 :
    SortedByCore beyondU32.scheduled ∧
    schedule prunedHost [] 0 beyondU32 = .ok beyondU32Once ∧
    schedule prunedHost [] 0 beyondU32Once = .ok beyondU32Twice ∧
    beyondU32Twice ≠ beyondU32Once := by
  have hfree := freeCoreIndices_replicate_append (2 ^ 32) CoreOccupied.indracore
  -- The cores are generalised so that no step unfolds the `2^32` copies.
  refine ⟨.nil, ?_, ?_, fun he => absurd (congrArg (·.scheduled.length) he) (by decide)⟩ <;>
    simp only [beyondU32Once, beyondU32Twice] <;> unfold beyondU32 <;>
    generalize List.replicate (2 ^ 32) (some CoreOccupied.indracore) ++ [none] = cores at hfree ⊢ <;>
    simp only [schedule, freeCores, List.foldlM_nil, pure_bind, hfree, scheduleSweep, assignCore,
      groupAssignedToCore] <;>
    rfl

end Schedule

/-! ## `occupied` -/

/-- `occupied` on its caller contract (a sorted `Scheduled`, and increasing occupied cores,
each scheduled and in bounds): the assignments on the given cores leave `Scheduled` and
the others stay in order, each given core holds its assignment's occupant, and every
other core is as it was. -/
theorem occupied_installs {O : List Nat} {s : Scheduler} (hs : SortedByCore s.scheduled)
    (hOs : O.Pairwise (· < ·)) (hO : ∀ c ∈ O, c ∈ s.scheduledCores)
    (hlt : ∀ c ∈ O, c < s.availabilityCores.length) :
    ∃ cores, occupied O s =
        .ok { s with scheduled := s.scheduled.filter (·.core ∉ O), availabilityCores := cores } ∧
      (∀ a ∈ s.scheduled, a.core ∈ O → cores[a.core]? = some (some a.toCoreOccupied)) ∧
      ∀ c ∉ O, cores[c]? = s.availabilityCores[c]? := by
  obtain ⟨s', hok⟩ := occupied_exists (O := O) (s := s) fun a _ ha => hlt _ ha
  have hkept := occupied_kept hOs hs hO hok
  obtain ⟨kept, removed, rfl, hsub, hperm, hrem⟩ := occupied_ok hok
  have hnd : (removed.map (·.core)).Nodup :=
    (List.nodup_append.mp (List.map_append _ _ _ ▸ (hperm.map _).nodup_iff.mpr hs.nodup_cores)).2.1
  -- What stays is a sublist of the filter as long as the filter.
  have hfilter : kept = s.scheduled.filter (·.core ∉ O) := by
    have hself : kept.filter (·.core ∉ O) = kept :=
      List.filter_eq_self.mpr fun a ha => by simpa using hkept a ha
    have hlen := (hperm.filter fun a : CoreAssignment => decide (a.core ∉ O)).length_eq
    rw [List.filter_append, hself, List.filter_eq_nil_iff.mpr fun a ha => by simpa using (hrem a ha).1,
      List.append_nil] at hlen
    exact (hself ▸ hsub.filter fun a : CoreAssignment => decide (a.core ∉ O)).eq_of_length hlen
  refine ⟨_, hfilter ▸ hok, fun a ha haO => ?_, fun c hc => ?_⟩
  · have ha' := (List.mem_append.mp (hperm.symm.subset ha)).resolve_left fun hk => hkept a hk haO
    exact getElem?_foldl_occupy_of_mem removed _ hnd ha' (hlt _ haO)
  · refine getElem?_foldl_occupy_of_not_mem removed _ fun hcm => ?_
    obtain ⟨a, ha, rfl⟩ := List.mem_map.mp hcm
    exact hc (hrem a ha).1

theorem occupied_installs_at_block_two :
    SortedByCore scheduledAtBlockTwo.scheduled ∧ [0, 2].Pairwise (· < ·) ∧
    (∀ c ∈ [0, 2], c ∈ scheduledAtBlockTwo.scheduledCores) ∧
    (∀ c ∈ [0, 2], c < scheduledAtBlockTwo.availabilityCores.length) ∧
    ∃ cores, occupied [0, 2] scheduledAtBlockTwo =
        .ok { scheduledAtBlockTwo with
          scheduled := scheduledAtBlockTwo.scheduled.filter (·.core ∉ [0, 2]),
          availabilityCores := cores } ∧
      (∀ a ∈ scheduledAtBlockTwo.scheduled, a.core ∈ [0, 2] →
        cores[a.core]? = some (some a.toCoreOccupied)) ∧
      ∀ c ∉ [0, 2], cores[c]? = scheduledAtBlockTwo.availabilityCores[c]? :=
  have hs : SortedByCore scheduledAtBlockTwo.scheduled := by unfold SortedByCore; decide
  ⟨hs, by decide, by decide, by decide, occupied_installs hs (by decide) (by decide) (by decide)⟩

/-! ## `add_indrabase_claim` -/

/-- `add_indrabase_claim` on a strictly increasing index, with a queue bound that fits a
`u32`: the claim is appended on the next offset and its id inserted at its sorted position
exactly when it is a live indrabase, there is room, and its id is new; otherwise nothing
changes. -/
theorem add_claim_accepts_exactly {h : Host} {claim : IndrabaseClaim} {s : Scheduler}
    (hcap : h.config.indrabaseCores * h.config.schedulingLookahead < 2 ^ 32)
    (hs : s.indrabaseClaimIndex.Pairwise (· < ·)) :
    addIndrabaseClaim h claim s = .ok
      (if h.indras.isIndrabase claim.indraId = true ∧
          s.indrabaseQueue.queue.length < h.config.indrabaseCores * h.config.schedulingLookahead ∧
          claim.indraId ∉ s.indrabaseClaimIndex then
        { s with
          indrabaseQueue := ⟨s.indrabaseQueue.queue ++ [⟨⟨claim, 0⟩, s.indrabaseQueue.nextCoreOffset⟩],
            asU32 (s.indrabaseQueue.nextCoreOffset + 1) % h.config.indrabaseCores⟩,
          indrabaseClaimIndex := s.indrabaseClaimIndex.orderedInsert (· ≤ ·) claim.indraId }
      else s) := by
  unfold addIndrabaseClaim
  by_cases hlive : h.indras.isIndrabase claim.indraId = true
  swap
  · simp [hlive]
  by_cases hroom : s.indrabaseQueue.queue.length <
      h.config.indrabaseCores * h.config.schedulingLookahead
  swap
  · simp [hlive, hroom, asU32_of_lt hcap, Nat.le_of_not_lt hroom]
  by_cases hmem : claim.indraId ∈ s.indrabaseClaimIndex
  · obtain ⟨i, hi, -⟩ := binarySearch_of_mem hs hmem
    simp [hlive, hroom, hmem, hi, asU32_of_lt hcap, Nat.not_le.mpr hroom]
  have hk : 0 < h.config.indrabaseCores := Nat.pos_of_ne_zero fun hk => by simp [hk] at hroom
  have hle : (s.indrabaseClaimIndex.takeWhile (· < claim.indraId)).length ≤
      s.indrabaseClaimIndex.length := (List.takeWhile_sublist _).length_le
  simp [hlive, hroom, hmem, binarySearch_of_not_mem_eq hmem, asU32_of_lt hcap,
    Nat.not_le.mpr hroom, vecInsert, hle, take_length_takeWhile, drop_length_takeWhile,
    List.orderedInsert_eq_take_drop, hk, bind, Except.bind, pure, Except.pure]

theorem add_claim_accepts_exactly_at_block_two :
    testHost.config.indrabaseCores * testHost.config.schedulingLookahead < 2 ^ 32 ∧
    scheduledAtBlockTwo.indrabaseClaimIndex.Pairwise (· < ·) ∧
    addIndrabaseClaim testHost ⟨4, 0⟩ scheduledAtBlockTwo = .ok
      (if testHost.indras.isIndrabase 4 = true ∧
          scheduledAtBlockTwo.indrabaseQueue.queue.length <
            testHost.config.indrabaseCores * testHost.config.schedulingLookahead ∧
          4 ∉ scheduledAtBlockTwo.indrabaseClaimIndex then
        { scheduledAtBlockTwo with
          indrabaseQueue := ⟨scheduledAtBlockTwo.indrabaseQueue.queue ++
              [⟨⟨⟨4, 0⟩, 0⟩, scheduledAtBlockTwo.indrabaseQueue.nextCoreOffset⟩],
            asU32 (scheduledAtBlockTwo.indrabaseQueue.nextCoreOffset + 1) %
              testHost.config.indrabaseCores⟩,
          indrabaseClaimIndex := scheduledAtBlockTwo.indrabaseClaimIndex.orderedInsert (· ≤ ·) 4 }
      else scheduledAtBlockTwo) :=
  ⟨by decide, by decide, add_claim_accepts_exactly (by decide) (by decide)⟩

/-- An index out of order: id `1` stands after `5`. -/
def unsortedIndex : Scheduler := ⟨[], .empty, [], [2, 5, 1], 0, []⟩

/-- A queue whose next offset is the last `u32`. -/
def lastOffset : Scheduler := ⟨[], ⟨[], 2 ^ 32 - 1⟩, [], [], 0, []⟩

/-- Off the contract, `add_indrabase_claim` accepts a claim whose id the unsorted index
already holds (the binary search misses it), and the wrapping `u32` increment sends the
next offset after `2^32 - 1` to `0`, not to `2^32 mod 3 = 1`. -/
theorem add_claim_off_contract :
    (1 ∈ unsortedIndex.indrabaseClaimIndex ∧
      addIndrabaseClaim prunedHost ⟨1, 0⟩ unsortedIndex =
        .ok { unsortedIndex with
          indrabaseQueue := ⟨[⟨⟨⟨1, 0⟩, 0⟩, 0⟩], 1⟩, indrabaseClaimIndex := [1, 2, 5, 1] }) ∧
    (addIndrabaseClaim prunedHost ⟨1, 0⟩ lastOffset =
        .ok { lastOffset with
          indrabaseQueue := ⟨[⟨⟨⟨1, 0⟩, 0⟩, 2 ^ 32 - 1⟩], 0⟩, indrabaseClaimIndex := [1] } ∧
      (lastOffset.indrabaseQueue.nextCoreOffset + 1) % prunedHost.config.indrabaseCores = 1) :=
  ⟨⟨by decide, rfl⟩, rfl, by decide⟩

/-! ## `clear` -/

/-- Entries queued one after another from offset `next`, round-robin over `k` offsets:
the `i`-th goes on `(next + i) mod k`. -/
def roundRobin (next k : Nat) (entries : List IndrabaseEntry) : List QueuedIndrabase :=
  entries.mapIdx fun i e => ⟨e, (next + i) % k⟩

theorem roundRobin_cons (next k : Nat) (e : IndrabaseEntry) (es : List IndrabaseEntry) :
    roundRobin next k (e :: es) = ⟨e, next % k⟩ :: roundRobin (next + 1) k es := by
  simp [roundRobin, List.mapIdx_cons, Nat.add_assoc, Nat.add_comm 1]

theorem roundRobin_mod (next k : Nat) (es : List IndrabaseEntry) :
    roundRobin (next % k) k es = roundRobin next k es := by
  simp [roundRobin, Nat.mod_add_mod]

theorem roundRobin_append (next k : Nat) (es es' : List IndrabaseEntry) :
    roundRobin next k (es ++ es') = roundRobin next k es ++ roundRobin (next + es.length) k es' := by
  simp [roundRobin, List.mapIdx_append, Nat.add_assoc, Nat.add_comm es.length]

/-- `enqueue_entry` one entry after another, from an offset below a `u32` core count, puts
them round-robin from the next offset. -/
theorem foldlM_enqueueEntry {k : Nat} (hk : k < 2 ^ 32) : ∀ (entries : List IndrabaseEntry)
    (q : IndrabaseClaimQueue), q.nextCoreOffset < k →
    entries.foldlM (fun q e => q.enqueueEntry e k) q =
      .ok ⟨q.queue ++ roundRobin q.nextCoreOffset k entries,
        (q.nextCoreOffset + entries.length) % k⟩
  | [], q, hn => by simp [roundRobin, Nat.mod_eq_of_lt hn]; rfl
  | e :: es, q, hn => by
    rw [List.foldlM_cons, IndrabaseClaimQueue.enqueueEntry_of_pos _ _ (by omega),
      asU32_of_lt (by omega)]
    refine (foldlM_enqueueEntry hk es _ (Nat.mod_lt _ (by omega))).trans ?_
    simp only [roundRobin_mod, roundRobin_cons, Nat.mod_eq_of_lt hn, List.append_assoc,
      List.singleton_append, Nat.mod_add_mod, List.length_cons]
    rw [Nat.add_assoc, Nat.add_comm 1]

/-- `clear`'s loop enqueues exactly what `requeueEntry?` selects. -/
theorem foldlM_requeue_eq {h : Host} : ∀ (l : List CoreAssignment) (q : IndrabaseClaimQueue),
    l.foldlM (requeue h) q =
      (l.filterMap (requeueEntry? h)).foldlM (fun q e => q.enqueueEntry e h.config.indrabaseCores) q
  | [], q => rfl
  | a :: rest, q => by
    rw [List.foldlM_cons, requeue_eq]
    rcases he : requeueEntry? h a with _ | e
    · rw [List.filterMap_cons_none he]; exact foldlM_requeue_eq rest q
    · rw [List.filterMap_cons_some he, List.foldlM_cons]
      exact congrArg _ (funext fun q' => foldlM_requeue_eq rest q')

/-- **`clear`, as a whole**: with the next offset below a `u32` indrabase core count (as
a session change leaves it), `clear` empties `Scheduled` and appends to the queue, in
`Scheduled`'s order, each indrabase assignment whose indra is still an indrabase and whose
retries plus one stay within the limit, with that many retries, round-robin from the next
offset; the next offset moves on by their number. -/
theorem clear_requeues {h : Host} {s : Scheduler}
    (hn : s.indrabaseQueue.nextCoreOffset < h.config.indrabaseCores)
    (hk : h.config.indrabaseCores < 2 ^ 32) :
    clear h s = .ok { s with
      scheduled := []
      indrabaseQueue := ⟨s.indrabaseQueue.queue ++ roundRobin s.indrabaseQueue.nextCoreOffset
          h.config.indrabaseCores (s.scheduled.filterMap (requeueEntry? h)),
        (s.indrabaseQueue.nextCoreOffset + (s.scheduled.filterMap (requeueEntry? h)).length) %
          h.config.indrabaseCores⟩ } := by
  unfold clear
  rw [foldlM_requeue_eq, foldlM_enqueueEntry hk _ _ hn]
  rfl

theorem clear_requeues_at_block_three :
    occupiedAtBlockTwo.indrabaseQueue.nextCoreOffset < testHost.config.indrabaseCores ∧
    testHost.config.indrabaseCores < 2 ^ 32 ∧
    clear testHost occupiedAtBlockTwo = .ok clearedAtBlockThree :=
  ⟨by decide, by decide, clear_requeues (by decide) (by decide)⟩

end SelendraScheduler
