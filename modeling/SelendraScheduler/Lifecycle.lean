import SelendraScheduler.Safety

/-!
# SelendraScheduler.Lifecycle

The life of one availability core, as an abstract state machine that every run of the
pallet refines. A core is `free` (empty and not in `Scheduled`), `scheduled` (in
`Scheduled`, waiting for a candidate) or `occupied` (`Some` in `AvailabilityCores`);
`coreStatus` reads it off the storage, which loses nothing on reachable states since no
scheduled core is occupied (`RunInv.unoccupied`).

`Call.Moves` says what each entry point may do to a core's status:

* a session change frees the occupied cores and leaves the others;
* `add_indrabase_claim` leaves every core as it is;
* `free_cores` frees the occupied cores it names (`CoreStatus.afterFree`);
* `schedule` does the same, then may schedule a core that is then free;
* `occupied` occupies exactly the cores it is given, each of which was scheduled;
* `clear` frees the scheduled cores.

`core_lifecycle` is the refinement: in every run, every call moves every core only as
`Call.Moves` allows. So no call occupies a free core, `schedule` never touches an
occupied core it did not free, and `clear` never frees an occupied one. One lemma per
entry point (`coreStatus_session`, ..., `coreStatus_clear`) carries the proof.

`schedule_conserves_work` says what `schedule` leaves free: only multiplexer cores with
nothing queued on their offset. `scheduled_within_free_cores` is the bound documented on
`Scheduled`: in a protocol run, at most one assignment per empty core.

Between session changes (`SessionRun`) the session itself is fixed: no other call writes
the validator groups or the session start, or changes the number of cores, so every call
of a session sees the same group for every core and block
(`session_fixed_between_changes`).
-/

namespace SelendraScheduler

/-- Where a core stands in its lifecycle. -/
inductive CoreStatus where
  /-- Empty, and not in `Scheduled`. -/
  | free
  /-- In `Scheduled`, waiting for a candidate. -/
  | scheduled
  /-- Holding an occupant. -/
  | occupied
  deriving Repr, DecidableEq

/-- The status of core `c`. -/
def coreStatus (s : Scheduler) (c : Nat) : CoreStatus :=
  if s.isOccupied c then .occupied else if c ∈ s.scheduledCores then .scheduled else .free

/-- What `free_cores` does to the status of core `c`: an occupied core it names is
freed. -/
def CoreStatus.afterFree (freed : List (Nat × FreedReason)) (c : Nat) : CoreStatus → CoreStatus
  | .occupied => if c ∈ freed.map (·.1) then .free else .occupied
  | σ => σ

namespace Call

/-- The moves a call may make on the status of core `c`, from `σ` to `σ'`. -/
def Moves : Call → Nat → CoreStatus → CoreStatus → Prop
  | .initializerOnNewSession .., _, σ, σ' => σ' = if σ = .occupied then .free else σ
  | .addIndrabaseClaim _, _, σ, σ' => σ' = σ
  | .freeCores freed, c, σ, σ' => σ' = σ.afterFree freed c
  | .schedule freed _, c, σ, σ' =>
    σ' = σ.afterFree freed c ∨ (σ.afterFree freed c = .free ∧ σ' = .scheduled)
  | .occupied o, c, σ, σ' => if c ∈ o then σ = .scheduled ∧ σ' = .occupied else σ' = σ
  | .clear, _, σ, σ' => σ' = if σ = .scheduled then .free else σ

instance (call : Call) (c : Nat) (σ σ' : CoreStatus) : Decidable (call.Moves c σ σ') :=
  match call with
  | .initializerOnNewSession .. | .addIndrabaseClaim _ | .freeCores _ | .clear =>
    inferInstanceAs (Decidable (σ' = _))
  | .schedule .. => inferInstanceAs (Decidable (_ ∨ _))
  | .occupied _ => inferInstanceAs (Decidable (ite _ _ _))

end Call

/-! ## One lemma per entry point -/

section Status

variable {h : Host} {s s' : Scheduler} {c : Nat}

/-- The status reads only the occupancy and `Scheduled`'s cores. -/
theorem coreStatus_eq_of (s' : Scheduler) (ho : s'.isOccupied c = s.isOccupied c)
    (hs : c ∈ s'.scheduledCores ↔ c ∈ s.scheduledCores) : coreStatus s' c = coreStatus s c := by
  simp only [coreStatus, ho, hs]

theorem coreStatus_session (hr : RunInv s) (n : SessionChangeNotification) (indras : Indras)
    (b : Nat) :
    coreStatus (initializerOnNewSession n indras b s) c =
      if coreStatus s c = .occupied then .free else coreStatus s c := by
  have hfree : (initializerOnNewSession n indras b s).isOccupied c = false := by
    unfold Scheduler.isOccupied
    split
    · exact absurd ‹_› (initializerOnNewSession_core_empty _ _ _ _ c _)
    · rfl
  have hsc : (initializerOnNewSession n indras b s).scheduledCores = s.scheduledCores := rfl
  have hun := hr.unoccupied c
  unfold coreStatus
  by_cases hc : c ∈ s.scheduledCores <;> cases ho : s.isOccupied c <;> simp_all

theorem coreStatus_addClaim (hr : RunInv s) {claim : IndrabaseClaim}
    (hok : addIndrabaseClaim h claim s = .ok s') : coreStatus s' c = coreStatus s c := by
  rcases addIndrabaseClaim_ok hr.index hok with rfl | ⟨-, -, -, -, _, -, -, rfl⟩ <;> rfl

theorem coreStatus_freeCores (hr : RunInv s) {freed : List (Nat × FreedReason)}
    (hok : freeCores h freed s = .ok s') :
    coreStatus s' c = (coreStatus s c).afterFree freed c := by
  have ho := freeCores_isOccupied_iff hok c
  have hsc : s'.scheduledCores = s.scheduledCores := by
    simp only [Scheduler.scheduledCores, (freeCores_frame hok).1]
  have hun := hr.unoccupied c
  unfold coreStatus
  by_cases hc : c ∈ s.scheduledCores <;> by_cases hf : c ∈ freed.map (·.1) <;>
    cases hs : s.isOccupied c <;> cases hs' : s'.isOccupied c <;>
    simp_all [CoreStatus.afterFree]

/-- `schedule` is `free_cores`, then it may schedule a core that is free. -/
theorem coreStatus_schedule (hr : RunInv s) {freed : List (Nat × FreedReason)} {now : Nat}
    (hok : schedule h freed now s = .ok s') :
    coreStatus s' c = (coreStatus s c).afterFree freed c ∨
      ((coreStatus s c).afterFree freed c = .free ∧ coreStatus s' c = .scheduled) := by
  obtain ⟨s₁, new, scheduled, queue, h₁, rfl, -, hperm, hnew, -, -⟩ :=
    schedule_ok hr.sorted (Nat.le_of_lt hr.coresLt) hok
  rw [← coreStatus_freeCores hr h₁]
  have ho : ({ s₁ with scheduled, indrabaseQueue := queue } : Scheduler).isOccupied c =
      s₁.isOccupied c := rfl
  have hmem : c ∈ ({ s₁ with scheduled, indrabaseQueue := queue } : Scheduler).scheduledCores ↔
      c ∈ s₁.scheduledCores ∨ c ∈ new.map (·.core) := by
    simp only [Scheduler.scheduledCores]
    rw [(hperm.map _).mem_iff, List.map_append, List.mem_append]
  by_cases hc : c ∈ new.map (·.core)
  · obtain ⟨a, ha, rfl⟩ := List.mem_map.mp hc
    obtain ⟨_, hfree, hns, -, rfl⟩ := hnew a ha
    have hocc : s₁.isOccupied a.core = false := by simp [Scheduler.isOccupied, hfree]
    exact .inr ⟨by simp [coreStatus, hocc, hns], by simp [coreStatus, ho, hocc, hmem, hc]⟩
  · exact .inl (coreStatus_eq_of _ ho (by simp [hmem, hc]))

/-- `occupied` on its caller contract occupies exactly the given cores, all scheduled. -/
theorem coreStatus_occupied (hr : RunInv s) {o : List Nat} (ha : (Call.occupied o).Admissible s)
    (hok : occupied o s = .ok s') :
    if c ∈ o then coreStatus s c = .scheduled ∧ coreStatus s' c = .occupied
    else coreStatus s' c = coreStatus s c := by
  obtain ⟨hOs, hO⟩ := ha
  have hkept := occupied_kept hOs hr.sorted hO hok
  obtain ⟨kept, removed, rfl, -, hperm, hrem⟩ := occupied_ok hok
  have hnd : ((kept ++ removed).map (·.core)).Nodup :=
    (hperm.map _).nodup_iff.mpr hr.sorted.nodup_cores
  rw [List.map_append] at hnd
  split_ifs with hc
  · have hsc := hO c hc
    obtain ⟨a, has, rfl⟩ := List.mem_map.mp hsc
    have har : a ∈ removed :=
      (List.mem_append.mp (hperm.symm.subset has)).resolve_left fun hk => hkept a hk hc
    have hins := getElem?_foldl_occupy_of_mem removed s.availabilityCores
      (List.nodup_append.mp hnd).2.1 har (hrem a har).2
    refine ⟨by simp [coreStatus, hr.unoccupied a.core hsc, hsc], ?_⟩
    simp [coreStatus, Scheduler.isOccupied, hins]
  · have hcr : c ∉ removed.map (·.core) := fun hm => by
      obtain ⟨a, ha, rfl⟩ := List.mem_map.mp hm; exact hc (hrem a ha).1
    refine coreStatus_eq_of _ ?_ ?_
    · simp [Scheduler.isOccupied, getElem?_foldl_occupy_of_not_mem removed _ hcr]
    · simp only [Scheduler.scheduledCores]
      rw [← (hperm.map _).mem_iff, List.map_append, List.mem_append]
      simp [hcr]

theorem coreStatus_clear (hok : clear h s = .ok s') :
    coreStatus s' c = if coreStatus s c = .scheduled then .free else coreStatus s c := by
  obtain ⟨queue, rfl, -⟩ := clear_ok hok
  change (if s.isOccupied c then _ else if c ∈ ([] : List Nat) then _ else _) = _
  unfold coreStatus
  by_cases hc : c ∈ s.scheduledCores <;> cases ho : s.isOccupied c <;> simp [hc]

end Status

/-! ## The refinement -/

/-- **Core lifecycle**: in every run, every call moves the status of every core only as
`Call.Moves` allows. -/
theorem core_lifecycle {w w' : Chain} (hw : Reachable w) (call : Call)
    (ha : call.Admissible w.scheduler) (happ : call.apply w = .ok w') (c : Nat) :
    call.Moves c (coreStatus w.scheduler c) (coreStatus w'.scheduler c) := by
  have hr := hw.runInv
  cases call with
  | initializerOnNewSession n i b => cases happ; exact coreStatus_session hr n i b
  | addIndrabaseClaim claim =>
    obtain ⟨s', hok, rfl⟩ := map_eq_ok.mp happ; exact coreStatus_addClaim hr hok
  | freeCores freed =>
    obtain ⟨s', hok, rfl⟩ := map_eq_ok.mp happ; exact coreStatus_freeCores hr hok
  | schedule freed now =>
    obtain ⟨s', hok, rfl⟩ := map_eq_ok.mp happ; exact coreStatus_schedule hr hok
  | occupied o => obtain ⟨s', hok, rfl⟩ := map_eq_ok.mp happ; exact coreStatus_occupied hr ha hok
  | clear => obtain ⟨s', hok, rfl⟩ := map_eq_ok.mp happ; exact coreStatus_clear hok

theorem core_lifecycle_at_block_two :
    Reachable ⟨testHost, scheduledAtBlockTwo⟩ ∧
    (Call.occupied [0, 2]).Admissible scheduledAtBlockTwo ∧
    (Call.occupied [0, 2]).apply ⟨testHost, scheduledAtBlockTwo⟩ = .ok ⟨testHost, occupiedAtBlockTwo⟩ ∧
    (Call.occupied [0, 2]).Moves 2 (coreStatus scheduledAtBlockTwo 2) (coreStatus occupiedAtBlockTwo 2) :=
  have ha : (Call.occupied [0, 2]).Admissible scheduledAtBlockTwo := by decide
  have happ : (Call.occupied [0, 2]).apply ⟨testHost, scheduledAtBlockTwo⟩ =
      .ok ⟨testHost, occupiedAtBlockTwo⟩ := rfl
  ⟨scheduledAtBlockTwo_reachable.reachable, ha, happ,
    core_lifecycle scheduledAtBlockTwo_reachable.reachable _ ha happ 2⟩

example : coreStatus scheduledAtBlockTwo 2 = .scheduled ∧
    coreStatus occupiedAtBlockTwo 2 = .occupied := by decide

/-! ## What `schedule` leaves free -/

/-- A core index without an occupant is empty. -/
theorem getElem?_eq_some_none_of_isOccupied {s : Scheduler} {c : Nat}
    (hc : c < s.availabilityCores.length) (ho : s.isOccupied c = false) :
    s.availabilityCores[c]? = some none := by
  unfold Scheduler.isOccupied at ho
  rw [List.getElem?_eq_getElem hc] at ho ⊢
  cases he : s.availabilityCores[c] with
  | none => rfl
  | some o => simp [he] at ho

/-- **Work conservation**: `schedule` with groups, on a sorted `Scheduled` and at most
`2^32` cores (as on every reachable state), leaves free only multiplexer cores with
nothing queued on their offset. -/
theorem schedule_conserves_work {h : Host} {freed : List (Nat × FreedReason)} {now : Nat}
    {s s' : Scheduler} (hs : SortedByCore s.scheduled) (hlen : s.availabilityCores.length ≤ 2 ^ 32)
    (hok : schedule h freed now s = .ok s') (hg : s'.validatorGroups ≠ []) {c : Nat}
    (hc : c < s'.availabilityCores.length) (hfree : coreStatus s' c = .free) :
    h.indras.indracores.length ≤ c ∧
      s'.indrabaseQueue.getNextOnCore (c - h.indras.indracores.length) = none := by
  obtain ⟨s₁, h₁, ⟨hg₁, rfl⟩ | ⟨q, us, r, hsw, hins, rfl⟩⟩ := schedule_eq hs hok
  · exact absurd hg₁ hg
  obtain ⟨hsch, -, -, hlen₁⟩ := freeCores_frame h₁
  obtain ⟨r', hr', -, hrp, -⟩ := insertUpdates_of_sweep (hsch ▸ hs) (hlen₁ ▸ hlen) hsw
  obtain rfl : r' = r := Except.ok.inj (hr'.symm.trans hins)
  have hclt : c < 2 ^ 32 := Nat.lt_of_lt_of_le hc (hlen₁ ▸ hlen)
  unfold coreStatus at hfree
  split_ifs at hfree with ho hsc
  have hcfree : c ∈ freeCoreIndices s₁.availabilityCores :=
    mem_freeCoreIndices.mpr (getElem?_eq_some_none_of_isOccupied hc (Bool.not_eq_true _ ▸ ho))
  -- Neither the old `Scheduled` nor the sweep put an assignment on `c`.
  have hmem : ∀ a ∈ s₁.scheduled ++ us.map (·.2), a.core ≠ c := fun a ha he =>
    hsc (List.mem_map.mpr ⟨a, hrp.symm.subset ha, he⟩)
  have hc₁ : c ∉ s₁.scheduled.map (·.core) := fun hc₁ => by
    obtain ⟨a, ha, he⟩ := List.mem_map.mp hc₁
    exact hmem a (List.mem_append_left _ ha) he
  have hnone : (us.map (·.2)).find? (·.core == c) = none := List.find?_eq_none.mpr fun a ha => by
    simpa using hmem a (List.mem_append_right _ ha)
  obtain ⟨g, hfind⟩ := sweepSpec_find (freeCoreIndices_sorted _)
    (fun c' hc' => Nat.lt_of_lt_of_le (lt_of_mem_freeCoreIndices hc') (hlen₁ ▸ hlen)) hsw hcfree hc₁
  obtain ⟨hn, hq⟩ := assignCoreWith_snd_eq_none.mp (hfind.symm.trans hnone)
  rw [asU32_of_lt (Nat.lt_of_le_of_lt (Nat.sub_le c _) hclt)] at hq
  exact ⟨hn, IndrabaseClaimQueue.getNextOnCore_of_sublist (sweepSpec_queue_sublist hsw) hq⟩

/-- At the end of block 2 of `schedule_schedules` a `schedule` at block 3 leaves core 4
free: the multiplexer offset `2` has nothing queued. -/
theorem schedule_conserves_work_at_block_three :
    SortedByCore occupiedAtBlockTwo.scheduled ∧ occupiedAtBlockTwo.availabilityCores.length ≤ 2 ^ 32 ∧
    schedule testHost [] 3 occupiedAtBlockTwo = .ok occupiedAtBlockTwo ∧
    occupiedAtBlockTwo.validatorGroups ≠ [] ∧ 4 < occupiedAtBlockTwo.availabilityCores.length ∧
    coreStatus occupiedAtBlockTwo 4 = .free ∧
    (testHost.indras.indracores.length ≤ 4 ∧
      occupiedAtBlockTwo.indrabaseQueue.getNextOnCore (4 - testHost.indras.indracores.length) = none) :=
  have hs : SortedByCore occupiedAtBlockTwo.scheduled := by unfold SortedByCore; decide
  have hok : schedule testHost [] 3 occupiedAtBlockTwo = .ok occupiedAtBlockTwo := rfl
  have hg : occupiedAtBlockTwo.validatorGroups ≠ [] := by decide
  have hfree : coreStatus occupiedAtBlockTwo 4 = .free := by decide
  ⟨hs, by decide, hok, hg, by decide, hfree,
    schedule_conserves_work hs (by decide) hok hg (by decide) hfree⟩

/-! ## The bound on `Scheduled` -/

/-- **`Scheduled` within the cores**: in every protocol run, at every point of a block
after its `clear` and at its end, `Scheduled` holds at most one assignment per empty core,
so no more assignments than cores. -/
theorem scheduled_within_free_cores {p : Phase} {w : Chain} (hw : ProtocolReachable p w)
    (hp : p ≠ .sessionChanged) :
    w.scheduler.scheduled.length ≤ (freeCoreIndices w.scheduler.availabilityCores).length := by
  have hr := hw.reachable.runInv
  have hsub : w.scheduler.scheduledCores ⊆ freeCoreIndices w.scheduler.availabilityCores :=
    fun c hc => by
      obtain ⟨a, ha, rfl⟩ := List.mem_map.mp hc
      exact mem_freeCoreIndices.mpr (getElem?_eq_some_none_of_isOccupied
        (hw.safeInv.bounded hp a ha) (hr.unoccupied _ hc))
  simpa [Scheduler.scheduledCores] using
    (List.subperm_of_subset hr.sorted.nodup_cores hsub).length_le

theorem scheduled_within_free_cores_at_block_two :
    ProtocolReachable .scheduled ⟨testHost, scheduledAtBlockTwo⟩ ∧
    Phase.scheduled ≠ .sessionChanged ∧
    scheduledAtBlockTwo.scheduled.length ≤ (freeCoreIndices scheduledAtBlockTwo.availabilityCores).length :=
  ⟨scheduledAtBlockTwo_reachable, by decide,
    scheduled_within_free_cores scheduledAtBlockTwo_reachable (by decide)⟩

/-! ## Within a session -/

section Frame

variable {h : Host} {s s' : Scheduler}

/-- `add_indrabase_claim` writes only the claim index and the queue. -/
theorem addIndrabaseClaim_frame {claim : IndrabaseClaim}
    (hok : addIndrabaseClaim h claim s = .ok s') :
    ∃ index queue, s' = { s with indrabaseClaimIndex := index, indrabaseQueue := queue } := by
  unfold addIndrabaseClaim at hok
  split at hok
  · cases hok; exact ⟨_, _, rfl⟩
  simp only at hok
  split at hok
  · cases hok; exact ⟨_, _, rfl⟩
  split at hok
  · cases hok; exact ⟨_, _, rfl⟩
  obtain ⟨index, -, hok⟩ := bind_eq_ok.mp hok
  obtain ⟨queue, -, hok⟩ := bind_eq_ok.mp hok
  cases hok
  exact ⟨_, _, rfl⟩

/-- `schedule` writes `Scheduled` and the queue over what `free_cores` leaves. -/
theorem schedule_frame {freed : List (Nat × FreedReason)} {now : Nat}
    (hok : schedule h freed now s = .ok s') :
    ∃ s₁, freeCores h freed s = .ok s₁ ∧
      ∃ scheduled queue, s' = { s₁ with scheduled, indrabaseQueue := queue } := by
  obtain ⟨s₁, h₁, hok⟩ := bind_eq_ok.mp hok
  refine ⟨s₁, h₁, ?_⟩
  by_cases hg : s₁.validatorGroups.isEmpty
  · simp only [hg, if_true] at hok
    cases hok
    exact ⟨_, _, rfl⟩
  simp only [hg, if_false, Bool.false_eq_true] at hok
  obtain ⟨-, -, hok⟩ := bind_eq_ok.mp hok
  obtain ⟨⟨q, us⟩, -, hok⟩ := bind_eq_ok.mp hok
  obtain ⟨sch, -, hok⟩ := bind_eq_ok.mp hok
  cases hok
  exact ⟨_, _, rfl⟩

end Frame

namespace Call

/-- Whether the call is a session change. -/
def changesSession : Call → Bool
  | .initializerOnNewSession .. => true
  | _ => false

/-- Every call but a session change keeps the collaborators, the validator groups, the
session start and the number of cores. -/
theorem keeps_session {w w' : Chain} {call : Call} (hc : call.changesSession = false)
    (happ : call.apply w = .ok w') :
    w'.host = w.host ∧ w'.scheduler.validatorGroups = w.scheduler.validatorGroups ∧
      w'.scheduler.sessionStartBlock = w.scheduler.sessionStartBlock ∧
      w'.scheduler.availabilityCores.length = w.scheduler.availabilityCores.length := by
  cases call with
  | initializerOnNewSession => cases hc
  | addIndrabaseClaim claim =>
    obtain ⟨s', hok, rfl⟩ := map_eq_ok.mp happ
    obtain ⟨_, _, rfl⟩ := addIndrabaseClaim_frame hok
    exact ⟨rfl, rfl, rfl, rfl⟩
  | freeCores freed =>
    obtain ⟨s', hok, rfl⟩ := map_eq_ok.mp happ
    obtain ⟨-, hg, hst, hlen⟩ := freeCores_frame hok
    exact ⟨rfl, hg, hst, hlen⟩
  | schedule freed now =>
    obtain ⟨s', hok, rfl⟩ := map_eq_ok.mp happ
    obtain ⟨s₁, h₁, _, _, rfl⟩ := schedule_frame hok
    obtain ⟨-, hg, hst, hlen⟩ := freeCores_frame h₁
    exact ⟨rfl, hg, hst, hlen⟩
  | occupied o =>
    obtain ⟨s', hok, rfl⟩ := map_eq_ok.mp happ
    obtain ⟨_, _, rfl, -⟩ := occupied_ok hok
    exact ⟨rfl, rfl, rfl, length_foldl_occupy _ _⟩
  | clear =>
    obtain ⟨s', hok, rfl⟩ := map_eq_ok.mp happ
    obtain ⟨_, rfl, -⟩ := clear_ok hok
    exact ⟨rfl, rfl, rfl, rfl⟩

end Call

/-- The calls of one session from `w₀`: calls other than a session change, recorded with
the state each was applied to. -/
inductive SessionRun (w₀ : Chain) : Chain → List (Chain × Call) → Prop
  | refl : SessionRun w₀ w₀ []
  | step {w w' : Chain} {history : List (Chain × Call)} (call : Call) :
      SessionRun w₀ w history → call.changesSession = false → call.apply w = .ok w' →
      SessionRun w₀ w' (history ++ [(w, call)])

namespace SessionRun

variable {w₀ w : Chain} {history : List (Chain × Call)}

theorem host (hw : SessionRun w₀ w history) : w.host = w₀.host := by
  induction hw with
  | refl => rfl
  | step call _ hc happ ih => exact (Call.keeps_session hc happ).1.trans ih

theorem runInv (h₀ : RunInv w₀.scheduler) (hw : SessionRun w₀ w history) : RunInv w.scheduler := by
  induction hw with
  | refl => exact h₀
  | step call _ _ happ ih => exact ih.step call happ

end SessionRun

/-- **The session is fixed between session changes**: over any calls other than a session
change, the collaborators, `ValidatorGroups`, `SessionStartBlock` and the number of cores
stay as they were, and with them what `group_assigned_to_core` gives for every core and
block. -/
theorem session_fixed_between_changes {w₀ w : Chain} {history : List (Chain × Call)}
    (hw : SessionRun w₀ w history) :
    w.host = w₀.host ∧ w.scheduler.validatorGroups = w₀.scheduler.validatorGroups ∧
      w.scheduler.sessionStartBlock = w₀.scheduler.sessionStartBlock ∧
      w.scheduler.availabilityCores.length = w₀.scheduler.availabilityCores.length ∧
      groupAssignedToCore w.host w.scheduler = groupAssignedToCore w₀.host w₀.scheduler := by
  induction hw with
  | refl => exact ⟨rfl, rfl, rfl, rfl, rfl⟩
  | step call _ hc happ ih =>
    obtain ⟨hh, hg, hst, hlen, -⟩ := ih
    obtain ⟨hh', hg', hst', hlen'⟩ := Call.keeps_session hc happ
    refine ⟨hh'.trans hh, hg'.trans hg, hst'.trans hst, hlen'.trans hlen, ?_⟩
    rw [hh'.trans hh, groupAssignedToCore_congr (hg'.trans hg) (hst'.trans hst)]

end SelendraScheduler
