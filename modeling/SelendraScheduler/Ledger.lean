import SelendraScheduler.Lifecycle
import SelendraScheduler.ClaimIndex
import SelendraScheduler.BlockResults
import SelendraScheduler.QueueEntries

/-!
# SelendraScheduler.Ledger

The claim ledger: no call loses, duplicates or alters an indrabase claim entry (its
claim, collator and retries) beyond what it documents. The entries the scheduler holds
are `claimEntries`: those queued, those of the indrabase assignments in `Scheduled` and
those of the indrabase occupants. For each call, `Call.claimsIn` is what it brings in
and `Call.claimsOut` what it releases:

* a session change releases the queued entries and occupants that `will_keep` rejects,
  or all of them without indrabase cores (`sessionReleased`);
* `add_indrabase_claim` brings in its claim with no retries exactly when the indra is a
  live indrabase, the queue has room and the index does not hold the id (`addedClaims`);
* `free_cores` and `schedule` release the occupants of the cores freed as concluded
  (`freedClaims .concluded`); a timed-out occupant goes back to the queue unchanged;
* `occupied` releases and brings in nothing;
* `clear` releases every scheduled entry and brings back those it re-queues, each with
  one more retry.

`claimEntries_step` is the law of one call, from one lemma per entry point
(`session_claimEntries`, ..., `clear_claimEntries`); `claim_ledger_balances` sums it over
a run (`LedgerRun`). The runs are any sequences of calls from a state that keeps the run
invariant, each call freeing a core at most once, as `free_cores`' callers do with their
ascending lists of cores.

Read entry by entry, the same lemmas say where retries change (`mem_claimEntries_step`):
every entry a call leaves was held before it, with the same claim and retries, unless the
call brought it in. So retries grow only in `clear`, and with the retry bounds of
`ProtocolReachable.entryInv` this is `retries_within_limit`.
-/

namespace SelendraScheduler

/-- Every claim entry the scheduler holds: queued, in `Scheduled`, or occupying a core. -/
def claimEntries (s : Scheduler) : List IndrabaseEntry :=
  s.indrabaseQueue.queue.map (·.claim) ++ s.scheduled.filterMap CoreAssignment.indrabaseEntry? ++
    (occupiedClaims s.availabilityCores).map (·.claim)

/-- The indrabase occupants of the cores freed for `reason`. -/
def freedClaims (reason : FreedReason) (cores : List (Option CoreOccupied))
    (freed : List (Nat × FreedReason)) : List IndrabaseEntry :=
  freed.filterMap fun x =>
    match cores[x.1]? with
    | some (some (CoreOccupied.indrabase e)) => if x.2 = reason then some e else none
    | _ => none

section FreeCores

variable {h : Host}

/-- Emptying a core the list does not name changes nothing it releases. -/
theorem freedClaims_set_none {reason : FreedReason} {cores : List (Option CoreOccupied)} {i : Nat}
    {freed : List (Nat × FreedReason)} (hi : i ∉ freed.map (·.1)) :
    freedClaims reason (cores.set i none) freed = freedClaims reason cores freed :=
  List.filterMap_congr fun x hx => by
    have : i ≠ x.1 := fun he => hi (he ▸ List.mem_map_of_mem _ hx)
    simp only [List.getElem?_set_ne this]

/-- Trading the cores' occupants: the rest of the entries is untouched. -/
theorem claimEntries_cores_perm {s : Scheduler} {cores : List (Option CoreOccupied)}
    {extra : List IndrabaseEntry}
    (h : ((occupiedClaims cores).map (·.claim) ++ extra).Perm
      ((occupiedClaims s.availabilityCores).map (·.claim))) :
    (claimEntries { s with availabilityCores := cores } ++ extra).Perm (claimEntries s) := by
  simp only [claimEntries, List.append_assoc]
  exact (h.append_left _).append_left _

/-- One freed core: a concluded occupant is released, a timed-out one re-queued. -/
theorem freeCore_claimEntries {s s' : Scheduler} {i : Nat} {r : FreedReason}
    (hf : freeCore h s (i, r) = .ok s') :
    (claimEntries s' ++ freedClaims .concluded s.availabilityCores [(i, r)]).Perm (claimEntries s) := by
  obtain ⟨index, queue, rfl, heff⟩ := freeCore_ok hf
  rcases hc : s.availabilityCores[i]? with _ | o
  · simp only [hc] at heff
    obtain ⟨-, rfl⟩ := heff
    simp [claimEntries, freedClaims, hc, List.set_eq_of_length_le (List.getElem?_eq_none_iff.mp hc)]
  have hset := (occupiedClaims_set_none hc).map (·.claim)
  rw [List.map_append] at hset
  rcases o with _ | _ | e
  -- An empty core and an indracore release nothing.
  iterate 2
    simp only [hc] at heff
    obtain ⟨-, rfl⟩ := heff
    rw [show freedClaims .concluded s.availabilityCores [(i, r)] = [] by
      cases r <;> simp [freedClaims, hc]]
    exact claimEntries_cores_perm hset
  · simp only [hc] at heff
    rcases heff with ⟨rfl, -, rfl⟩ | ⟨rfl, -, hq⟩
    · have h1 : freedClaims .concluded s.availabilityCores [(i, .concluded)] = [e] := by
        simp [freedClaims, hc]
      rw [h1]
      exact claimEntries_cores_perm hset
    · have h0 : freedClaims .concluded s.availabilityCores [(i, .timedOut)] = [] := by
        simp [freedClaims, hc]
      rw [h0, List.append_nil]
      have hq' := IndrabaseClaimQueue.enqueueEntry_queue hq
      have he : (occupiedClaims [some (CoreOccupied.indrabase e)]).map (·.claim) = [e] := rfl
      refine List.perm_iff_count.mpr fun x => ?_
      have := hset.count_eq x
      simp only [claimEntries, hq', he, List.map_append, List.map_cons, List.map_nil, List.count_append] at this ⊢
      omega

/-- `free_cores` on distinct cores releases exactly the concluded occupants. -/
theorem freeCores_claimEntries : ∀ {freed : List (Nat × FreedReason)} {s s' : Scheduler},
    (freed.map (·.1)).Nodup → freeCores h freed s = .ok s' →
    (claimEntries s' ++ freedClaims .concluded s.availabilityCores freed).Perm (claimEntries s)
  | [], s, s', _, hf => by cases hf; simp [freedClaims]
  | (i, r) :: rest, s, s', hnd, hf => by
    obtain ⟨s₁, h₁, hf⟩ := bind_eq_ok.mp hf
    rw [List.map_cons, List.nodup_cons] at hnd
    have hcores : s₁.availabilityCores = s.availabilityCores.set i none := by
      obtain ⟨_, _, rfl, -⟩ := freeCore_ok h₁; rfl
    have ih := freeCores_claimEntries hnd.2 hf
    rw [hcores, freedClaims_set_none hnd.1] at ih
    have hsplit : freedClaims .concluded s.availabilityCores ((i, r) :: rest) =
        freedClaims .concluded s.availabilityCores [(i, r)] ++ freedClaims .concluded s.availabilityCores rest :=
      List.filterMap_append [(i, r)] rest _
    rw [hsplit]
    have hswap : List.Perm (claimEntries s' ++ (freedClaims .concluded s.availabilityCores [(i, r)] ++
        freedClaims .concluded s.availabilityCores rest)) (claimEntries s' ++
          freedClaims .concluded s.availabilityCores rest ++ freedClaims .concluded s.availabilityCores [(i, r)]) := by
      rw [List.append_assoc]; exact List.perm_append_comm.append_left _
    exact hswap.trans ((ih.append_right _).trans (freeCore_claimEntries h₁))
termination_by structural freed => freed

/-- Timed-out cores release nothing. -/
theorem freedClaims_of_timedOut {cores : List (Option CoreOccupied)} {freed : List (Nat × FreedReason)}
    (ht : ∀ x ∈ freed, x.2 = .timedOut) : freedClaims .concluded cores freed = [] :=
  List.filterMap_eq_nil_iff.mpr fun x hx => by
    simp only [ht x hx]
    split <;> simp

/-- `free_cores` of timed-out cores, on any cores, re-queues their occupants unchanged. -/
theorem freeCores_timedOut_claimEntries : ∀ {freed : List (Nat × FreedReason)} {s s' : Scheduler},
    (∀ x ∈ freed, x.2 = .timedOut) → freeCores h freed s = .ok s' →
    (claimEntries s').Perm (claimEntries s)
  | [], s, s', _, hf => by cases hf; rfl
  | (i, r) :: rest, s, s', ht, hf => by
    obtain ⟨s₁, h₁, hf⟩ := bind_eq_ok.mp hf
    have h0 : freedClaims .concluded s.availabilityCores [(i, r)] = [] :=
      freedClaims_of_timedOut fun x hx => ht x (List.mem_singleton.mp hx ▸ List.mem_cons_self _ _)
    refine (freeCores_timedOut_claimEntries (fun x hx => ht x (List.mem_cons_of_mem _ hx)) hf).trans ?_
    simpa [h0] using freeCore_claimEntries h₁
termination_by structural freed => freed

/-- On any cores, `free_cores` only releases and re-queues: every entry after it was held
before it. -/
theorem freeCores_claimEntries_subset : ∀ {freed : List (Nat × FreedReason)} {s s' : Scheduler},
    freeCores h freed s = .ok s' → claimEntries s' ⊆ claimEntries s
  | [], s, s', hf => by cases hf; exact List.Subset.refl _
  | (i, r) :: rest, s, s', hf => by
    obtain ⟨s₁, h₁, hf⟩ := bind_eq_ok.mp hf
    exact (freeCores_claimEntries_subset hf).trans
      fun _ he => (freeCore_claimEntries h₁).subset (List.mem_append_left _ he)
termination_by structural freed => freed

end FreeCores

section Occupied

/-- Installing an occupant in an empty core adds just its claim. -/
theorem occupiedClaims_set_of_none {cores : List (Option CoreOccupied)} {i : Nat}
    (v : Option CoreOccupied) (hi : cores[i]? = some none) :
    (occupiedClaims (cores.set i v)).Perm (occupiedClaims cores ++ occupiedClaims [v]) := by
  obtain ⟨hlt, he⟩ := List.getElem?_eq_some_iff.mp hi
  simpa [he, occupiedClaims] using occupiedClaims_set v hlt

/-- Installing assignments in distinct empty cores adds exactly their claims. -/
theorem occupiedClaims_foldl_occupy_perm : ∀ (removed : List CoreAssignment)
    (cores : List (Option CoreOccupied)), (removed.map (·.core)).Nodup →
    (∀ a ∈ removed, cores[a.core]? = some none) →
    ((occupiedClaims (removed.foldl occupy cores)).map (·.claim)).Perm
      ((occupiedClaims cores).map (·.claim) ++ removed.filterMap CoreAssignment.indrabaseEntry?)
  | [], cores, _, _ => by simp
  | a :: rest, cores, hnd, hfree => by
    rw [List.map_cons, List.nodup_cons] at hnd
    have hrest : ∀ b ∈ rest, (occupy cores a)[b.core]? = some none := fun b hb => by
      have hne : a.core ≠ b.core := fun he => hnd.1 (he ▸ List.mem_map_of_mem _ hb)
      rw [occupy, List.getElem?_set_ne hne]; exact hfree b (List.mem_cons_of_mem _ hb)
    have hv : (occupiedClaims [some a.toCoreOccupied]).map (·.claim) = a.indrabaseEntry?.toList := by
      unfold CoreAssignment.toCoreOccupied CoreAssignment.indrabaseEntry?; cases a.kind <;> rfl
    have h1 := (occupiedClaims_set_of_none (some a.toCoreOccupied)
      (hfree a (List.mem_cons_self _ _))).map (·.claim)
    rw [List.map_append, hv] at h1
    rw [List.foldl_cons]
    refine (occupiedClaims_foldl_occupy_perm rest _ hnd.2 hrest).trans ?_
    rcases hk : a.indrabaseEntry? with _ | e <;> rw [hk] at h1
    · rw [List.filterMap_cons_none hk]
      exact (h1.trans (by rw [Option.toList_none, List.append_nil])).append_right _
    · rw [List.filterMap_cons_some hk]
      simpa using h1.append_right (rest.filterMap CoreAssignment.indrabaseEntry?)
termination_by structural removed => removed

variable {s s' : Scheduler}

/-- `occupied` moves entries from `Scheduled` into the cores, which were empty. -/
theorem occupied_claimEntries (hr : RunInv s) {o : List Nat} (hok : occupied o s = .ok s') :
    (claimEntries s').Perm (claimEntries s) := by
  obtain ⟨kept, removed, rfl, -, hperm, hrem⟩ := occupied_ok hok
  have hnd : ((kept ++ removed).map (·.core)).Nodup :=
    (hperm.map _).nodup_iff.mpr hr.sorted.nodup_cores
  rw [List.map_append] at hnd
  have hfree : ∀ a ∈ removed, s.availabilityCores[a.core]? = some none := fun a ha =>
    getElem?_eq_some_none_of_isOccupied (hrem a ha).2 (hr.unoccupied a.core
      (List.mem_map_of_mem _ (hperm.subset (List.mem_append_right _ ha))))
  have h1 := (occupiedClaims_foldl_occupy_perm removed s.availabilityCores
    (List.nodup_append.mp hnd).2.1 hfree)
  have h2 := hperm.filterMap CoreAssignment.indrabaseEntry?
  rw [List.filterMap_append] at h2
  refine List.perm_iff_count.mpr fun x => ?_
  have := h1.count_eq x
  have := h2.count_eq x
  simp only [claimEntries, List.count_append] at *
  omega

end Occupied

section Calls

variable {h : Host} {s s' : Scheduler}

/-- `schedule`'s sweep, after its `free_cores`, moves entries from the queue into
`Scheduled` unchanged. -/
theorem schedule_sweep_claimEntries (hr : RunInv s) {freed : List (Nat × FreedReason)}
    {now : Nat} (hok : schedule h freed now s = .ok s') :
    ∃ s₁, freeCores h freed s = .ok s₁ ∧ (claimEntries s').Perm (claimEntries s₁) := by
  obtain ⟨s₁, new, scheduled, queue, h₁, rfl, -, hperm, -, hq, -⟩ :=
    schedule_ok hr.sorted (Nat.le_of_lt hr.coresLt) hok
  refine ⟨s₁, h₁, List.perm_iff_count.mpr fun x => ?_⟩
  have h1 := hq.count_eq x
  have h2 := (hperm.filterMap CoreAssignment.indrabaseEntry?).count_eq x
  simp only [claimEntries, List.filterMap_append, List.count_append] at h1 h2 ⊢
  omega

/-- `schedule` releases what `free_cores` releases. -/
theorem schedule_claimEntries (hr : RunInv s) {freed : List (Nat × FreedReason)} {now : Nat}
    (hd : (freed.map (·.1)).Nodup) (hok : schedule h freed now s = .ok s') :
    (claimEntries s' ++ freedClaims .concluded s.availabilityCores freed).Perm (claimEntries s) := by
  obtain ⟨s₁, h₁, hsweep⟩ := schedule_sweep_claimEntries hr hok
  exact (hsweep.append_right _).trans (freeCores_claimEntries hd h₁)

/-- `clear` trades the scheduled entries for the ones it re-queues. -/
theorem clear_claimEntries (hok : clear h s = .ok s') :
    (claimEntries s' ++ s.scheduled.filterMap CoreAssignment.indrabaseEntry?).Perm
      (claimEntries s ++ s.scheduled.filterMap (requeueEntry? h)) := by
  obtain ⟨queue, rfl, hq, -⟩ := clear_ok hok
  refine List.perm_iff_count.mpr fun x => ?_
  simp only [claimEntries, hq, List.filterMap_nil, List.count_append, List.count_nil]
  omega

/-- What a session change releases: without indrabase cores, every queued entry and
indrabase occupant; otherwise those of them `will_keep` rejects. -/
def sessionReleased (n : SessionChangeNotification) (indras : Indras) (s : Scheduler) :
    List IndrabaseEntry :=
  ((s.indrabaseQueue.queue ++ occupiedClaims s.availabilityCores).filter fun q =>
    n.newConfig.indrabaseCores == 0 || !willKeep n.newConfig indras.isIndrabase q).map (·.claim)

theorem session_claimEntries (hr : RunInv s) (n : SessionChangeNotification) (indras : Indras)
    (b : Nat) :
    (claimEntries (initializerOnNewSession n indras b s) ++ sessionReleased n indras s).Perm
      (claimEntries s) := by
  obtain ⟨hk0, hk⟩ := initializerOnNewSession_claims n indras b s hr.index
  have hocc : occupiedClaims (initializerOnNewSession n indras b s).availabilityCores = [] := by
    rw [initializerOnNewSession_availabilityCores, occupiedClaims_replicate_none]
  refine List.perm_iff_count.mpr fun x => ?_
  rcases Nat.eq_zero_or_pos n.newConfig.indrabaseCores with h0 | h0
  · simp [claimEntries, sessionReleased, (hk0 h0).1, hocc, h0, IndrabaseClaimQueue.empty,
      List.count_append]
    omega
  · have hk0' : (n.newConfig.indrabaseCores == 0) = false := by simpa using h0.ne'
    have hsplit := ((List.filter_append_perm (willKeep n.newConfig indras.isIndrabase)
      (s.indrabaseQueue.queue ++ occupiedClaims s.availabilityCores)).map (·.claim)).count_eq x
    simp only [claimEntries, sessionReleased, (hk h0).1, hocc, hk0', Bool.false_or, List.map_append, List.map_nil, List.count_append, List.count_nil,
      initializerOnNewSession_scheduled] at hsplit ⊢
    omega

/-- What `add_indrabase_claim` brings in: the claim with no retries, when its indra is a
live indrabase, the queue has room and the index does not hold its id. -/
def addedClaims (h : Host) (claim : IndrabaseClaim) (s : Scheduler) : List IndrabaseEntry :=
  if h.indras.isIndrabase claim.indraId = true ∧
      s.indrabaseQueue.queue.length <
        asU32 (h.config.indrabaseCores * h.config.schedulingLookahead) ∧
      claim.indraId ∉ s.indrabaseClaimIndex then [⟨claim, 0⟩] else []

/-- `add_indrabase_claim` on a sorted index brings in exactly `addedClaims`: nothing, with
the storage unchanged, or the claim, queued on the next offset. -/
theorem addIndrabaseClaim_added (hs : s.indrabaseClaimIndex.Pairwise (· < ·))
    {claim : IndrabaseClaim} (hok : addIndrabaseClaim h claim s = .ok s') :
    (addedClaims h claim s = [] ∧ s' = s) ∨
    (addedClaims h claim s = [⟨claim, 0⟩] ∧ 0 < h.config.indrabaseCores ∧
      ∃ index, s' = { s with
        indrabaseClaimIndex := index
        indrabaseQueue := ⟨s.indrabaseQueue.queue ++ [⟨⟨claim, 0⟩, s.indrabaseQueue.nextCoreOffset⟩],
          asU32 (s.indrabaseQueue.nextCoreOffset + 1) % h.config.indrabaseCores⟩ }) := by
  rcases addIndrabaseClaim_ok hs hok with rfl | ⟨hlive, hk, hroom, hmem, index, -, -, rfl⟩
  · refine .inl ⟨if_neg ?_, rfl⟩
    rintro ⟨hlive, hroom, hmem⟩
    obtain ⟨i, l, hi, hins, -, -⟩ := binarySearch_of_not_mem hs hmem
    have hk : 0 < h.config.indrabaseCores := Nat.pos_of_ne_zero fun hk => by simp [hk, asU32] at hroom
    unfold addIndrabaseClaim at hok
    simp only [hlive, Bool.not_true, Bool.false_eq_true, if_false, Nat.not_le.mpr hroom, hi, hins,
      IndrabaseClaimQueue.enqueueEntry_of_pos _ _ hk] at hok
    simpa using congrArg (·.indrabaseQueue.queue.length) (Except.ok.inj hok)
  · exact .inr ⟨if_pos ⟨hlive, hroom, hmem⟩, hk, index, rfl⟩

theorem addIndrabaseClaim_claimEntries (hs : s.indrabaseClaimIndex.Pairwise (· < ·))
    {claim : IndrabaseClaim} (hok : addIndrabaseClaim h claim s = .ok s') :
    (claimEntries s').Perm (claimEntries s ++ addedClaims h claim s) := by
  rcases addIndrabaseClaim_added hs hok with ⟨h0, rfl⟩ | ⟨h1, -, index, rfl⟩
  · rw [h0, List.append_nil]
  · rw [h1]
    refine List.perm_iff_count.mpr fun x => ?_
    simp only [claimEntries, List.map_append, List.map_cons, List.map_nil, List.count_append]
    omega

end Calls

namespace Call

/-- The claim entries a call brings in. -/
def claimsIn (h : Host) (s : Scheduler) : Call → List IndrabaseEntry
  | .addIndrabaseClaim claim => addedClaims h claim s
  | .clear => s.scheduled.filterMap (requeueEntry? h)
  | _ => []

/-- The claim entries a call releases. -/
def claimsOut (s : Scheduler) : Call → List IndrabaseEntry
  | .initializerOnNewSession n indras _ => sessionReleased n indras s
  | .freeCores freed | .schedule freed _ => freedClaims .concluded s.availabilityCores freed
  | .clear => s.scheduled.filterMap CoreAssignment.indrabaseEntry?
  | _ => []

/-- What a call brings in: a claim of `add_indrabase_claim`, with no retries, or a scheduled
indrabase entry that `clear` re-queues, with its retries plus one. -/
theorem mem_claimsIn {h : Host} {s : Scheduler} {call : Call} {e : IndrabaseEntry}
    (he : e ∈ call.claimsIn h s) :
    (∃ claim, call = .addIndrabaseClaim claim ∧ e = ⟨claim, 0⟩) ∨
    (call = .clear ∧ ∃ a ∈ s.scheduled, ∃ collator retries,
      a.kind = .indrabase collator retries ∧ e = ⟨⟨a.indraId, collator⟩, asU32 (retries + 1)⟩) := by
  cases call with
  | addIndrabaseClaim claim =>
    simp only [claimsIn, addedClaims] at he
    split_ifs at he
    exacts [.inl ⟨claim, rfl, List.mem_singleton.mp he⟩, absurd he (List.not_mem_nil _)]
  | clear =>
    obtain ⟨a, ha, hq⟩ := List.mem_filterMap.mp he
    unfold requeueEntry? at hq
    split at hq
    · cases hq
    · rename_i collator retries hk
      split_ifs at hq
      exact .inr ⟨rfl, a, ha, collator, retries, hk, (Option.some.inj hq).symm⟩
  | _ => exact absurd he (List.not_mem_nil _)

/-- A call frees each core at most once. -/
def FreesDistinct : Call → Prop
  | .freeCores freed | .schedule freed _ => (freed.map (·.1)).Nodup
  | _ => True

instance (c : Call) : Decidable c.FreesDistinct :=
  match c with
  | .freeCores _ | .schedule .. => inferInstanceAs (Decidable (List.Nodup _))
  | .initializerOnNewSession .. | .addIndrabaseClaim _ | .occupied _ | .clear => isTrue trivial

end Call

/-- The ledger of one call: the entries after it and what it releases are those before
it and what it brings in. -/
theorem claimEntries_step {w w' : Chain} (hr : RunInv w.scheduler) (call : Call)
    (hd : call.FreesDistinct) (happ : call.apply w = .ok w') :
    (claimEntries w'.scheduler ++ call.claimsOut w.scheduler).Perm
      (claimEntries w.scheduler ++ call.claimsIn w.host w.scheduler) := by
  cases call with
  | initializerOnNewSession n i b =>
    cases happ; simpa [Call.claimsIn] using session_claimEntries hr n i b
  | addIndrabaseClaim claim =>
    obtain ⟨s', hok, rfl⟩ := map_eq_ok.mp happ
    simpa [Call.claimsOut] using addIndrabaseClaim_claimEntries hr.index hok
  | freeCores freed =>
    obtain ⟨s', hok, rfl⟩ := map_eq_ok.mp happ
    simpa [Call.claimsIn] using freeCores_claimEntries hd hok
  | schedule freed now =>
    obtain ⟨s', hok, rfl⟩ := map_eq_ok.mp happ
    simpa [Call.claimsIn] using schedule_claimEntries hr hd hok
  | occupied o =>
    obtain ⟨s', hok, rfl⟩ := map_eq_ok.mp happ
    simpa [Call.claimsIn, Call.claimsOut] using occupied_claimEntries hr hok
  | clear => obtain ⟨s', hok, rfl⟩ := map_eq_ok.mp happ; exact clear_claimEntries hok

/-- Entry by entry, on any cores: every entry a call leaves was held before it, or the
call brought it in. -/
theorem mem_claimEntries_step {w w' : Chain} (hr : RunInv w.scheduler) (call : Call)
    (happ : call.apply w = .ok w') {e : IndrabaseEntry} (he : e ∈ claimEntries w'.scheduler) :
    e ∈ claimEntries w.scheduler ∨ e ∈ call.claimsIn w.host w.scheduler := by
  rw [← List.mem_append]
  cases call with
  | initializerOnNewSession n i b =>
    cases happ
    exact List.mem_append_left _ ((session_claimEntries hr n i b).subset (List.mem_append_left _ he))
  | addIndrabaseClaim claim =>
    obtain ⟨s', hok, rfl⟩ := map_eq_ok.mp happ
    exact (addIndrabaseClaim_claimEntries hr.index hok).subset he
  | freeCores freed =>
    obtain ⟨s', hok, rfl⟩ := map_eq_ok.mp happ
    exact List.mem_append_left _ (freeCores_claimEntries_subset hok he)
  | schedule freed now =>
    obtain ⟨s', hok, rfl⟩ := map_eq_ok.mp happ
    obtain ⟨s₁, h₁, hsweep⟩ := schedule_sweep_claimEntries hr hok
    exact List.mem_append_left _ (freeCores_claimEntries_subset h₁ (hsweep.subset he))
  | occupied o =>
    obtain ⟨s', hok, rfl⟩ := map_eq_ok.mp happ
    exact List.mem_append_left _ ((occupied_claimEntries hr hok).subset he)
  | clear =>
    obtain ⟨s', hok, rfl⟩ := map_eq_ok.mp happ
    exact (clear_claimEntries hok).subset (List.mem_append_left _ he)

/-- A run from `w₀` with its ledger: the entries its calls brought in and released. -/
inductive LedgerRun (w₀ : Chain) : Chain → List IndrabaseEntry → List IndrabaseEntry → Prop
  | refl : LedgerRun w₀ w₀ [] []
  | step {w w' : Chain} {brought released : List IndrabaseEntry} (call : Call) :
      LedgerRun w₀ w brought released → call.FreesDistinct → call.apply w = .ok w' →
      LedgerRun w₀ w' (brought ++ call.claimsIn w.host w.scheduler)
        (released ++ call.claimsOut w.scheduler)

theorem LedgerRun.runInv {w₀ w : Chain} {brought released : List IndrabaseEntry}
    (h₀ : RunInv w₀.scheduler) (hw : LedgerRun w₀ w brought released) : RunInv w.scheduler := by
  induction hw with
  | refl => exact h₀
  | step call _ _ happ ih => exact ih.step call happ

/-- **No claim lost or duplicated**: over every run from a state that keeps the run
invariant, the entries held at the end and those released are, as a multiset, the
entries held at the start and those brought in. -/
theorem claim_ledger_balances {w₀ w : Chain} {brought released : List IndrabaseEntry}
    (h₀ : RunInv w₀.scheduler) (hw : LedgerRun w₀ w brought released) :
    (claimEntries w.scheduler ++ released).Perm (claimEntries w₀.scheduler ++ brought) := by
  induction hw with
  | refl => rfl
  | @step w w' brought released call hw hd happ ih =>
    have hstep := claimEntries_step (hw.runInv h₀) call hd happ
    have hswap : List.Perm (claimEntries w'.scheduler ++ (released ++ call.claimsOut w.scheduler))
        (claimEntries w'.scheduler ++ call.claimsOut w.scheduler ++ released) := by
      rw [List.append_assoc]; exact List.perm_append_comm.append_left _
    have hswap₂ : List.Perm
        (claimEntries w.scheduler ++ call.claimsIn w.host w.scheduler ++ released)
        (claimEntries w.scheduler ++ released ++ call.claimsIn w.host w.scheduler) := by
      rw [List.append_assoc, List.append_assoc]; exact List.perm_append_comm.append_left _
    exact hswap.trans <| (hstep.append_right _).trans <| hswap₂.trans <|
      (ih.append_right _).trans (.of_eq (List.append_assoc _ _ _))

theorem claim_ledger_balances_at_block_three :
    RunInv occupiedAtBlockTwo ∧
    LedgerRun ⟨testHost, occupiedAtBlockTwo⟩ ⟨testHost, clearedAtBlockThree⟩ [⟨⟨5, 0⟩, 1⟩]
      [⟨⟨5, 0⟩, 0⟩] ∧
    List.Perm (claimEntries clearedAtBlockThree ++ [⟨⟨5, 0⟩, 0⟩])
      (claimEntries occupiedAtBlockTwo ++ [⟨⟨5, 0⟩, 1⟩]) :=
  have h₀ : RunInv occupiedAtBlockTwo := occupiedAtBlockTwo_reachable.reachable.runInv
  have hrun : LedgerRun ⟨testHost, occupiedAtBlockTwo⟩ ⟨testHost, clearedAtBlockThree⟩
      [⟨⟨5, 0⟩, 1⟩] [⟨⟨5, 0⟩, 0⟩] := .step .clear .refl trivial rfl
  ⟨h₀, hrun, claim_ledger_balances h₀ hrun⟩

/-! ## Retries -/

/-- **Retries within the limit**: in every state of every protocol run, the queued claims
and the indrabase occupants are within the retry limit of the active configuration, and so
are the indrabase assignments in `Scheduled` at every point of a block after its `clear`.
Retries grow only in `clear`: every entry that any call leaves was held before it, with
the same claim and retries, or is new: the claim `add_indrabase_claim` queues, with no
retries, or a scheduled entry `clear` re-queues, with its retries plus one. `free_cores`
of timed-out cores re-queues their occupants unchanged, and a session change keeps every
entry it does not release (`sessionReleased`) unchanged. -/
theorem retries_within_limit {p : Phase} {w : Chain} (hw : ProtocolReachable p w) :
    (∀ e ∈ w.scheduler.indrabaseQueue.queue, e.claim.retries ≤ w.host.config.indrabaseRetries) ∧
    (∀ (c : Nat) e, w.scheduler.availabilityCores[c]? = some (some (CoreOccupied.indrabase e)) →
      e.retries ≤ w.host.config.indrabaseRetries) ∧
    (p ≠ .sessionChanged → ∀ a ∈ w.scheduler.scheduled, ∀ collator retries,
      a.kind = .indrabase collator retries → retries ≤ w.host.config.indrabaseRetries) ∧
    (∀ (call : Call) (w' : Chain), call.apply w = .ok w' → ∀ e ∈ claimEntries w'.scheduler,
      e ∈ claimEntries w.scheduler ∨
      (∃ claim, call = .addIndrabaseClaim claim ∧ e = ⟨claim, 0⟩) ∨
      (call = .clear ∧ ∃ a ∈ w.scheduler.scheduled, ∃ collator retries,
        a.kind = .indrabase collator retries ∧ e = ⟨⟨a.indraId, collator⟩, asU32 (retries + 1)⟩)) ∧
    (∀ (freed : List (Nat × FreedReason)) (s' : Scheduler), (∀ x ∈ freed, x.2 = .timedOut) →
      freeCores w.host freed w.scheduler = .ok s' → (claimEntries s').Perm (claimEntries w.scheduler)) ∧
    (∀ n indras b, (claimEntries (initializerOnNewSession n indras b w.scheduler) ++
      sessionReleased n indras w.scheduler).Perm (claimEntries w.scheduler)) := by
  have hi := hw.entryInv
  have hr := hw.reachable.runInv
  refine ⟨hi.queued, hi.occupants, fun hp a ha collator retries hk => ?_,
    fun call w' happ e he => (mem_claimEntries_step hr call happ he).imp_right Call.mem_claimsIn,
    fun _ _ ht hf => freeCores_timedOut_claimEntries ht hf, session_claimEntries hr⟩
  exact hi.scheduled hp ⟨⟨a.indraId, collator⟩, retries⟩
    (List.mem_filterMap.mpr ⟨a, ha, by simp [CoreAssignment.indrabaseEntry?, hk]⟩)

theorem retries_within_limit_at_block_three :
    ProtocolReachable .cleared ⟨testHost, clearedAtBlockThree⟩ ∧
    (∀ e ∈ clearedAtBlockThree.indrabaseQueue.queue,
      e.claim.retries ≤ testHost.config.indrabaseRetries) ∧
    (∀ (c : Nat) e, clearedAtBlockThree.availabilityCores[c]? =
      some (some (CoreOccupied.indrabase e)) → e.retries ≤ testHost.config.indrabaseRetries) ∧
    (Phase.cleared ≠ .sessionChanged → ∀ a ∈ clearedAtBlockThree.scheduled, ∀ collator retries,
      a.kind = .indrabase collator retries → retries ≤ testHost.config.indrabaseRetries) ∧
    (∀ (call : Call) (w' : Chain), call.apply ⟨testHost, clearedAtBlockThree⟩ = .ok w' →
      ∀ e ∈ claimEntries w'.scheduler, e ∈ claimEntries clearedAtBlockThree ∨
      (∃ claim, call = .addIndrabaseClaim claim ∧ e = ⟨claim, 0⟩) ∨
      (call = .clear ∧ ∃ a ∈ clearedAtBlockThree.scheduled, ∃ collator retries,
        a.kind = .indrabase collator retries ∧ e = ⟨⟨a.indraId, collator⟩, asU32 (retries + 1)⟩)) ∧
    (∀ (freed : List (Nat × FreedReason)) (s' : Scheduler), (∀ x ∈ freed, x.2 = .timedOut) →
      freeCores testHost freed clearedAtBlockThree = .ok s' →
        (claimEntries s').Perm (claimEntries clearedAtBlockThree)) ∧
    (∀ n indras b, (claimEntries (initializerOnNewSession n indras b clearedAtBlockThree) ++
      sessionReleased n indras clearedAtBlockThree).Perm (claimEntries clearedAtBlockThree)) :=
  ⟨clearedAtBlockThree_reachable, retries_within_limit clearedAtBlockThree_reachable⟩

end SelendraScheduler
