import SelendraScheduler.Storage

/-!
# SelendraScheduler.Session

`initializer_on_new_session`, which the initializer calls once per session change, at
the end of a block:

1. the core count `n_cores = max(n_indracores + indrabase_cores, validators / max_per_core)`;
2. every occupant is taken out of its core (indrabase occupants are queued again) and
   the core vector is resized;
3. the validators are cut into `n_cores` contiguous groups, the larger ones first;
4. the claim queue is wiped when there are no indrabase cores, and otherwise pruned
   (retries over the limit, or no longer an indrabase) and re-balanced by position;
5. the session start is the next block.

Each step is a named function, with the lemmas the run invariants use.  `Scheduled` is
not touched: the next block's `clear` empties it.
-/

namespace SelendraScheduler

/-- `n_cores`: one core per indracore and indrabase multiplexer, or more when the
validators exceed `max_validators_per_core` per core. -/
def nCores (nIndracores : Nat) (config : HostConfiguration) (nValidators : Nat) : Nat :=
  max (asU32 (nIndracores + config.indrabaseCores))
    (match config.maxValidatorsPerCore with
      | some x => if x ≠ 0 then asU32 nValidators / x else 0
      | none => 0)

/-- The core count is a `u32`. -/
theorem nCores_lt (n : Nat) (config : HostConfiguration) (v : Nat) :
    nCores n config v < 2 ^ 32 := by
  have h1 := asU32_lt (n + config.indrabaseCores)
  have h2 := asU32_lt v
  unfold nCores
  split
  · split
    · exact max_lt h1 (lt_of_le_of_lt (Nat.div_le_self _ _) h2)
    · exact max_lt h1 (by omega)
  · exact max_lt h1 (by omega)

/-- "shuffle validators into groups": `validators mod n_cores` groups of
`validators / n_cores + 1` validator indices, then groups of `validators / n_cores`, all
contiguous. -/
def partitionValidators (nValidators nCores : Nat) : List (List Nat) :=
  let groupBaseSize := nValidators / nCores
  let nLargerGroups := nValidators % nCores
  (List.range nLargerGroups).map (fun i =>
      (List.range (groupBaseSize + 1)).map fun j => asU32 ((groupBaseSize + 1) * i + j)) ++
    (List.range (nCores - nLargerGroups)).map (fun i =>
      (List.range groupBaseSize).map fun j =>
        asU32 (nLargerGroups * (groupBaseSize + 1) + i * groupBaseSize + j))

@[simp] theorem length_partitionValidators (v n : Nat) (h : 0 < n) :
    (partitionValidators v n).length = n := by
  have : v % n < n := Nat.mod_lt _ h
  simp [partitionValidators]; omega

/-- The claims of the indrabase occupants, in core order, each on offset `0` until the
re-balancing. -/
def occupiedClaims (cores : List (Option CoreOccupied)) : List QueuedIndrabase :=
  cores.filterMap fun c =>
    match c with
    | some (.indrabase claim) => some ⟨claim, 0⟩
    | _ => none

/-- `will_keep` of the pruning: within the retry limit and still a live indrabase. -/
def willKeep (config : HostConfiguration) (isIndrabase : Nat → Bool)
    (queued : QueuedIndrabase) : Bool :=
  decide (queued.claim.retries ≤ config.indrabaseRetries) &&
    isIndrabase queued.claim.claim.indraId

/-- The `retain` of the pruning: keep the entries `willKeep` accepts, and remove the id
of every other one from the claim index. -/
def pruneQueue (config : HostConfiguration) (isIndrabase : Nat → Bool) :
    List QueuedIndrabase → List Nat → List QueuedIndrabase × List Nat
  | [], claimIndex => ([], claimIndex)
  | queued :: rest, claimIndex =>
    let keep := willKeep config isIndrabase queued
    let claimIndex :=
      if keep then claimIndex else removeFromIndex claimIndex queued.claim.claim.indraId
    let (kept, claimIndex) := pruneQueue config isIndrabase rest claimIndex
    (if keep then queued :: kept else kept, claimIndex)

/-- "do re-balancing of claims": each entry's offset is its position modulo the indrabase
core count, and so is the next offset. -/
def rebalance (queue : List QueuedIndrabase) (indrabaseCores : Nat) : IndrabaseClaimQueue :=
  { queue := queue.enum.map fun (i, queued) => { queued with coreOffset := asU32 i % indrabaseCores }
    nextCoreOffset := asU32 queue.length % indrabaseCores }

/-- `initializer_on_new_session`, given the session change, the registry of indras as
the `indras` pallet has just updated it, and the current block number. -/
def initializerOnNewSession (notification : SessionChangeNotification) (indras : Indras)
    (blockNumber : Nat) (s : Scheduler) : Scheduler :=
  let config := notification.newConfig
  let n := nCores indras.indracores.length config notification.validators.length
  let threadQueue := s.indrabaseQueue.queue ++ occupiedClaims s.availabilityCores
  let (indrabaseQueue, indrabaseClaimIndex) :=
    if config.indrabaseCores = 0 then (IndrabaseClaimQueue.empty, [])
    else
      let (kept, claimIndex) :=
        pruneQueue config indras.isIndrabase threadQueue s.indrabaseClaimIndex
      (rebalance kept config.indrabaseCores, claimIndex)
  { s with
    availabilityCores := vecResize (s.availabilityCores.map fun _ => none) n none
    validatorGroups :=
      if n = 0 ∨ notification.validators.isEmpty then []
      else partitionValidators notification.validators.length n
    indrabaseQueue
    indrabaseClaimIndex
    sessionStartBlock := blockNumber + 1 }

end SelendraScheduler
