import SelendraScheduler.Rotation

/-!
# SelendraScheduler.Schedule

The per-block entry points that move claims between the queue, `Scheduled` and the
cores:

* `add_indrabase_claim` queues a claim unless it is dead, the queue is full, or the
  indrabase already has one;
* `free_cores` empties cores, re-queuing timed-out indrabase claims unchanged and
  releasing concluded ones from the claim index;
* `schedule` frees cores, then sweeps the free cores in ascending order beside a cursor
  over the sorted `Scheduled`, assigns every free core that has no assignment yet, and
  merges the new assignments in by inserting each at its position in the old list plus
  the number of insertions before it;
* `occupied` moves the given assignments from `Scheduled` into their cores;
* `clear` empties `Scheduled`, re-queuing its indrabase claims with one more retry.
-/

namespace SelendraScheduler

/-- `add_indrabase_claim`. -/
def addIndrabaseClaim (h : Host) (claim : IndrabaseClaim) (s : Scheduler) :
    Except Panic Scheduler :=
  if !h.indras.isIndrabase claim.indraId then .ok s
  else
    let queueMaxSize := asU32 (h.config.indrabaseCores * h.config.schedulingLookahead)
    if queueMaxSize ≤ s.indrabaseQueue.queue.length then .ok s
    else
      match binarySearch s.indrabaseClaimIndex claim.indraId with
      | .ok _ => .ok s
      | .error i => do
        let indrabaseClaimIndex ← vecInsert s.indrabaseClaimIndex i claim.indraId
        let indrabaseQueue ← s.indrabaseQueue.enqueueEntry ⟨claim, 0⟩ h.config.indrabaseCores
        return { s with indrabaseClaimIndex, indrabaseQueue }

/-- One freed core of `free_cores`.  An index past the cores is ignored. -/
def freeCore (h : Host) (s : Scheduler) : Nat × FreedReason → Except Panic Scheduler
  | (freedIndex, freedReason) =>
    match s.availabilityCores[freedIndex]? with
    | none | some none => .ok s
    | some (some .indracore) =>
      .ok { s with availabilityCores := s.availabilityCores.set freedIndex none }
    | some (some (.indrabase entry)) =>
      let s := { s with availabilityCores := s.availabilityCores.set freedIndex none }
      match freedReason with
      | .concluded =>
        .ok { s with
          indrabaseClaimIndex := removeFromIndex s.indrabaseClaimIndex entry.claim.indraId }
      | .timedOut => do
        let indrabaseQueue ← s.indrabaseQueue.enqueueEntry entry h.config.indrabaseCores
        return { s with indrabaseQueue }

/-- `free_cores`. -/
def freeCores (h : Host) (justFreedCores : List (Nat × FreedReason)) (s : Scheduler) :
    Except Panic Scheduler :=
  justFreedCores.foldlM (freeCore h) s

/-! ## `schedule` -/

/-- The message of `schedule`'s `expect` on `group_assigned_to_core`. -/
def groupExpectMsg : String :=
  "core is not out of bounds and we are guaranteed to be after the most recent session start; qed"

/-- The indices of the unoccupied cores, ascending. -/
def freeCoreIndices (cores : List (Option CoreOccupied)) : List Nat :=
  (cores.enum.filter fun entry => entry.2.isNone).map (·.1)

/-- Where the sweep inserts an assignment for `coreIndex`, given the cursor over the
enumerated `Scheduled` advanced past the smaller cores: `None` when the first remaining
entry is on this core, otherwise its position, or the end. -/
def insertPosition (scheduledLen coreIndex : Nat) (cursor : List (Nat × CoreAssignment)) :
    Option Nat :=
  match cursor.head? with
  | none => some scheduledLen
  | some (idxInScheduled, assign) => if assign.core = coreIndex then none else some idxInScheduled

/-- The assignment of a free core without one: its indracore, or the next claim queued on
its offset among the multiplexer cores; with the group `group_assigned_to_core` gives. -/
def assignCore (h : Host) (s : Scheduler) (now coreIndex : Nat) (queue : IndrabaseClaimQueue) :
    Except Panic (IndrabaseClaimQueue × Option CoreAssignment) :=
  let indracores := h.indras.indracores
  let core := asU32 coreIndex
  if hc : coreIndex < indracores.length then do
    let groupIdx ← groupAssignedToCore h s core now >>= (expect · groupExpectMsg)
    return (queue, some ⟨core, indracores[coreIndex], .indracore, groupIdx⟩)
  else
    let coreOffset := asU32 (coreIndex - indracores.length)
    match queue.takeNextOnCore coreOffset with
    | (queue, none) => .ok (queue, none)
    | (queue, some entry) => do
      let groupIdx ← groupAssignedToCore h s core now >>= (expect · groupExpectMsg)
      return (queue, some ⟨core, entry.claim.indraId,
        .indrabase entry.claim.collator entry.retries, groupIdx⟩)

/-- The first loop of `schedule`: the sweep over the free cores, which returns the queue
and the updates `(position in the old Scheduled, assignment)` in core order. -/
def scheduleSweep (h : Host) (s : Scheduler) (now scheduledLen : Nat) :
    List (Nat × CoreAssignment) → IndrabaseClaimQueue → List Nat →
      Except Panic (IndrabaseClaimQueue × List (Nat × CoreAssignment))
  | _, queue, [] => .ok (queue, [])
  | cursor, queue, coreIndex :: rest =>
    let cursor := cursor.dropWhile fun entry => entry.2.core < coreIndex
    match insertPosition scheduledLen coreIndex cursor with
    | none => scheduleSweep h s now scheduledLen cursor queue rest
    | some insertAt => do
      let (queue, assignment) ← assignCore h s now coreIndex queue
      let (queue, updates) ← scheduleSweep h s now scheduledLen cursor queue rest
      return (queue, match assignment with
        | some a => (insertAt, a) :: updates
        | none => updates)

/-- The second loop of `schedule`: each update is inserted at its position plus the
number of insertions before it. -/
def insertUpdates : Nat → List (Nat × CoreAssignment) → List CoreAssignment →
    Except Panic (List CoreAssignment)
  | _, [], scheduled => .ok scheduled
  | numInsertionsBefore, (insertAt, toInsert) :: rest, scheduled => do
    let scheduled ← vecInsert scheduled (numInsertionsBefore + insertAt) toInsert
    insertUpdates (numInsertionsBefore + 1) rest scheduled

/-- `schedule`. -/
def schedule (h : Host) (justFreedCores : List (Nat × FreedReason)) (now : Nat)
    (s : Scheduler) : Except Panic Scheduler := do
  let s ← freeCores h justFreedCores s
  if s.validatorGroups.isEmpty then return s
  let (indrabaseQueue, updates) ←
    scheduleSweep h s now s.scheduled.length s.scheduled.enum s.indrabaseQueue
      (freeCoreIndices s.availabilityCores)
  let scheduled ← insertUpdates 0 updates s.scheduled
  return { s with scheduled, indrabaseQueue }

/-! ## `occupied` and `clear` -/

/-- The `retain` of `occupied`, with the peekable iterator over the occupied cores: an
assignment on the next occupied core leaves `Scheduled` and is installed in its core
(indexing the cores panics past their end). -/
def occupiedRetain : List Nat → List CoreAssignment → List (Option CoreOccupied) →
    Except Panic (List CoreAssignment × List (Option CoreOccupied))
  | _, [], cores => .ok ([], cores)
  | occupiedIter, assignment :: rest, cores =>
    if occupiedIter.head? = some assignment.core then
      if assignment.core < cores.length then
        occupiedRetain occupiedIter.tail rest
          (cores.set assignment.core (some assignment.toCoreOccupied))
      else .error (.indexOutOfBounds assignment.core cores.length)
    else do
      let (kept, cores) ← occupiedRetain occupiedIter rest cores
      return (assignment :: kept, cores)

/-- `occupied`. -/
def occupied (nowOccupied : List Nat) (s : Scheduler) : Except Panic Scheduler :=
  if nowOccupied.isEmpty then .ok s
  else do
    let (scheduled, availabilityCores) ←
      occupiedRetain nowOccupied s.scheduled s.availabilityCores
    return { s with scheduled, availabilityCores }

/-- The body of `clear`'s loop: an indrabase assignment whose indra is still an indrabase
goes back into the queue with one more retry, unless that exceeds the retry limit. -/
def requeue (h : Host) (queue : IndrabaseClaimQueue) (coreAssignment : CoreAssignment) :
    Except Panic IndrabaseClaimQueue :=
  match coreAssignment.kind with
  | .indracore => .ok queue
  | .indrabase collator retries =>
    if !h.indras.isIndrabase coreAssignment.indraId then .ok queue
    else
      let entry : IndrabaseEntry := ⟨⟨coreAssignment.indraId, collator⟩, asU32 (retries + 1)⟩
      if entry.retries ≤ h.config.indrabaseRetries then
        queue.enqueueEntry entry h.config.indrabaseCores
      else .ok queue

/-- `clear`: take `Scheduled` and re-queue its indrabase claims. -/
def clear (h : Host) (s : Scheduler) : Except Panic Scheduler := do
  let indrabaseQueue ← s.scheduled.foldlM (requeue h) s.indrabaseQueue
  return { s with scheduled := [], indrabaseQueue }

end SelendraScheduler
