import SelendraScheduler.ClaimQueue

/-!
# SelendraScheduler.Storage

The scheduler pallet's own types (`FreedReason`, `AssignmentKind`, `CoreAssignment`) and
its storage, as one record `Scheduler` that each entry point reads whole and returns
whole (the pallet's `StorageValue`s are read and written as whole values).

The record has no invariant fields: the claims are about which records the entry points
can reach, so the invariants are stated over runs (`SelendraScheduler.Protocol`), not
built into the type.
-/

namespace SelendraScheduler

/-- `FreedReason`: why a core was freed. -/
inductive FreedReason where
  /-- The core's candidate became available. -/
  | concluded
  /-- The core's candidate timed out. -/
  | timedOut
  deriving Repr, DecidableEq

/-- `AssignmentKind`. -/
inductive AssignmentKind where
  | indracore
  /-- An indrabase, with its required collator and retry count. -/
  | indrabase (collator : Nat) (retries : Nat)
  deriving Repr, DecidableEq

/-- `CoreAssignment`: how a free core is scheduled to be assigned. -/
structure CoreAssignment where
  core : Nat
  indraId : Nat
  kind : AssignmentKind
  groupIdx : Nat
  deriving Repr, DecidableEq

namespace CoreAssignment

/-- `required_collator`. -/
def requiredCollator (self : CoreAssignment) : Option Nat :=
  match self.kind with
  | .indracore => none
  | .indrabase collator _ => some collator

/-- `to_core_occupied`. -/
def toCoreOccupied (self : CoreAssignment) : CoreOccupied :=
  match self.kind with
  | .indracore => .indracore
  | .indrabase collator retries => .indrabase ⟨⟨self.indraId, collator⟩, retries⟩

/-- The `ScheduledCore` an assignment stands for: its indra and required collator. -/
def toScheduledCore (self : CoreAssignment) : ScheduledCore :=
  ⟨self.indraId, self.requiredCollator⟩

end CoreAssignment

/-- The pallet's storage.  `scheduled` is documented as sorted ascending by core index. -/
structure Scheduler where
  /-- `ValidatorGroups`: one group of validator indices per core. -/
  validatorGroups : List (List Nat)
  /-- `IndrabaseQueue`. -/
  indrabaseQueue : IndrabaseClaimQueue
  /-- `AvailabilityCores`: what occupies each core, if anything. -/
  availabilityCores : List (Option CoreOccupied)
  /-- `IndrabaseClaimIndex`: the ids with an outstanding claim, sorted. -/
  indrabaseClaimIndex : List Nat
  /-- `SessionStartBlock`. -/
  sessionStartBlock : Nat
  /-- `Scheduled`: the cores scheduled but not yet occupied. -/
  scheduled : List CoreAssignment
  deriving Repr, DecidableEq

namespace Scheduler

/-- Every storage value at its `ValueQuery` default: the state before the first
session. -/
def empty : Scheduler := ⟨[], .empty, [], [], 0, []⟩

/-- The core indices of `Scheduled`, in order. -/
def scheduledCores (s : Scheduler) : List Nat := s.scheduled.map (·.core)

/-- Whether core `c` holds an occupant (`Some` in `AvailabilityCores`). -/
def isOccupied (s : Scheduler) (c : Nat) : Bool :=
  match s.availabilityCores[c]? with
  | some (some _) => true
  | _ => false

theorem lt_of_isOccupied {s : Scheduler} {c : Nat} (h : s.isOccupied c = true) :
    c < s.availabilityCores.length := by
  unfold isOccupied at h
  split at h
  · rename_i ho; exact (List.getElem?_eq_some_iff.mp ho).1
  · cases h

end Scheduler

end SelendraScheduler
