import SelendraScheduler.Schedule

/-!
# SelendraScheduler.Lookahead

The queries downstream code asks about cores: `core_indra`, which names the indra on an
occupied core, and the two lookaheads `next_up_on_available` and `next_up_on_time_out`,
which predict what `schedule` will put on an occupied core once it is freed.
-/

namespace SelendraScheduler

/-- `core_indra`: the indra on a core, if occupied.  An indracore occupant is named by
indexing the indracore list with the core index, which panics past its end. -/
def coreIndra (h : Host) (s : Scheduler) (coreIndex : Nat) : Except Panic (Option Nat) :=
  match s.availabilityCores[coreIndex]? with
  | none | some none => .ok none
  | some (some .indracore) =>
    match h.indras.indracores[coreIndex]? with
    | some indraId => .ok (some indraId)
    | none => .error (.indexOutOfBounds coreIndex h.indras.indracores.length)
  | some (some (.indrabase entry)) => .ok (some entry.claim.indraId)

/-- The `ScheduledCore` of a queued or occupying indrabase entry. -/
def IndrabaseEntry.toScheduledCore (entry : IndrabaseEntry) : ScheduledCore :=
  ⟨entry.claim.indraId, some entry.claim.collator⟩

/-- `next_up_on_available`: an indracore core always gets its indracore back; a
multiplexer core gets the next claim queued on its offset, if any. -/
def nextUpOnAvailable (h : Host) (s : Scheduler) (core : Nat) : Option ScheduledCore :=
  let indracores := h.indras.indracores
  if hc : core < indracores.length then some ⟨indracores[core], none⟩
  else
    let coreOffset := asU32 (core - indracores.length)
    (s.indrabaseQueue.getNextOnCore coreOffset).map IndrabaseEntry.toScheduledCore

/-- The fallback of `next_up_on_time_out`: the claim occupying the core, `None` for an
empty core and, defensively, for an indracore occupant. -/
def occupyingClaim (s : Scheduler) (core : Nat) : Option ScheduledCore :=
  match s.availabilityCores[core]? with
  | some (some (.indrabase entry)) => some entry.toScheduledCore
  | _ => none

/-- `next_up_on_time_out`: as `next_up_on_available`, but a multiplexer core with nothing
queued on its offset falls back to the claim occupying it. -/
def nextUpOnTimeOut (h : Host) (s : Scheduler) (core : Nat) : Option ScheduledCore :=
  let indracores := h.indras.indracores
  if hc : core < indracores.length then some ⟨indracores[core], none⟩
  else
    let coreOffset := asU32 (core - indracores.length)
    ((s.indrabaseQueue.getNextOnCore coreOffset).map IndrabaseEntry.toScheduledCore).or
      (occupyingClaim s core)

end SelendraScheduler
