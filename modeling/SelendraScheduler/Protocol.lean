import SelendraScheduler.Session
import SelendraScheduler.Lookahead

/-!
# SelendraScheduler.Protocol

The scheduler as a state machine.  A `Chain` is the scheduler's storage together with
its collaborators; a `Call` is one entry point with its arguments.  Three notions of run:

* `Reachable`: any finite sequence of calls from the empty storage, `occupied` being
  given what its documentation requires (a strictly increasing list of scheduled cores);
* `ProtocolReachable`: runs of the block protocol of the inclusion inherent and the
  initializer.  Each block runs `clear`, then `schedule` at or after the session start,
  then `occupied`; `add_indrabase_claim` may come at any point; a session change comes
  only at the end of a block, and it alone changes the configuration and the registry;
* `SessionReachable`: the protocol runs that have passed a session change.

`runProtocol` executes a list of calls; the counterexamples replay concrete runs with it.
-/

namespace SelendraScheduler

/-- The storage and the collaborators it is read with. -/
structure Chain where
  host : Host
  scheduler : Scheduler

/-- An entry point with its arguments.  A session change brings the new validators and
configuration, the registry as the `indras` pallet has just updated it, and the block
number. -/
inductive Call where
  | initializerOnNewSession (notification : SessionChangeNotification) (indras : Indras)
      (blockNumber : Nat)
  | addIndrabaseClaim (claim : IndrabaseClaim)
  | freeCores (justFreedCores : List (Nat × FreedReason))
  | schedule (justFreedCores : List (Nat × FreedReason)) (now : Nat)
  | occupied (nowOccupied : List Nat)
  | clear

namespace Call

/-- Run one call.  A panic is an error: the call has no successor state. -/
def apply (w : Chain) : Call → Except Panic Chain
  | .initializerOnNewSession notification indras blockNumber =>
    .ok ⟨⟨notification.newConfig, indras⟩,
      SelendraScheduler.initializerOnNewSession notification indras blockNumber w.scheduler⟩
  | .addIndrabaseClaim claim =>
    (⟨w.host, ·⟩) <$> SelendraScheduler.addIndrabaseClaim w.host claim w.scheduler
  | .freeCores justFreedCores =>
    (⟨w.host, ·⟩) <$> SelendraScheduler.freeCores w.host justFreedCores w.scheduler
  | .schedule justFreedCores now =>
    (⟨w.host, ·⟩) <$> SelendraScheduler.schedule w.host justFreedCores now w.scheduler
  | .occupied nowOccupied => (⟨w.host, ·⟩) <$> SelendraScheduler.occupied nowOccupied w.scheduler
  | .clear => (⟨w.host, ·⟩) <$> SelendraScheduler.clear w.host w.scheduler

/-- The caller contract of `occupied`: a strictly increasing list of cores that are in
`Scheduled`. -/
def Admissible : Call → Scheduler → Prop
  | .occupied nowOccupied, s => nowOccupied.Pairwise (· < ·) ∧ ∀ c ∈ nowOccupied, c ∈ s.scheduledCores
  | _, _ => True

instance (c : Call) (s : Scheduler) : Decidable (c.Admissible s) :=
  match c with
  | .occupied _ => inferInstanceAs (Decidable (_ ∧ _))
  | .initializerOnNewSession .. | .addIndrabaseClaim _ | .freeCores _ | .schedule .. | .clear =>
    isTrue trivial

/-- The protocol schedules at or after the session start (`group_assigned_to_core`'s
contract). -/
def Timely : Call → Scheduler → Prop
  | .schedule _ now, s => s.sessionStartBlock ≤ now
  | _, _ => True

instance (c : Call) (s : Scheduler) : Decidable (c.Timely s) :=
  match c with
  | .schedule _ _ => inferInstanceAs (Decidable (_ ≤ _))
  | .initializerOnNewSession .. | .addIndrabaseClaim _ | .freeCores _ | .occupied _ | .clear =>
    isTrue trivial

end Call

/-- The states of any finite sequence of calls from the empty storage. -/
inductive Reachable : Chain → Prop
  | init (host : Host) : Reachable ⟨host, .empty⟩
  | step {w w' : Chain} (c : Call) :
      Reachable w → c.Admissible w.scheduler → c.apply w = .ok w' → Reachable w'

/-- Where a run of the block protocol stands. -/
inductive Phase where
  /-- After a block's `occupied`, or before the first block. -/
  | blockEnd
  /-- After the session change at the end of a block. -/
  | sessionChanged
  /-- After a block's `clear`. -/
  | cleared
  /-- After a block's `schedule`. -/
  | scheduled
  deriving Repr, DecidableEq

/-- The block protocol: the calls allowed in each phase, and the phase each leads to. -/
def Phase.next : Phase → Call → Option Phase
  | p, .addIndrabaseClaim _ => some p
  | .blockEnd, .initializerOnNewSession .. => some .sessionChanged
  | .blockEnd, .clear => some .cleared
  | .sessionChanged, .clear => some .cleared
  | .cleared, .schedule .. => some .scheduled
  | .scheduled, .occupied _ => some .blockEnd
  | _, _ => none

/-- The protocol's moves: a claim in any phase, or the next step of the block. -/
theorem Phase.next_cases {p p' : Phase} {c : Call} (h : p.next c = some p') :
    (∃ claim, c = .addIndrabaseClaim claim ∧ p' = p) ∨
    (∃ n i b, c = .initializerOnNewSession n i b ∧ p = .blockEnd ∧ p' = .sessionChanged) ∨
    (c = .clear ∧ (p = .blockEnd ∨ p = .sessionChanged) ∧ p' = .cleared) ∨
    (∃ freed now, c = .schedule freed now ∧ p = .cleared ∧ p' = .scheduled) ∨
    (∃ o, c = .occupied o ∧ p = .scheduled ∧ p' = .blockEnd) := by
  cases c with
  | addIndrabaseClaim claim => cases p <;> cases h <;> exact .inl ⟨claim, rfl, rfl⟩
  | initializerOnNewSession n i b =>
    cases p <;> cases h
    exact .inr (.inl ⟨n, i, b, rfl, rfl, rfl⟩)
  | clear =>
    cases p <;> cases h
    · exact .inr (.inr (.inl ⟨rfl, .inl rfl, rfl⟩))
    · exact .inr (.inr (.inl ⟨rfl, .inr rfl, rfl⟩))
  | schedule freed now =>
    cases p <;> cases h
    exact .inr (.inr (.inr (.inl ⟨freed, now, rfl, rfl, rfl⟩)))
  | occupied o =>
    cases p <;> cases h
    exact .inr (.inr (.inr (.inr ⟨o, rfl, rfl, rfl⟩)))
  | freeCores _ => cases p <;> cases h

/-- The states of the runs of the block protocol from the empty storage. -/
inductive ProtocolReachable : Phase → Chain → Prop
  | init (host : Host) : ProtocolReachable .blockEnd ⟨host, .empty⟩
  | step {p p' : Phase} {w w' : Chain} (c : Call) :
      ProtocolReachable p w → p.next c = some p' → c.Admissible w.scheduler →
        c.Timely w.scheduler → c.apply w = .ok w' → ProtocolReachable p' w'

/-- A protocol run is a run. -/
theorem ProtocolReachable.reachable {p : Phase} {w : Chain} (h : ProtocolReachable p w) :
    Reachable w := by
  induction h with
  | init host => exact .init host
  | step c _ _ ha _ happ ih => exact .step c ih ha happ

/-- The states of the protocol runs that have passed a session change: a session change
at the end of a block of a protocol run, then the protocol's steps. -/
inductive SessionReachable : Phase → Chain → Prop
  | session {w w' : Chain} (notification : SessionChangeNotification) (indras : Indras)
      (blockNumber : Nat) : ProtocolReachable .blockEnd w →
      (Call.initializerOnNewSession notification indras blockNumber).apply w = .ok w' →
      SessionReachable .sessionChanged w'
  | step {p p' : Phase} {w w' : Chain} (c : Call) :
      SessionReachable p w → p.next c = some p' → c.Admissible w.scheduler →
        c.Timely w.scheduler → c.apply w = .ok w' → SessionReachable p' w'

/-- A run past a session change is a protocol run. -/
theorem SessionReachable.protocolReachable {p : Phase} {w : Chain} (h : SessionReachable p w) :
    ProtocolReachable p w := by
  induction h with
  | session n i b hw happ =>
    exact .step (.initializerOnNewSession n i b) hw rfl trivial trivial happ
  | step c _ hn ha ht happ ih => exact .step c ih hn ha ht happ

/-- Execute a list of calls under the block protocol; `none` when a call is not allowed
or panics. -/
def runProtocol : Phase → Chain → List Call → Option (Phase × Chain)
  | p, w, [] => some (p, w)
  | p, w, c :: cs =>
    match p.next c with
    | none => none
    | some p' =>
      if c.Admissible w.scheduler ∧ c.Timely w.scheduler then
        match c.apply w with
        | .ok w' => runProtocol p' w' cs
        | .error _ => none
      else none

theorem runProtocol_reachable {p p' : Phase} {w w' : Chain} {cs : List Call}
    (hr : ProtocolReachable p w) (h : runProtocol p w cs = some (p', w')) :
    ProtocolReachable p' w' := by
  induction cs generalizing p w with
  | nil => simp only [runProtocol, Option.some.injEq, Prod.mk.injEq] at h; exact h.1 ▸ h.2 ▸ hr
  | cons c cs ih =>
    simp only [runProtocol] at h
    split at h
    · cases h
    · rename_i p₁ hp
      split at h
      · rename_i hc
        split at h
        · rename_i w₁ happ
          exact ih (.step c hr hp hc.1 hc.2 happ) h
        · cases h
      · cases h

theorem runProtocol_sessionReachable {p p' : Phase} {w w' : Chain} {cs : List Call}
    (hr : SessionReachable p w) (h : runProtocol p w cs = some (p', w')) :
    SessionReachable p' w' := by
  induction cs generalizing p w with
  | nil => simp only [runProtocol, Option.some.injEq, Prod.mk.injEq] at h; exact h.1 ▸ h.2 ▸ hr
  | cons c cs ih =>
    simp only [runProtocol] at h
    split at h
    · cases h
    · rename_i p₁ hp
      split at h
      · rename_i hc
        split at h
        · rename_i w₁ happ
          exact ih (.step c hr hp hc.1 hc.2 happ) h
        · cases h
      · cases h

/-! ## The tests' setting

The witnesses of the run theorems start from the setting of the pallet's tests: the
configuration `default_config()`, and the registry and calls of `schedule_schedules`. -/

/-- `default_config()` of the pallet's tests. -/
def defaultConfig : HostConfiguration := ⟨3, 10, 3, 5, 2, 1, none⟩

/-- The registry of `schedule_schedules`: indracores `1` and `2`, indrabases `3`, `4` and
`5`. -/
def testHost : Host := ⟨defaultConfig, ⟨[1, 2], fun i => i == 3 || i == 4 || i == 5⟩⟩

/-- The registry of `indrabase_claims_are_pruned_after_retries`: indrabases `1` and `2`. -/
def prunedHost : Host := ⟨defaultConfig, ⟨[], fun i => i == 1 || i == 2⟩⟩

/-- A block as `run_to_block` drives it, with no candidate backed. -/
def idleBlock (now : Nat) : List Call := [.clear, .schedule [] now, .occupied []]

/-- `schedule_schedules` up to block 2, as `run_to_block` drives it: a session of five
validators, block 1, the claims of indrabases `3` and `5`, block 2. -/
def scheduleSchedules : List Call :=
  [.initializerOnNewSession ⟨[0, 1, 2, 3, 4], defaultConfig⟩ testHost.indras 0,
   .clear, .schedule [] 1, .occupied [],
   .addIndrabaseClaim ⟨3, 0⟩, .addIndrabaseClaim ⟨5, 0⟩,
   .clear, .schedule [] 2]

/-- `Scheduled` at block 2 of `schedule_schedules`, as the test asserts it: the two
indracores on cores 0 and 1, the two claims on cores 2 and 3, each core with its own
group. -/
def scheduledAtBlockTwo : Scheduler :=
  ⟨[[0], [1], [2], [3], [4]], ⟨[], 2⟩, [none, none, none, none, none], [3, 5], 1,
    [⟨0, 1, .indracore, 0⟩, ⟨1, 2, .indracore, 1⟩, ⟨2, 3, .indrabase 0 0, 2⟩,
     ⟨3, 5, .indrabase 0 0, 3⟩]⟩

theorem scheduledAtBlockTwo_reachable :
    ProtocolReachable .scheduled ⟨testHost, scheduledAtBlockTwo⟩ :=
  runProtocol_reachable (.init testHost) (show runProtocol .blockEnd _ scheduleSchedules = _ from rfl)

/-- The end of block 2 when its inclusion occupies cores 0 and 2. -/
def occupiedAtBlockTwo : Scheduler :=
  ⟨[[0], [1], [2], [3], [4]], ⟨[], 2⟩,
    [some .indracore, none, some (.indrabase ⟨⟨3, 0⟩, 0⟩), none, none], [3, 5], 1,
    [⟨1, 2, .indracore, 1⟩, ⟨3, 5, .indrabase 0 0, 3⟩]⟩

theorem occupiedAtBlockTwo_reachable :
    ProtocolReachable .blockEnd ⟨testHost, occupiedAtBlockTwo⟩ :=
  runProtocol_reachable scheduledAtBlockTwo_reachable (show runProtocol _ _ [.occupied [0, 2]] = _ from rfl)

/-- The `clear` of block 3 after `occupiedAtBlockTwo`: the claim of indrabase `5` goes back
to the queue with one retry, on offset `2`. -/
def clearedAtBlockThree : Scheduler :=
  { occupiedAtBlockTwo with scheduled := [], indrabaseQueue := ⟨[⟨⟨⟨5, 0⟩, 1⟩, 2⟩], 0⟩ }

theorem clearedAtBlockThree_reachable :
    ProtocolReachable .cleared ⟨testHost, clearedAtBlockThree⟩ :=
  runProtocol_reachable occupiedAtBlockTwo_reachable (show runProtocol _ _ [.clear] = _ from rfl)

end SelendraScheduler
