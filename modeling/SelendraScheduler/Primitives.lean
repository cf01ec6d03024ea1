import Mathlib.Data.List.Basic
import Mathlib.Algebra.Group.Nat.Basic

/-!
# SelendraScheduler.Primitives

The values the scheduler pallet (`indracore/runtime/src/scheduler/mod.rs`) reads from
`primitives::v2` and from its collaborators, and the two pieces of Rust semantics the
pallet relies on: `u32` casts and arithmetic, and panics.

* Identifiers and indices (`Id`, `CollatorId`, `CoreIndex`, `GroupIndex`,
  `ValidatorIndex`) and block numbers are `Nat`; ids are only compared.  Where the
  pallet casts a `usize` to `u32`, or adds or multiplies `u32`s, the model applies
  `asU32`, the wrapping arithmetic of a release build.  `usize` is 64 bits wide, so
  `usize` arithmetic never wraps on the values here.
* A panic is an `Except Panic` error carrying what the standard library reports.  Every
  entry point that can panic returns `Except Panic _`; a panicking call has no successor
  state (the block is invalid).
* The configuration and the registry of indras are external: only the fields the
  scheduler reads are kept.
-/

namespace SelendraScheduler

/-! ## `u32` arithmetic -/

/-- `x as u32`, and the wrapping `u32` addition and multiplication of a release build. -/
def asU32 (n : Nat) : Nat := n % 2 ^ 32

@[simp] theorem asU32_of_lt {n : Nat} (h : n < 2 ^ 32) : asU32 n = n := Nat.mod_eq_of_lt h

theorem asU32_lt (n : Nat) : asU32 n < 2 ^ 32 := Nat.mod_lt _ (by decide)

theorem asU32_le (n : Nat) : asU32 n ≤ n := Nat.mod_le _ _

/-! ## Panics -/

/-- A Rust panic, with what the standard library reports for it. -/
inductive Panic where
  /-- `Option::expect` on `None`, with the message the pallet passes. -/
  | expect (msg : String)
  /-- `attempt to divide by zero`. -/
  | divideByZero
  /-- `attempt to calculate the remainder with a divisor of zero`. -/
  | remainderByZero
  /-- `index out of bounds`, with the index and the length. -/
  | indexOutOfBounds (index len : Nat)
  /-- `Vec::insert` past the end, with the index and the length. -/
  | insertionIndexOutOfBounds (index len : Nat)
  deriving Repr, DecidableEq

theorem bind_eq_ok {ε α β : Type} {e : Except ε α} {f : α → Except ε β} {b : β} :
    e >>= f = .ok b ↔ ∃ a, e = .ok a ∧ f a = .ok b := by
  cases e <;> simp [bind, Except.bind]

theorem map_eq_ok {ε α β : Type} {e : Except ε α} {f : α → β} {b : β} :
    f <$> e = .ok b ↔ ∃ a, e = .ok a ∧ f a = b := by
  cases e <;> simp [Functor.map, Except.map]

/-- Unsigned `a / b`. -/
def checkedDiv (a b : Nat) : Except Panic Nat :=
  if b = 0 then .error .divideByZero else .ok (a / b)

/-- Unsigned `a % b`. -/
def checkedRem (a b : Nat) : Except Panic Nat :=
  if b = 0 then .error .remainderByZero else .ok (a % b)

@[simp] theorem checkedDiv_of_pos {a b : Nat} (h : 0 < b) : checkedDiv a b = .ok (a / b) := by
  simp [checkedDiv, Nat.pos_iff_ne_zero.mp h]

@[simp] theorem checkedRem_of_pos {a b : Nat} (h : 0 < b) : checkedRem a b = .ok (a % b) := by
  simp [checkedRem, Nat.pos_iff_ne_zero.mp h]

/-- `Option::expect`. -/
def expect (o : Option α) (msg : String) : Except Panic α :=
  match o with
  | some a => .ok a
  | none => .error (.expect msg)

/-- `Vec::insert`: the elements from `index` on move one place right. -/
def vecInsert (v : List α) (index : Nat) (element : α) : Except Panic (List α) :=
  if index ≤ v.length then .ok (v.take index ++ element :: v.drop index)
  else .error (.insertionIndexOutOfBounds index v.length)

/-- `Vec::resize`: truncate, or extend with copies of `value`. -/
def vecResize (v : List α) (newLen : Nat) (value : α) : List α :=
  v.take newLen ++ List.replicate (newLen - v.length) value

@[simp] theorem length_vecResize (v : List α) (n : Nat) (a : α) :
    (vecResize v n a).length = n := by
  simp [vecResize]; omega

/-! ## `primitives::v2` -/

/-- `IndrabaseClaim(Id, CollatorId)`: a collator's claim to author the next block of an
indrabase. -/
structure IndrabaseClaim where
  /-- The indrabase's `Id`. -/
  indraId : Nat
  /-- The `CollatorId` required to author the block. -/
  collator : Nat
  deriving Repr, DecidableEq

/-- `IndrabaseEntry`: a claim and how many times it has been retried. -/
structure IndrabaseEntry where
  claim : IndrabaseClaim
  retries : Nat
  deriving Repr, DecidableEq

/-- `CoreOccupied`: what occupies an availability core.  An indracore occupant does not
carry its id; the core's index names it. -/
inductive CoreOccupied where
  | indracore
  | indrabase (entry : IndrabaseEntry)
  deriving Repr, DecidableEq

/-- `ScheduledCore`: what the lookahead expects to be scheduled on a core next. -/
structure ScheduledCore where
  indraId : Nat
  collator : Option Nat
  deriving Repr, DecidableEq

/-- `GroupRotationInfo`: what downstream code needs to recompute group rotations. -/
structure GroupRotationInfo where
  sessionStartBlock : Nat
  now : Nat
  groupRotationFrequency : Nat
  deriving Repr, DecidableEq

/-! ## Collaborators -/

/-- The fields of `configuration::HostConfiguration` that the scheduler reads. -/
structure HostConfiguration where
  indrabaseCores : Nat
  groupRotationFrequency : Nat
  chainAvailabilityPeriod : Nat
  threadAvailabilityPeriod : Nat
  schedulingLookahead : Nat
  indrabaseRetries : Nat
  maxValidatorsPerCore : Option Nat
  deriving Repr, DecidableEq

/-- What the scheduler reads of the `indras` pallet: the registered indracores in order
(`indracores()`) and whether an id is a live indrabase (`is_indrabase`). -/
structure Indras where
  indracores : List Nat
  isIndrabase : Nat → Bool

/-- `initializer::SessionChangeNotification`: the new validator list, already shuffled,
and the configuration of the new session. -/
structure SessionChangeNotification where
  validators : List Nat
  newConfig : HostConfiguration

/-- The collaborators every entry point reads: the active configuration
(`configuration::Pallet::config()`) and the registry of indras. -/
structure Host where
  config : HostConfiguration
  indras : Indras

end SelendraScheduler
