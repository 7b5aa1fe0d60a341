import Mathlib.Algebra.Order.Ring.Nat
import Mathlib.Data.List.Basic
import Tikv.Foundation.Fallible

/-!
# Transaction records: timestamps, locks and writes

The data model shared by every reader and every transaction action: the timestamps, the
`Lock` of the lock CF, the `Write` record of the write CF, the `LastChange` pointer that both
carry, and the errors and panics of the MVCC layer.

Keys are a type parameter `K`. The raw and the encoded representation of a user key are in
bijection and compare alike, so one type stands for both; a timestamp is appended to a user
key only inside a column family, where the pair is a key of its own.

Timestamps are natural numbers. `TimeStamp.max` is the largest value the 64-bit type has; the
checked `TimeStamp.next` and `TimeStamp.prev` panic at the ends of the range, as the source
asserts.
-/

namespace Tikv

universe u v

/-! ### Failures -/

/-- The assertions and panic branches of the modelled code. -/
inductive Panic
  /-- `TimeStamp::next` on the largest timestamp. -/
  | timeStampNext
  /-- `TimeStamp::prev` on the zero timestamp. -/
  | timeStampPrev
  /-- `LastChange::make_exist` with a zero timestamp or a zero count. -/
  | makeExist
  /-- The record `last_change_ts` points at is neither a Put nor a Delete. -/
  | lastChangeTarget
  /-- `next_last_change_info` found a record other than a Put. -/
  | lastChangeNotPut
  /-- `assert!(cursor.valid()?)` of a scanner. -/
  | cursorInvalid
  /-- `assert!(self.seek_to_first(..))` and its mirror image in `Cursor`. -/
  | seekToEnd
  /-- `assert_ne!(self.scan_mode, ..)` of `Cursor`. -/
  | scanMode
  /-- `assert!(ts > last_checked_commit_ts)` of `reverse_get`. -/
  | lastCheckedCommitTs
  /-- An `unreachable!()` branch. -/
  | unreachable
  /-- `rollback_lock`: "txn record found but not expected". -/
  | txnRecordFound
  /-- `TxnCommitRecord::unwrap_none` in `check_status_from_lock`. -/
  | unwrapNone
  /-- `make_rollback`: `assert!(start_ts > write.start_ts)`. -/
  | makeRollback
  /-- `mark_rollback_on_mismatching_lock`: `assert_ne!(lock.ts, self.start_ts)`. -/
  | markRollbackOnMismatchingLock
  /-- `check_txn_status_lock_exists`: the status and the released lock come together. -/
  | checkTxnStatusLockExists
  /-- Any other assertion of a transaction action. -/
  | assertion
  deriving DecidableEq

/-! ### Timestamps -/

namespace TimeStamp

/-- `TimeStamp::max()`, the largest 64-bit value. -/
def max : ℕ := 2 ^ 64 - 1

/-- `TSO_PHYSICAL_SHIFT_BITS`. -/
def tsoPhysicalShiftBits : ℕ := 18

/-- The physical part of a timestamp, in milliseconds. -/
def physical (t : ℕ) : ℕ := t / 2 ^ tsoPhysicalShiftBits

/-- The logical part of a timestamp. -/
def logical (t : ℕ) : ℕ := t % 2 ^ tsoPhysicalShiftBits

/-- The timestamp with these parts. -/
def compose (physical logical : ℕ) : ℕ := physical * 2 ^ tsoPhysicalShiftBits + logical

/-- The checked successor. -/
def next (t : ℕ) : Except Panic ℕ :=
  if t < TimeStamp.max then .ok (t + 1) else .error .timeStampNext

/-- The checked predecessor. -/
def prev (t : ℕ) : Except Panic ℕ :=
  if 0 < t then .ok (t - 1) else .error .timeStampPrev

theorem next_eq_ok {t u : ℕ} : next t = .ok u ↔ t < TimeStamp.max ∧ u = t + 1 := by
  rw [next]
  split
  · simp_all [eq_comm]
  · simp_all only [reduceCtorEq, false_and]

theorem prev_eq_ok {t u : ℕ} : prev t = .ok u ↔ 0 < t ∧ u = t - 1 := by
  rw [prev]
  split
  · simp_all [eq_comm]
  · simp_all only [reduceCtorEq, false_and]

end TimeStamp

/-- A set of timestamps (`TsSet`); its three representations differ in speed only. -/
abbrev TsSet := List ℕ

/-- A value is raw bytes. -/
abbrev Value := List UInt8

/-- `SHORT_VALUE_MAX_LEN`. -/
def shortValueMaxLen : ℕ := 255

/-- Whether a value is short enough to be embedded in a lock or write record. -/
def isShortValue (v : Value) : Bool := v.length ≤ shortValueMaxLen

/-! ### The last-change pointer -/

/-- The position of the last actual write (Put or Delete) below a record. -/
inductive LastChange
  | unknown
  | exist (lastChangeTs : ℕ) (estimatedVersionsToLastChange : ℕ)
  | notExist
  deriving DecidableEq, Inhabited

/-- `LastChange::make_exist` with its two assertions. -/
def LastChange.makeExist (lastChangeTs : ℕ) (estimated : ℕ) :
    Except Panic LastChange :=
  if lastChangeTs = 0 ∨ estimated = 0 then .error .makeExist
  else .ok (.exist lastChangeTs estimated)

/-! ### Write records -/

/-- The kind of a write record. -/
inductive WriteType
  | put
  | delete
  | lock
  | rollback
  deriving DecidableEq

/-- Put and Delete change the data; Lock and Rollback do not. -/
def WriteType.isChange : WriteType → Bool
  | .put | .delete => true
  | .lock | .rollback => false

/-- A record of the write CF, stored under the user key and its commit timestamp. -/
structure Write where
  writeType : WriteType
  startTs : ℕ
  shortValue : Option Value := none
  /-- The record also stands for a protected rollback of the transaction whose start
  timestamp is this record's commit timestamp. -/
  hasOverlappedRollback : Bool := false
  /-- Set when the record was rewritten by an overlapping rollback: the commit timestamp of
  the next Put or Delete at that time, or `0` if there was none. -/
  gcFence : Option ℕ := none
  lastChange : LastChange := .unknown
  txnSource : ℕ := 0
  deriving DecidableEq

namespace Write

/-- `PROTECTED_ROLLBACK_SHORT_VALUE`, the byte `p`. -/
def protectedRollbackShortValue : Value := [112]

/-- A Rollback record of the transaction `startTs`. -/
def newRollback (startTs : ℕ) ( isProtected : Bool) : Write where
  writeType := .rollback
  startTs := startTs
  shortValue := if isProtected then some protectedRollbackShortValue else none

/-- Record that a rollback overlaps this record. -/
def setOverlappedRollback (w : Write) (hasOverlappedRollback : Bool)
    (gcFence : Option ℕ) : Write :=
  { w with hasOverlappedRollback := hasOverlappedRollback, gcFence := gcFence }

/-- Whether the record, found as the latest version by a read at `readTs`, is valid: it has
no GC fence, or the fence is newer than the read. -/
def checkGcFenceAsLatestVersion (w : Write) (readTs : ℕ) : Bool :=
  match w.gcFence with
  | some gcFenceTs => !(gcFenceTs != 0 && gcFenceTs ≤ readTs)
  | none => true

/-- Whether a Rollback record is protected from being collapsed. -/
def isProtected (w : Write) : Bool :=
  w.writeType == .rollback && w.shortValue == some protectedRollbackShortValue

end Write

/-! ### Locks -/

/-- The kind of a lock. -/
inductive LockType
  | put
  | delete
  | lock
  | pessimistic
  deriving DecidableEq

/-- `WriteType::from_lock_type`. -/
def WriteType.fromLockType : LockType → Option WriteType
  | .put => some .put
  | .delete => some .delete
  | .lock => some .lock
  | .pessimistic => none

theorem WriteType.fromLockType_ne_rollback {lockType : LockType} {writeType : WriteType}
    (h : fromLockType lockType = some writeType) : writeType ≠ .rollback := by
  cases lockType <;> cases h <;> decide

/-- A record of the lock CF. -/
structure Lock (K : Type) where
  lockType : LockType
  primary : K
  ts : ℕ
  ttl : ℕ := 0
  shortValue : Option Value := none
  /-- Nonzero exactly for the locks of pessimistic transactions. -/
  forUpdateTs : ℕ := 0
  txnSize : ℕ := 0
  minCommitTs : ℕ := 0
  useAsyncCommit : Bool := false
  /-- Only set on locks held in memory. -/
  useOnePc : Bool := false
  secondaries : List K := []
  /-- Start timestamps of protected rollbacks that happened while this lock was held. -/
  rollbackTs : List ℕ := []
  lastChange : LastChange := .unknown
  txnSource : ℕ := 0
  /-- The lock was granted by ignoring a write conflict. -/
  isLockedWithConflict : Bool := false
  generation : ℕ := 0
  deriving DecidableEq

/-- What a client is told about a lock (`kvrpcpb::LockInfo`). -/
structure LockInfo (K : Type) where
  primaryLock : K
  lockVersion : ℕ
  key : K
  lockTtl : ℕ
  txnSize : ℕ
  lockType : LockType
  lockForUpdateTs : ℕ
  useAsyncCommit : Bool
  minCommitTs : ℕ
  secondaries : List K
  deriving DecidableEq

namespace Lock

variable {K : Type}

/-- `Lock::into_lock_info`. -/
def intoLockInfo (l : Lock K) (rawKey : K) : LockInfo K where
  primaryLock := l.primary
  lockVersion := l.ts
  key := rawKey
  lockTtl := l.ttl
  txnSize := l.txnSize
  lockType := l.lockType
  lockForUpdateTs := l.forUpdateTs
  useAsyncCommit := l.useAsyncCommit
  minCommitTs := l.minCommitTs
  secondaries := l.secondaries

/-- The lock belongs to a pessimistic transaction. -/
def isPessimisticTxn (l : Lock K) : Bool := l.forUpdateTs != 0

/-- The lock has not been prewritten yet. -/
def isPessimisticLock (l : Lock K) : Bool := l.lockType == .pessimistic

/-- A pessimistic lock granted by ignoring a write conflict. -/
def isPessimisticLockWithConflict (l : Lock K) : Bool :=
  l.isPessimisticLock && l.isLockedWithConflict

end Lock

/-! ### Errors -/

/-- Why two writes conflict. -/
inductive WriteConflictReason
  | optimistic
  | pessimisticRetry
  | selfRolledBack
  | rcCheckTs
  | lazyUniquenessCheck
  deriving DecidableEq

/-- Why a pessimistic lock was expected and not found. -/
inductive PessimisticLockNotFoundReason
  | lockTsMismatch
  | lockMissingAmendFail
  | lockForUpdateTsMismatch
  | nonLockKeyConflict
  deriving DecidableEq

/-- A condition a client asserts about the existence of a key. -/
inductive Assertion
  | none
  | exist
  | notExist
  deriving DecidableEq

/-- The errors of the MVCC layer, with the fields each reports. `primary` is absent where the
source reports an empty primary. -/
inductive ErrorInner (K : Type)
  | keyIsLocked (info : LockInfo K)
  | writeConflict (startTs conflictStartTs conflictCommitTs : ℕ) (key : K)
      (primary : Option K) (reason : WriteConflictReason)
  | defaultNotFound (key : K) (startTs : ℕ)
  | committed (startTs commitTs : ℕ) (key : K)
  | pessimisticLockRolledBack (startTs : ℕ) (key : K)
  | txnLockNotFound (startTs commitTs : ℕ) (key : K)
  | txnNotFound (startTs : ℕ) (key : K)
  | lockTypeNotMatch (startTs : ℕ) (key : K) (pessimistic : Bool)
  | alreadyExist (key : K) (existingStartTs : ℕ)
  | commitTsExpired (startTs commitTs : ℕ) (key : K) (minCommitTs : ℕ)
  | commitTsTooLarge (startTs minCommitTs maxCommitTs : ℕ)
  | pessimisticLockNotFound (startTs : ℕ) (key : K)
      (reason : PessimisticLockNotFoundReason)
  | lockIfExistsFailed (startTs : ℕ) (key : K)
  | primaryMismatch (info : LockInfo K)
  | assertionFailed (startTs : ℕ) (key : K) (assertion : Assertion)
      (existingStartTs existingCommitTs : ℕ)
  | invalidTxnTso (startTs commitTs : ℕ)
  | checkNotExistsInPessimisticPrewrite
  | generationOutOfOrder (generation : ℕ) (key : K) (lock : Lock K)
  /-- "generation should be greater than 0 for Flush requests" -/
  | flushGenerationZero

/-- A modelled call that does not return normally fails with an error or panics. The fuel of
a modelled loop can also run out; the entry points supply enough, so they never do. -/
inductive Fault (K : Type)
  | error (e : ErrorInner K)
  | panic (p : Panic)
  | outOfFuel

/-- Results of modelled calls. -/
abbrev Res (K : Type) (α : Type) := Except (Fault K) α

/-- Run a computation that can only panic. -/
def liftPanic {K : Type} {α : Type} : Except Panic α → Res K α
  | .ok a => .ok a
  | .error p => .error (.panic p)

@[simp] theorem liftPanic_ok {K : Type} {α : Type} (a : α) :
    (liftPanic (.ok a) : Res K α) = .ok a := rfl

theorem liftPanic_eq_ok {K : Type} {α : Type} {x : Except Panic α} {a : α} :
    (liftPanic x : Res K α) = .ok a ↔ x = .ok a := by
  rcases x with p | b <;> simp [liftPanic]

/-! ### Conflicts between a lock and a read -/

/-- The isolation level of a read. -/
inductive IsolationLevel
  | si
  | rc
  | rcCheckTs
  deriving DecidableEq

/-- Whether a read at this level looks at locks. -/
def needCheckLocks : IsolationLevel → Bool
  | .si | .rcCheckTs => true
  | .rc => false

namespace Lock

variable {K : Type} [DecidableEq K]

/-- Whether the lock blocks a snapshot-isolation read of `key` at `ts`. -/
def checkTsConflictSi (l : Lock K) (key : K) (ts : ℕ) (bypassLocks : TsSet)
    (isReplicaRead : Bool) : Except (ErrorInner K) Unit :=
  if l.ts > ts ∨ l.lockType = .lock ∨ l.isPessimisticLock then
    -- The transaction began later, or the lock will not change the data.
    .ok ()
  else if l.minCommitTs > ts then
    .ok ()
  else if l.ts ∈ bypassLocks then
    .ok ()
  else if ts = TimeStamp.max ∧ isReplicaRead then
    .error (.keyIsLocked (l.intoLockInfo key))
  else if ts = TimeStamp.max ∧ key = l.primary ∧ !l.useAsyncCommit ∧ !l.useOnePc then
    -- A read of the latest version ignores the lock of the primary key.
    .ok ()
  else
    .error (.keyIsLocked (l.intoLockInfo key))

/-- Whether the lock blocks a read of `key` under `RcCheckTs`. -/
def checkTsConflictRcCheckTs (l : Lock K) (key : K) (ts : ℕ)
    (bypassLocks : TsSet) : Except (ErrorInner K) Unit :=
  if l.lockType = .lock ∨ l.isPessimisticLock then
    .ok ()
  else if l.ts ∈ bypassLocks then
    .ok ()
  else
    .error (.writeConflict ts l.ts 0 key (some l.primary) .rcCheckTs)

/-- `Lock::check_ts_conflict`. -/
def checkTsConflict (l : Lock K) (key : K) (ts : ℕ) (bypassLocks : TsSet) :
    IsolationLevel → Except (ErrorInner K) Unit
  | .si => l.checkTsConflictSi key ts bypassLocks false
  | .rcCheckTs => l.checkTsConflictRcCheckTs key ts bypassLocks
  | .rc => .ok ()

theorem lockType_of_checkTsConflictSi {l : Lock K} {key : K} {ts : ℕ}
    {bypassLocks : TsSet} {r : Bool} {e : ErrorInner K}
    (h : l.checkTsConflictSi key ts bypassLocks r = .error e) :
    l.lockType = .put ∨ l.lockType = .delete := by
  unfold checkTsConflictSi at h
  split at h
  · cases h
  · rename_i hn
    cases ht : l.lockType <;> simp [ht, isPessimisticLock] at hn ⊢

end Lock

end Tikv
