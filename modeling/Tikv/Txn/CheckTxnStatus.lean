import Tikv.Txn.KeyState

/-!
# Resolving transactions

The commands that decide the fate of a transaction on a key: `CheckTxnStatus` on its primary
key, `CheckSecondaryLocks` on a secondary key of an async-commit transaction, `Cleanup` and
`Rollback`. Each of them first looks for a lock of the transaction on the key, and otherwise
for the transaction's record in the write CF.
-/

namespace Tikv

open TimeStamp

variable {K : Type}

/-- The status of a transaction. -/
inductive TxnStatus (K : Type)
  | rolledBack
  | ttlExpire
  | lockNotExist
  | uncommitted (lock : Lock K) (minCommitTsPushed : Bool)
  | committed (commitTs : ℕ)
  | pessimisticRollBack
  | lockNotExistDoNothing

/-- The statuses that tell the caller that the transaction is rolled back. -/
def TxnStatus.isRolledBack : TxnStatus K → Bool
  | .rolledBack | .ttlExpire | .lockNotExist => true
  | _ => false

/-- Whether the TTL of the lock has passed. The sum is one of 64-bit integers. -/
def Lock.isExpired (lock : Lock K) (currentTs : ℕ) : Bool :=
  (physical lock.ts + lock.ttl) % 2 ^ 64 < physical currentTs

/-- What to do about a transaction of which nothing is found. -/
inductive MissingLockAction
  | rollback
  | protectedRollback
  | returnError
  deriving DecidableEq

namespace MissingLockAction

/-- `MissingLockAction::rollback_protect`. -/
def rollbackProtect (protectRollback : Bool) : MissingLockAction :=
  if protectRollback then .protectedRollback else .rollback

/-- `MissingLockAction::rollback`. -/
def ofRollbackIfNotExist (rollbackIfNotExist : Bool) : MissingLockAction :=
  if rollbackIfNotExist then .protectedRollback else .returnError

/-- `MissingLockAction::collapse_rollback`. -/
def collapseRollback : MissingLockAction → Res K Bool
  | .rollback => .ok true
  | .protectedRollback => .ok false
  | .returnError => .error (.panic .unreachable)

/-- `MissingLockAction::construct_write`. -/
def constructWrite (action : MissingLockAction) (ts : ℕ)
    (overlappedWrite : Option OverlappedWrite) : Res K (Option Write) := do
  makeRollback ts (!(← action.collapseRollback)) overlappedWrite

end MissingLockAction

/-! ### The actions -/

section Actions

variable (reader : SnapshotReader K)

/-- `check_determined_txn_status` of `check_txn_status.rs`. -/
def checkDeterminedTxnStatus : Option (TxnStatus K) :=
  match reader.getTxnCommitRecord with
  | .singleRecord commitTs write =>
    if write.writeType = .rollback then some .rolledBack else some (.committed commitTs)
  | .overlappedRollback _ => some .rolledBack
  | .none _ => none

/-- `check_txn_status_missing_lock`. -/
def checkTxnStatusMissingLock (mismatchLock : Option (Lock K)) (action : MissingLockAction)
    (resolvingPessimisticLock : Bool) : Res K (List (Modify K) × TxnStatus K) := do
  match reader.getTxnCommitRecord with
  | .singleRecord commitTs write =>
    return ([], if write.writeType = .rollback then .rolledBack else .committed commitTs)
  | .overlappedRollback _ => return ([], .rolledBack)
  | .none overlappedWrite =>
    if action = .returnError then
      .error (.error (.txnNotFound reader.startTs reader.key))
    else if resolvingPessimisticLock then return ([], .lockNotExistDoNothing)
    else
      let collapseRollback ← action.collapseRollback
      let collapse := if collapseRollback then collapsePrevRollback reader else []
      let mark ← (match mismatchLock, overlappedWrite with
        | some lock, none =>
          markRollbackOnMismatchingLock reader.startTs lock (action = .protectedRollback)
        | _, _ => .ok [])
      let write ← action.constructWrite reader.startTs overlappedWrite
      return (collapse ++ mark ++ write.toList.map (.putWrite reader.startTs), .lockNotExist)

variable [DecidableEq K] (lock : Lock K)

/-- `check_txn_status_from_pessimistic_primary_lock`. -/
def checkTxnStatusFromPessimisticPrimaryLock (currentTs : ℕ) (resolvingPessimisticLock : Bool) :
    Res K (List (Modify K) × Option (TxnStatus K) × Option (ReleasedLock K)) := do
  let released : ReleasedLock K := ⟨reader.startTs, 0, reader.key, true⟩
  if ¬ lock.isPessimisticLock then .error (.panic .checkTxnStatusLockExists)
  else
    -- A lock granted with a conflict may be stale.
    let stale :=
      if lock.isPessimisticLockWithConflict then checkDeterminedTxnStatus reader else none
    match stale with
    | some txnStatus => return ([.deleteLock], some txnStatus, some released)
    | none =>
      if lock.isExpired currentTs then
        if resolvingPessimisticLock then
          return ([.deleteLock], some .pessimisticRollBack, some released)
        else
          let (modifies, released) ← rollbackLock reader lock true true
          return (modifies, some .ttlExpire, some released)
      else return ([], none, none)

/-- The request of `CheckTxnStatus`. -/
structure CheckTxnStatus where
  lockTs : ℕ
  callerStartTs : ℕ
  currentTs : ℕ
  rollbackIfNotExist : Bool
  forceSyncCommit : Bool
  resolvingPessimisticLock : Bool
  verifyIsPrimary : Bool

/-- The last part of `check_txn_status_lock_exists`: push `min_commit_ts` of a live lock beyond
the caller, so that the lock no longer blocks it. -/
def pushMinCommitTs (request : CheckTxnStatus) : Res K (List (Modify K) × TxnStatus K) := do
  let pushed := decide (lock.minCommitTs ≠ 0 ∧ request.callerStartTs ≠ max ∧
    lock.minCommitTs ≤ request.callerStartTs)
  let lock' : Lock K ← (if pushed then do
      let next ← liftPanic (next request.callerStartTs)
      pure { lock with minCommitTs := max next request.currentTs }
    else pure lock)
  let minCommitTsPushed := decide
    (request.callerStartTs ≠ 0 ∧ request.callerStartTs < lock'.minCommitTs ∨
      request.callerStartTs = max)
  return (if pushed then [.putLock lock'] else [], .uncommitted lock' minCommitTsPushed)

/-- `check_txn_status_lock_exists`. -/
def checkTxnStatusLockExists (request : CheckTxnStatus) :
    Res K (List (Modify K) × TxnStatus K × Option (ReleasedLock K)) := do
  let uncommitted : Res K (List (Modify K) × TxnStatus K × Option (ReleasedLock K)) := do
    let (modifies, txnStatus) ← pushMinCommitTs lock request
    return (modifies, txnStatus, none)
  if request.verifyIsPrimary ∧ reader.key ≠ lock.primary then
    if !request.resolvingPessimisticLock ∧ lock.isPessimisticLock then
      -- The lock is not the primary's; the transaction is checked as if it were not there.
      let (modifies, txnStatus) ← checkTxnStatusMissingLock reader none
        (.ofRollbackIfNotExist request.rollbackIfNotExist) request.resolvingPessimisticLock
      return (modifies ++ [.deleteLock], txnStatus,
        some ⟨reader.startTs, 0, reader.key, true⟩)
    else .error (.error (.primaryMismatch (lock.intoLockInfo reader.key)))
  else if lock.useAsyncCommit ∧ !request.forceSyncCommit then
    return ([], .uncommitted lock false, none)
  else if lock.isPessimisticLock then
    match ← checkTxnStatusFromPessimisticPrimaryLock reader lock request.currentTs
        request.resolvingPessimisticLock with
    | (modifies, some txnStatus, some released) => return (modifies, txnStatus, some released)
    | (_, none, none) => uncommitted
    | _ => .error (.panic .checkTxnStatusLockExists)
  else if lock.isExpired request.currentTs then
    let (modifies, released) ← rollbackLock reader lock lock.isPessimisticTxn true
    return (modifies, .ttlExpire, some released)
  else uncommitted

/-- `cleanup`. -/
def cleanup (currentTs : ℕ) (protectRollback : Bool) :
    Res K (List (Modify K) × Option (ReleasedLock K)) := do
  let missing : Res K (List (Modify K) × Option (ReleasedLock K)) := do
    match ← checkTxnStatusMissingLock reader reader.lock
        (.rollbackProtect protectRollback) false with
    | (_, .committed commitTs) =>
      .error (.error (.committed reader.startTs commitTs reader.key))
    | (modifies, .rolledBack) => return (modifies, none)
    | (modifies, .lockNotExist) => return (modifies, none)
    | _ => .error (.panic .unreachable)
  match reader.lock with
  | some lock =>
    if lock.ts = reader.startTs then
      if currentTs ≠ 0 ∧ !lock.isExpired currentTs then
        .error (.error (.keyIsLocked (lock.intoLockInfo reader.key)))
      else
        let (modifies, released) ← rollbackLock reader lock lock.isPessimisticTxn (!protectRollback)
        return (modifies, some released)
    else missing
  | none => missing

/-! ### Secondary locks -/

/-- What is known about a secondary lock. -/
inductive SecondaryLockStatus (K : Type)
  | locked (lock : Lock K)
  | committed (commitTs : ℕ)
  | rolledBack

/-- `check_determined_txn_status` of `check_secondary_locks.rs`: the status, whether a rollback
record has to be written, and the record it overlaps. -/
def checkDeterminedSecondaryStatus : SecondaryLockStatus K × Bool × Option OverlappedWrite :=
  match reader.getTxnCommitRecord with
  | .singleRecord commitTs write =>
    (if write.writeType ≠ .rollback then .committed commitTs else .rolledBack, false, none)
  | .overlappedRollback _ => (.rolledBack, false, none)
  | .none overlappedWrite => (.rolledBack, true, overlappedWrite)

/-- `TxnCommitRecord::unwrap_none`. -/
def TxnCommitRecord.unwrapNone : TxnCommitRecord → Res K (Option OverlappedWrite)
  | .none overlappedWrite => .ok overlappedWrite
  | _ => .error (.panic .unwrapNone)

/-- `check_status_from_lock`: also whether the lock is released. -/
def checkStatusFromLock : Res K (SecondaryLockStatus K × Bool × Option OverlappedWrite × Bool) := do
  let (status, needRollback, overlappedWrite) := checkDeterminedSecondaryStatus reader
  if lock.isPessimisticLockWithConflict ∧ !needRollback then
    -- The lock is stale.
    return (status, false, overlappedWrite, true)
  else if lock.isPessimisticLock then
    let overlappedWrite ← (if lock.isPessimisticLockWithConflict then pure overlappedWrite
      else reader.getTxnCommitRecord.unwrapNone)
    return (.rolledBack, true, overlappedWrite, true)
  else return (.locked lock, false, none, false)

/-- The protected rollback `CheckSecondaryLocks` writes. -/
def rollbackSecondary (mismatchLock : Option (Lock K)) (overlappedWrite : Option OverlappedWrite) :
    Res K (List (Modify K)) := do
  let mark ← (match mismatchLock with
    | some lock => markRollbackOnMismatchingLock reader.startTs lock true
    | none => .ok [])
  match ← makeRollback reader.startTs true overlappedWrite with
  | some write => return mark ++ [.putWrite reader.startTs write] ++ collapsePrevRollback reader
  | none => return mark

/-- One iteration of `CheckSecondaryLocks::process_write`. -/
def checkSecondaryLock : Res K (List (Modify K) × SecondaryLockStatus K) := do
  let missing : Res K (List (Modify K) × SecondaryLockStatus K) := do
    let (status, needRollback, overlappedWrite) := checkDeterminedSecondaryStatus reader
    let modifies ← (if needRollback then rollbackSecondary reader reader.lock overlappedWrite
      else pure [])
    return (modifies, status)
  match reader.lock with
  | some lock =>
    if lock.ts = reader.startTs then
      let (status, needRollback, overlappedWrite, released) ← checkStatusFromLock reader lock
      let modifies ← (if needRollback then rollbackSecondary reader none overlappedWrite
        else pure [])
      return ((if released then [.deleteLock] else []) ++ modifies, status)
    else missing
  | none => missing

end Actions

end Tikv
