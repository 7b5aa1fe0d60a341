import Tikv.Txn.AcquirePessimisticLock
import Tikv.Txn.CheckTxnStatus
import Tikv.Txn.Prewrite

/-!
# The commands on a key

`step` runs one command of some transaction on the key: it returns the reply and the state
after the command's modifications have been applied. A command that fails leaves the column
families as they were, but `max_ts` may have grown. Besides the commands there is one event of
the environment: `max_ts` grows because some other key is read.
-/

namespace Tikv

variable {K : Type}

/-- `commit`. -/
def commit (reader : SnapshotReader K) (commitTs : ℕ) :
    Res K (List (Modify K) × Option (ReleasedLock K)) := do
  let missing : Res K (List (Modify K) × Option (ReleasedLock K)) :=
    match reader.getTxnCommitRecord.info with
    | some (_, .rollback) | none =>
      .error (.error (.txnLockNotFound reader.startTs commitTs reader.key))
    -- Committed already.
    | some (_, .put) | some (_, .delete) | some (_, .lock) => .ok ([], none)
  match reader.lock with
  | some lock =>
    if lock.ts = reader.startTs then
      if commitTs < lock.minCommitTs then
        .error (.error (.commitTsExpired reader.startTs commitTs reader.key lock.minCommitTs))
      else if lock.isPessimisticLock then
        -- A stale pessimistic lock; the transaction has committed without it.
        return ([.deleteLock], some ⟨reader.startTs, 0, reader.key, lock.isPessimisticTxn⟩)
      else
        let write ← lock.commitRecord reader.startTs
        let write := if commitTs ∈ lock.rollbackTs then write.setOverlappedRollback true none
          else write
        return ([.putWrite commitTs write, .deleteLock],
          some ⟨reader.startTs, commitTs, reader.key, lock.isPessimisticTxn⟩)
    else missing
  | none => missing

/-- The action of `PessimisticRollback` on a key. -/
def pessimisticRollback (reader : SnapshotReader K) (forUpdateTs : ℕ) :
    List (Modify K) × Option (ReleasedLock K) :=
  match reader.lock with
  | some lock =>
    if lock.isPessimisticLock ∧ lock.ts = reader.startTs ∧ lock.forUpdateTs ≤ forUpdateTs then
      ([.deleteLock], some ⟨reader.startTs, 0, reader.key, true⟩)
    else ([], none)
  | none => ([], none)

/-- The commands on a key, and the growth of `max_ts` by reads of other keys. -/
inductive Op (K : Type)
  | prewrite (request : Prewrite K)
  | acquirePessimisticLock (request : AcquirePessimisticLock K)
  | pessimisticRollback (startTs forUpdateTs : ℕ)
  | commit (lockTs commitTs : ℕ)
  | cleanup (startTs currentTs : ℕ)
  | rollback (startTs : ℕ)
  | checkTxnStatus (request : CheckTxnStatus)
  | checkSecondaryLocks (startTs : ℕ)
  | updateMaxTs (ts : ℕ)

/-- The replies of the commands. -/
inductive Reply (K : Type)
  | done
  | prewriteResult (result : PrewriteResult)
  | pessimisticLock (result : PessimisticLockKeyResult) (oldValue : OldValue)
  | txnStatus (status : TxnStatus K)
  | secondaryLock (status : SecondaryLockStatus K)

namespace KeyState

/-- Apply the modifications of an action that succeeds. -/
def finish {α : Type} (st : KeyState K) (reply : α → Reply K)
    (res : Res K (List (Modify K) × α)) : Res K (Reply K) × KeyState K :=
  match res with
  | .ok (modifies, a) => (.ok (reply a), st.applyAll modifies)
  | .error fault => (.error fault, st)

/-- The timestamp `CheckTxnStatus` moves `max_ts` to. -/
def newMaxTs (request : CheckTxnStatus) : ℕ :=
  let newMaxTs := request.lockTs
  let newMaxTs := if request.currentTs ≠ TimeStamp.max ∧ newMaxTs < request.currentTs
    then request.currentTs else newMaxTs
  if request.callerStartTs ≠ TimeStamp.max ∧ newMaxTs < request.callerStartTs
  then request.callerStartTs else newMaxTs

variable [DecidableEq K] (key : K)

/-- `CheckTxnStatus::process_write`. -/
def checkTxnStatus (st : KeyState K) (request : CheckTxnStatus) :
    Res K (List (Modify K) × TxnStatus K) :=
  let reader := st.reader key request.lockTs
  let missing := checkTxnStatusMissingLock reader reader.lock
    (.ofRollbackIfNotExist request.rollbackIfNotExist) request.resolvingPessimisticLock
  match reader.lock with
  | some lock =>
    if lock.ts = request.lockTs then do
      let (modifies, txnStatus, _) ← checkTxnStatusLockExists reader lock request
      return (modifies, txnStatus)
    else missing
  | none => missing

/-- One command on the key. -/
def step (st : KeyState K) : Op K → Res K (Reply K) × KeyState K
  | .prewrite request =>
    let (res, st) := request.processWrite key st
    (.prewriteResult <$> res, st)
  | .acquirePessimisticLock request =>
    let (res, st) := request.processWrite key st
    ((fun x => .pessimisticLock x.1 x.2) <$> res, st)
  | .pessimisticRollback startTs forUpdateTs =>
    st.finish (fun _ => .done) (.ok (Tikv.pessimisticRollback (st.reader key startTs) forUpdateTs))
  | .commit lockTs commitTs =>
    if commitTs ≤ lockTs then (.error (.error (.invalidTxnTso lockTs commitTs)), st)
    else st.finish (fun _ => .done) (Tikv.commit (st.reader key lockTs) commitTs)
  | .cleanup startTs currentTs =>
    -- A commit must not overwrite the protected rollback.
    let st := st.updateMaxTs startTs
    st.finish (fun _ => .done) (Tikv.cleanup (st.reader key startTs) currentTs true)
  | .rollback startTs =>
    st.finish (fun _ => .done) (Tikv.cleanup (st.reader key startTs) 0 false)
  | .checkTxnStatus request =>
    let st := st.updateMaxTs (newMaxTs request)
    st.finish .txnStatus (st.checkTxnStatus key request)
  | .checkSecondaryLocks startTs =>
    let st := st.updateMaxTs startTs
    st.finish .secondaryLock (checkSecondaryLock (st.reader key startTs))
  | .updateMaxTs ts => (.ok .done, st.updateMaxTs ts)

end KeyState

end Tikv
