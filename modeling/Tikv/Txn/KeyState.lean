import Tikv.Concurrency.Manager
import Tikv.Mvcc.SnapshotReader

/-!
# The state of a key and the modifications of a transaction

A transaction command works on the keys of its request one by one. What it does to one key
depends on that key's lock, its versions, and `max_ts`; so the state of the system, seen from
one key, is a `KeyState`. A command reads a snapshot of it through a `SnapshotReader` and
collects `Modify` operations, which are applied together when the command succeeds.

This file also has the actions that several commands share: `next_last_change_info`,
`check_data_constraint`, and the writing of rollback records. The last one is described once,
by `rollbackTo`: a rollback leaves every record in place except the one at the start timestamp
of the transaction and at most one unprotected Rollback record.
-/

namespace Tikv

variable {K : Type}

/-- The column families of one key, and `max_ts` of the concurrency manager. -/
structure KeyState (K : Type) where
  lock : Option (Lock K) := none
  write : Versions Write := ∅
  default : Versions Value := ∅
  maxTs : ℕ := 0

/-- A modification of the key. -/
inductive Modify (K : Type)
  | putLock (lock : Lock K)
  | deleteLock
  | putValue (ts : ℕ) (value : Value)
  | deleteValue (ts : ℕ)
  | putWrite (ts : ℕ) (write : Write)
  | deleteWrite (ts : ℕ)

namespace KeyState

/-- A reader of the key for the transaction `startTs`. -/
def reader (key : K) (st : KeyState K) (startTs : ℕ) : SnapshotReader K where
  key := key
  startTs := startTs
  lock := st.lock
  write := st.write
  default := st.default

variable (st : KeyState K)

/-- `ConcurrencyManager::update_max_ts`. -/
def updateMaxTs (ts : ℕ) : KeyState K :=
  { st with maxTs := Tikv.updateMaxTs st.maxTs ts }

/-- Apply one modification. -/
def apply : Modify K → KeyState K
  | .putLock lock => { st with lock := some lock }
  | .deleteLock => { st with lock := none }
  | .putValue ts value => { st with default := st.default.insert ts value }
  | .deleteValue ts => { st with default := st.default.erase ts }
  | .putWrite ts write => { st with write := st.write.insert ts write }
  | .deleteWrite ts => { st with write := st.write.erase ts }

/-- Apply the modifications of a command, in order. -/
def applyAll (modifies : List (Modify K)) : KeyState K :=
  modifies.foldl apply st

@[simp] theorem applyAll_nil : st.applyAll [] = st := rfl

@[simp] theorem applyAll_cons (x : Modify K) (xs : List (Modify K)) :
    st.applyAll (x :: xs) = (st.apply x).applyAll xs := rfl

theorem applyAll_append (xs ys : List (Modify K)) :
    st.applyAll (xs ++ ys) = (st.applyAll xs).applyAll ys := List.foldl_append

@[simp] theorem maxTs_applyAll (xs : List (Modify K)) : (st.applyAll xs).maxTs = st.maxTs := by
  induction xs generalizing st with
  | nil => rfl
  | cons x xs ih =>
    rw [applyAll_cons, ih]
    cases x <;> rfl

end KeyState

/-- What the lock manager is told about a lock that was released. -/
structure ReleasedLock (K : Type) where
  startTs : ℕ
  commitTs : ℕ
  key : K
  pessimistic : Bool

/-! ### The last change of a key -/

/-- What the environment of a command decides: whether the cluster version allows
`last_change`, and how many `next` steps the search for a last change takes. -/
structure Env where
  lastChangeTs : Bool := true
  nexts : ℕ := 0

/-- `next_last_change_info`: the pointer of a lock taken above the record at `commitTs`. -/
def nextLastChangeInfo (reader : SnapshotReader K) (env : Env) (write : Write) (commitTs : ℕ) :
    Res K LastChange :=
  match write.writeType with
  | .put | .delete => liftPanic (LastChange.makeExist commitTs 1)
  | .lock | .rollback =>
    match write.lastChange with
    | .exist lastChangeTs estimated => liftPanic (LastChange.makeExist lastChangeTs (estimated + 1))
    | .notExist => .ok .notExist
    | .unknown => do
      -- The record does not know; search the last change.
      match ← reader.getWriteWithCommitTs commitTs with
      | none => return .notExist
      | some (w, lastChangeTs) =>
        if w.writeType = .put then liftPanic (LastChange.makeExist lastChangeTs (env.nexts + 1))
        else .error (.panic .lastChangeNotPut)

/-- The pointer of a lock taken on the key: above its newest record, if it has one. -/
def LastChangeOfNewest (reader : SnapshotReader K) (lc : LastChange) : Prop :=
  reader.write.newest = none ∧ lc = .notExist ∨ ∃ env c w, reader.write.newest = some (c, w) ∧
    nextLastChangeInfo reader env w c = .ok lc

/-- `check_data_constraint`, for the newest record of the key. -/
def checkDataConstraint (reader : SnapshotReader K) (shouldNotExist : Bool) (write : Write)
    (writeCommitTs : ℕ) : Res K Unit := do
  let writeIsInvalid := write.gcFence.any fun gcFenceTs => gcFenceTs != 0
  if !shouldNotExist || write.writeType == .delete || writeIsInvalid then return ()
  let existingStartTs ←
    if write.writeType = .put then pure (some write.startTs)
    else do
      let ts ← liftPanic (TimeStamp.prev writeCommitTs)
      pure ((← reader.getWrite ts).map Write.startTs)
  match existingStartTs with
  | some existingStartTs => .error (.error (.alreadyExist reader.key existingStartTs))
  | none => return ()

/-! ### Rollback records -/

/-- `make_rollback`: the record that marks the rollback, if one is needed. -/
def makeRollback (startTs : ℕ) ( isProtected : Bool) (overlappedWrite : Option OverlappedWrite) :
    Res K (Option Write) :=
  match overlappedWrite with
  | some ov =>
    if ¬ ov.write.startTs < startTs then .error (.panic .makeRollback)
    else if isProtected then .ok (some (ov.write.setOverlappedRollback true (some ov.gcFence)))
    -- No need to update the other transaction's record.
    else .ok none
  | none => .ok (some (Write.newRollback startTs isProtected))

/-- The record `collapse_prev_rollback` removes: the newest one up to the start timestamp, if
it is an unprotected Rollback. -/
def prevRollback (reader : SnapshotReader K) : Option ℕ :=
  match reader.write.seek reader.startTs with
  | some (commitTs, write) =>
    if write.writeType = .rollback ∧ !write.isProtected then some commitTs else none
  | none => none

/-- `collapse_prev_rollback`. -/
def collapsePrevRollback (reader : SnapshotReader K) : List (Modify K) :=
  (prevRollback reader).toList.map .deleteWrite

/-- `MvccTxn::mark_rollback_on_mismatching_lock`. -/
def markRollbackOnMismatchingLock (startTs : ℕ) (lock : Lock K) ( isProtected : Bool) :
    Res K (List (Modify K)) :=
  if lock.ts = startTs then .error (.panic .markRollbackOnMismatchingLock)
  -- An unprotected rollback may be overwritten.
  else if !isProtected then .ok []
  -- The commit of the lock is above the rollback.
  else if startTs < lock.minCommitTs then .ok []
  -- Only async commit computes commit timestamps.
  else if !lock.useAsyncCommit then .ok []
  else .ok [.putLock { lock with rollbackTs := lock.rollbackTs ++ [startTs] }]

/-- `rollback_lock`: remove the transaction's lock and write its rollback record. -/
def rollbackLock [DecidableEq K] (reader : SnapshotReader K) (lock : Lock K)
    (isPessimisticTxn collapseRollback : Bool) : Res K (List (Modify K) × ReleasedLock K) := do
  let released : ReleasedLock K := ⟨reader.startTs, 0, reader.key, isPessimisticTxn⟩
  match reader.getTxnCommitRecord with
  | .none overlappedWrite =>
    let isProtected := reader.key == lock.primary || lock.generation > 0
    let rollback ← makeRollback reader.startTs isProtected overlappedWrite
    return ((if lock.shortValue.isNone ∧ lock.lockType = .put then [.deleteValue lock.ts]
        else []) ++
      rollback.toList.map (.putWrite reader.startTs) ++
      (if collapseRollback then collapsePrevRollback reader else []) ++ [.deleteLock], released)
  | .singleRecord _ write =>
    if write.writeType ≠ .rollback then .error (.panic .txnRecordFound)
    else return ([.deleteLock], released)
  | .overlappedRollback _ => return ([.deleteLock], released)

end Tikv
