import Tikv.Txn.Records

/-!
# Prewrite

The first phase of a commit. `prewrite` checks one mutation against the key and writes its
lock; with one-phase commit the lock is kept aside and turned into a commit record at once.
Which checks are made depends on the kind of transaction, on the pessimistic action of the
mutation and on whether the request is a retry (`skipConstraintCheck`).

**`Prewritable`** collects what a successful prewrite has checked, and **`Prewritten`** what it
writes; `prewrite_spec` derives both from the code.
-/

namespace Tikv

open Versions

variable {K : Type}

/-- The kind of a transaction. -/
inductive TransactionKind
  | optimistic (skipConstraintCheck : Bool)
  | pessimistic (forUpdateTs : ℕ)
  deriving DecidableEq

/-- How a transaction is going to commit, with `max_commit_ts`. -/
inductive CommitKind
  | twoPc
  | onePc (maxCommitTs : ℕ)
  | async (maxCommitTs : ℕ)
  deriving DecidableEq

/-- How the lock of a pessimistic transaction is treated on the key. -/
inductive PessimisticAction
  | skipPessimisticCheck
  | doPessimisticCheck
  | doConstraintCheck
  deriving DecidableEq

/-- How strictly assertions are checked. -/
inductive AssertionLevel
  | off
  | fast
  | strict
  deriving DecidableEq

/-- A mutation of the key. -/
inductive Mutation
  | put (value : Value) (assertion : Assertion)
  | delete (assertion : Assertion)
  | lock (assertion : Assertion)
  | insert (value : Value) (assertion : Assertion)
  | checkNotExists (assertion : Assertion)

namespace Mutation

/-- The value to write. -/
def value : Mutation → Option Value
  | .put value _ | .insert value _ => some value
  | _ => none

/-- `Mutation::should_not_exists`. -/
def shouldNotExist : Mutation → Bool
  | .insert _ _ | .checkNotExists _ => true
  | _ => false

/-- `Mutation::should_not_write`. -/
def shouldNotWrite : Mutation → Bool
  | .checkNotExists _ => true
  | _ => false

/-- `Mutation::get_assertion`. -/
def getAssertion : Mutation → Assertion
  | .put _ a | .delete a | .lock a | .insert _ a | .checkNotExists a => a

/-- `LockType::from_mutation`. -/
def lockType : Mutation → Option LockType
  | .put _ _ | .insert _ _ => some .put
  | .delete _ => some .delete
  | .lock _ => some .lock
  | .checkNotExists _ => none

theorem lockType_ne_pessimistic (mutation : Mutation) :
    mutation.lockType ≠ some .pessimistic := by
  cases mutation <;> exact nofun

end Mutation

/-- `TransactionProperties`. -/
structure TransactionProperties (K : Type) where
  startTs : ℕ
  kind : TransactionKind
  commitKind : CommitKind := .twoPc
  primary : K
  txnSize : ℕ := 0
  lockTtl : ℕ := 0
  minCommitTs : ℕ := 0
  needOldValue : Bool := false
  isRetryRequest : Bool := false
  assertionLevel : AssertionLevel := .off
  txnSource : ℕ := 0

namespace TransactionProperties

variable (p : TransactionProperties K)

/-- `TransactionProperties::is_pessimistic`. -/
def isPessimistic : Bool :=
  match p.kind with
  | .optimistic _ => false
  | .pessimistic _ => true

/-- `TransactionProperties::for_update_ts`. -/
def forUpdateTs : ℕ :=
  match p.kind with
  | .optimistic _ => 0
  | .pessimistic ts => ts

/-- `TransactionProperties::max_commit_ts`. -/
def maxCommitTs : Res K ℕ :=
  match p.commitKind with
  | .twoPc => .error (.panic .unreachable)
  | .onePc ts => .ok ts
  | .async ts => .ok ts

end TransactionProperties

/-- The prewrite of one key. -/
structure PrewriteMutation (K : Type) where
  props : TransactionProperties K
  mutation : Mutation
  pessimisticAction : PessimisticAction := .skipPessimisticCheck
  expectedForUpdateTs : Option ℕ := none
  /-- The secondary keys of an async-commit transaction, on its primary key. -/
  secondaryKeys : Option (List K) := none
  env : Env := {}

/-- The state of the lock a prewrite finds. -/
inductive LockStatus
  /-- Locked already; `min_commit_ts` of the lock. -/
  | locked (minCommitTs : ℕ)
  /-- Locked pessimistically; `for_update_ts` of the lock. -/
  | pessimistic (forUpdateTs : ℕ)
  | none
  deriving DecidableEq

/-- `LockStatus::has_pessimistic_lock`. -/
def LockStatus.hasPessimisticLock : LockStatus → Bool
  | .pessimistic _ => true
  | _ => false

/-- The fields of a `PrewriteMutation` that the checks change. -/
structure PrewriteFields where
  minCommitTs : ℕ
  lockTtl : ℕ
  lastChange : LastChange := .unknown

namespace PrewriteMutation

variable (p : PrewriteMutation K)

/-- `PrewriteMutation::skip_constraint_check`. -/
def skipConstraintCheck : Bool :=
  match p.props.kind with
  | .optimistic skip => skip
  | .pessimistic _ =>
    match p.pessimisticAction with
    | .doPessimisticCheck => true
    -- A retried request must not write a lock again after the transaction has ended.
    | .skipPessimisticCheck => !p.props.isRetryRequest
    | .doConstraintCheck => false

/-- `PrewriteMutation::need_min_commit_ts`. -/
def needMinCommitTs : Bool :=
  match p.props.commitKind with
  | .twoPc => false
  | _ => true

/-- `PrewriteMutation::try_one_pc`. -/
def tryOnePc : Bool :=
  match p.props.commitKind with
  | .onePc _ => true
  | _ => false

/-- `PrewriteMutation::lock_info`: a pessimistic transaction resolves the lock at once. -/
def lockInfo (key : K) (lock : Lock K) : LockInfo K :=
  if p.props.isPessimistic then { lock.intoLockInfo key with lockTtl := 0 }
  else lock.intoLockInfo key

/-- `PrewriteMutation::write_conflict_error`. -/
def writeConflictError (key : K) (write : Write) (commitTs : ℕ) (reason : WriteConflictReason) :
    ErrorInner K :=
  .writeConflict p.props.startTs write.startTs commitTs key (some p.props.primary) reason

/-- `PrewriteMutation::check_lock`, for a prewrite of generation zero. -/
def checkLock (key : K) (fields : PrewriteFields) (lock : Lock K) :
    Res K (LockStatus × PrewriteFields) :=
  if lock.ts ≠ p.props.startTs then
    if p.pessimisticAction = .doPessimisticCheck then
      .error (.error (.pessimisticLockNotFound p.props.startTs key .lockTsMismatch))
    else .error (.error (.keyIsLocked (p.lockInfo key lock)))
  else if lock.isPessimisticLock then
    if !p.props.isPessimistic then
      .error (.error (.lockTypeNotMatch p.props.startTs key true))
    else if p.expectedForUpdateTs.any fun ts => lock.forUpdateTs != ts then
      -- The lock the client knows of must have been lost.
      .error (.error (.pessimisticLockNotFound p.props.startTs key .lockForUpdateTsMismatch))
    else
      .ok (.pessimistic lock.forUpdateTs,
        { lockTtl := max fields.lockTtl lock.ttl
          minCommitTs := max fields.minCommitTs lock.minCommitTs
          lastChange := lock.lastChange })
  else if lock.generation > 0 ∧ p.mutation.shouldNotExist ∧ lock.lockType = .put then
    .error (.error (.alreadyExist key lock.ts))
  else
    -- A duplicated command.
    .ok (.locked (if lock.useAsyncCommit then lock.minCommitTs else 0),
      { fields with lastChange := lock.lastChange })

/-- The loop of `check_for_newer_version`, on the records still to be read; the pointer of the
lock is computed from the first one. -/
def newerVersionLoop (reader : SnapshotReader K) :
    Option LastChange → List (ℕ × Write) → Res K (Option (Write × ℕ) × LastChange)
  | lastChange, [] => .ok (none, lastChange.getD .notExist)
  | lastChange, (commitTs, write) :: rest => do
    if commitTs = p.props.startTs ∧ (write.writeType = .rollback ∨ write.hasOverlappedRollback) then
      .error (.error (p.writeConflictError reader.key write commitTs .selfRolledBack))
    else
      let lastChange ← (match lastChange with
        | none => nextLastChangeInfo reader p.env write commitTs
        | some lastChange => .ok lastChange)
      let found : Res K (Option (Write × ℕ) × LastChange) := do
        checkDataConstraint reader p.mutation.shouldNotExist write commitTs
        return (some (write, commitTs), lastChange)
      match p.props.kind with
      | .optimistic _ =>
        if p.props.startTs < commitTs then
          .error (.error (p.writeConflictError reader.key write commitTs .optimistic))
        else found
      | .pessimistic forUpdateTs =>
        if p.pessimisticAction = .doConstraintCheck ∧ p.props.startTs < commitTs then
          .error (.error (p.writeConflictError reader.key write commitTs .lazyUniquenessCheck))
        else if forUpdateTs < commitTs then
          -- A newer Rollback record is not a conflict.
          if write.writeType = .rollback then newerVersionLoop reader (some lastChange) rest
          else .error (.error
            (.pessimisticLockNotFound p.props.startTs reader.key .nonLockKeyConflict))
        else found

variable (reader : SnapshotReader K)

/-- `PrewriteMutation::check_for_newer_version`. -/
def checkForNewerVersion : Res K (Option (Write × ℕ) × LastChange) :=
  p.newerVersionLoop reader none reader.write.entries

/-- Whether the record contradicts the assertion of the mutation, and the record it names. -/
def assertionFailure (write : Option (Write × ℕ)) : Option (ℕ × ℕ) :=
  match p.mutation.getAssertion, write with
  | .exist, none => some (0, 0)
  | .exist, some (w, commitTs) => if w.writeType = .delete then some (w.startTs, commitTs) else none
  | .notExist, some (w, commitTs) => if w.writeType = .put then some (w.startTs, commitTs) else none
  | _, _ => none

/-- `PrewriteMutation::check_assertion`: the record it has read again, if it has. -/
def checkAssertion (write : Option (Write × ℕ))
    (writeLoaded : Bool) : Res K (Option (Option (Write × ℕ))) := do
  if p.mutation.getAssertion = .none ∨ p.props.assertionLevel = .off then return none
  if p.props.assertionLevel ≠ .strict ∧ !writeLoaded then return none
  -- A loaded record with a GC fence counts as none.
  let write := write.filter fun e => !(writeLoaded && e.1.gcFence.any fun f => f != 0)
  let needReload := !writeLoaded || write.any fun e => !e.1.isChange
  let reloadTs := (write.map Prod.snd).getD TimeStamp.max
  let reloaded ←
    (if needReload then some <$> reader.getWriteWithCommitTs reloadTs else pure none)
  match p.assertionFailure (reloaded.getD write) with
  | none => return reloaded
  | some (existingStartTs, existingCommitTs) =>
    -- The assertion may fail because the transaction was rolled back.
    if p.skipConstraintCheck then
      let _ ← p.checkForNewerVersion reader
    .error (.error (.assertionFailed p.props.startTs reader.key p.mutation.getAssertion
      existingStartTs existingCommitTs))

/-- `amend_pessimistic_lock`: the lock was lost; go on if the key has not changed. -/
def amendPessimisticLock : Res K LastChange := do
  match reader.write.newest with
  | some (commitTs, write) =>
    if reader.startTs ≤ commitTs then
      .error (.error (.pessimisticLockNotFound reader.startTs reader.key .lockMissingAmendFail))
    else
      let lastChange ← nextLastChangeInfo reader p.env write commitTs
      let _ ← p.checkAssertion reader (some (write, commitTs)) true
      return lastChange
  | none =>
    let _ ← p.checkAssertion reader none true
    return .notExist

/-- The lock `write_lock` writes, before `min_commit_ts` is computed for async commit. -/
def newLock (fields : PrewriteFields) (lockStatus : LockStatus) (lockType : LockType) :
    Lock K where
  lockType := lockType
  primary := p.props.primary
  ts := p.props.startTs
  ttl := fields.lockTtl
  shortValue := p.mutation.value.filter isShortValue
  forUpdateTs :=
    match lockStatus with
    | .pessimistic fromPessimisticLock => max p.props.forUpdateTs fromPessimisticLock
    | _ => p.props.forUpdateTs
  txnSize := p.props.txnSize
  minCommitTs := fields.minCommitTs
  useAsyncCommit := p.secondaryKeys.isSome
  -- The lock in memory must not be skipped by a read with the largest timestamp.
  useOnePc := p.secondaryKeys.isNone && p.tryOnePc
  secondaries := p.secondaryKeys.getD []
  -- Put and Delete are changes themselves; only Lock records point at the last change.
  lastChange := if p.env.lastChangeTs && lockType == .lock then fields.lastChange else .unknown
  txnSource := p.props.txnSource

end PrewriteMutation

/-- What a prewrite leaves in the transaction buffer: modifications, and the lock kept for
one-phase commit together with whether it replaces a pessimistic lock. -/
structure PrewriteBuffer (K : Type) where
  modifies : List (Modify K) := []
  lockFor1pc : Option (Lock K × Bool) := none

/-- The answer of a prewrite: `min_commit_ts`, zero if there is none, or the error that the
commit timestamp is too large, with which the lock is written all the same. -/
abbrev PrewriteAnswer (K : Type) := Except (ErrorInner K) ℕ

namespace PrewriteMutation

variable (p : PrewriteMutation K)

/-- The value, if it is too long for the lock. -/
def values : List (Modify K) :=
  ((p.mutation.value.filter fun v => !isShortValue v).map (.putValue p.props.startTs)).toList

/-- The default CF with the long value written. -/
def storeValue (default : Versions Value) : Versions Value :=
  (p.mutation.value.filter fun v => !isShortValue v).elim default (default.insert p.props.startTs)

/-- `PrewriteMutation::write_lock`. -/
def writeLock (maxTs : ℕ) (fields : PrewriteFields) (lockStatus : LockStatus) :
    Res K (PrewriteBuffer K × PrewriteAnswer K) := do
  match p.mutation.lockType with
  | none => .error (.panic .assertion)
  | some lockType =>
    let lock := p.newLock fields lockStatus lockType
    if lock.useAsyncCommit || p.tryOnePc then
      let maxCommitTs ← p.props.maxCommitTs
      match asyncCommitTimestamps maxTs lock p.props.startTs p.props.forUpdateTs maxCommitTs with
      | .ok lock =>
        if p.tryOnePc then
          return (⟨p.values, some (lock, lockStatus.hasPessimisticLock)⟩, .ok lock.minCommitTs)
        else return (⟨p.values ++ [.putLock lock], none⟩, .ok lock.minCommitTs)
      | .error (.error e) =>
        -- Fall back to two-phase commit.
        let lock := { lock with useOnePc := false, useAsyncCommit := false, secondaries := [] }
        return (⟨p.values ++ [.putLock lock], none⟩, .error e)
      | .error fault => .error fault
    else return (⟨p.values ++ [.putLock lock], none⟩, .ok 0)

/-- The old value of the key, read when change data capture asks for it. -/
def loadOldValue (reader : SnapshotReader K) (prevWrite : Option (Write × ℕ))
    (prevWriteLoaded : Bool) : Res K OldValue :=
  match p.props.needOldValue, p.mutation with
  | true, .insert _ _ => .ok .none
  | true, .put _ _ | true, .delete _ =>
    if p.skipConstraintCheck then
      .ok (if p.props.isPessimistic then .unspecified else .none)
    else
      let ts := match p.props.kind with
        | .optimistic _ => p.props.startTs
        | .pessimistic forUpdateTs => forUpdateTs
      reader.getOldValue ts prevWriteLoaded (prevWrite.map Prod.fst)
  | _, _ => .ok .unspecified

/-- The part of `prewrite` after the lock of the key has been dealt with. -/
def prewriteUnlocked (maxTs : ℕ) (reader : SnapshotReader K) (fields : PrewriteFields)
    (lockStatus : LockStatus) (lockAmended : Bool) :
    Res K (PrewriteBuffer K × PrewriteAnswer K × OldValue) := do
  let prevWriteLoaded := !p.skipConstraintCheck
  let (prevWrite, lastChange) ← (if p.skipConstraintCheck then pure (none, fields.lastChange)
    else p.checkForNewerVersion reader)
  let reloaded ← (if lockAmended then pure none
    else p.checkAssertion reader prevWrite prevWriteLoaded)
  let (prevWrite, prevWriteLoaded) := match reloaded with
    | some write => (write, true)
    | none => (prevWrite, prevWriteLoaded)
  if p.mutation.shouldNotWrite then
    if p.needMinCommitTs then
      let next ← liftPanic (TimeStamp.next p.props.startTs)
      return ({}, .ok (max p.props.minCommitTs next), .unspecified)
    else return ({}, .ok 0, .unspecified)
  else
    let oldValue ← p.loadOldValue reader prevWrite prevWriteLoaded
    let (buffer, answer) ← p.writeLock maxTs { fields with lastChange } lockStatus
    return (buffer, answer, oldValue)

/-- `prewrite`: `prewrite_with_generation` with generation zero, after `from_mutation` and the
update of `max_ts`. -/
def prewrite (maxTs : ℕ) (reader : SnapshotReader K) :
    Res K (PrewriteBuffer K × PrewriteAnswer K × OldValue) := do
  let fields : PrewriteFields := { minCommitTs := p.props.minCommitTs, lockTtl := p.props.lockTtl }
  match reader.lock with
  | some lock =>
    match ← p.checkLock reader.key fields lock with
    | (.locked ts, _) => return ({}, .ok ts, .unspecified)
    | (lockStatus, fields) => p.prewriteUnlocked maxTs reader fields lockStatus false
  | none =>
    if p.pessimisticAction = .doPessimisticCheck then
      let lastChange ← p.amendPessimisticLock reader
      p.prewriteUnlocked maxTs reader { fields with lastChange } .none true
    else p.prewriteUnlocked maxTs reader fields .none false

end PrewriteMutation

/-! ### The command -/

/-- The prewrite of the key within a request. The request's other keys contribute the largest
`min_commit_ts` among them, and may make a one-phase commit fall back after this key. -/
structure Prewrite (K : Type) extends PrewriteMutation K where
  othersMinCommitTs : ℕ := 0
  othersFallBack : Bool := false

/-- The result of a prewrite; zero stands for no timestamp. -/
structure PrewriteResult where
  minCommitTs : ℕ
  onePcCommitTs : ℕ
  deriving DecidableEq

/-- The commit record of a lock, by `commit` and `handle_1pc_locks`. -/
def Lock.commitRecord (lock : Lock K) (startTs : ℕ) : Res K Write :=
  match WriteType.fromLockType lock.lockType with
  | some writeType => .ok
    { writeType, startTs, shortValue := lock.shortValue, lastChange := lock.lastChange
      txnSource := lock.txnSource }
  | none => .error (.panic .unreachable)

/-- `check_committed_record_on_err`: the commit timestamp, if the transaction has committed. -/
def checkCommittedRecordOnErr (reader : SnapshotReader K) : Option ℕ :=
  match reader.getTxnCommitRecord with
  | .singleRecord commitTs write => if write.writeType ≠ .rollback then some commitTs else none
  | _ => none

/-- The errors after which a prewrite looks for its own commit record. -/
def ErrorInner.mayBeCommitted : ErrorInner K → Bool
  | .writeConflict startTs _ conflictCommitTs _ _ _ => startTs < conflictCommitTs
  | .pessimisticLockNotFound .. | .commitTsTooLarge .. | .keyIsLocked _ => true
  | _ => false

namespace Prewrite

variable (r : Prewrite K)

/-- The result that reports `ts`. -/
def result (ts : ℕ) : PrewriteResult where
  minCommitTs := if r.secondaryKeys.isSome then ts else 0
  onePcCommitTs := if r.tryOnePc then ts else 0

/-- The end of the request: write the modifications, and commit or fall back from one-phase
commit. -/
def finish (st : KeyState K) (buffer : PrewriteBuffer K) (ts : ℕ) :
    Res K PrewriteResult × KeyState K :=
  if (r.secondaryKeys.isSome || r.tryOnePc) && ts == 0 then
    -- The lock has fallen back from async commit or 1PC.
    (.ok ⟨0, 0⟩, st.applyAll buffer.modifies)
  else
    let commitTs := max ts r.othersMinCommitTs
    match buffer.lockFor1pc with
    | none => (.ok (r.result commitTs), st.applyAll buffer.modifies)
    | some (lock, removePessimisticLock) =>
      if r.othersFallBack then
        (.ok ⟨0, 0⟩, st.applyAll (buffer.modifies ++ [.putLock { lock with useOnePc := false }]))
      else match lock.commitRecord r.props.startTs with
        | .ok write => (.ok (r.result commitTs), st.applyAll (buffer.modifies ++
            [.putWrite commitTs write] ++ if removePessimisticLock then [.deleteLock] else []))
        | .error fault => (.error fault, st)

/-- `Prewriter::process_write`, seen from the key. -/
def processWrite (key : K) (st : KeyState K) : Res K PrewriteResult × KeyState K :=
  if r.props.isPessimistic ∧ r.mutation.shouldNotWrite then
    (.error (.error .checkNotExistsInPessimisticPrewrite), st)
  else
    -- An Insert reads the key, and so does the check of `CheckNotExists`.
    let st := if r.mutation.shouldNotExist then st.updateMaxTs r.props.startTs else st
    let reader := st.reader key r.props.startTs
    match r.prewrite st.maxTs reader with
    | .ok (buffer, .ok ts, _) => r.finish st buffer ts
    | .ok (buffer, .error e, _) =>
      match if e.mayBeCommitted then checkCommittedRecordOnErr reader else none with
      | some commitTs => (.ok (r.result commitTs), st)
      | none => (.ok ⟨0, 0⟩, st.applyAll buffer.modifies)
    | .error (.error e) =>
      match if e.mayBeCommitted then checkCommittedRecordOnErr reader else none with
      | some commitTs => (.ok (r.result commitTs), st)
      | none => (.error (.error e), st)
    | .error fault => (.error fault, st)

end Prewrite

/-! ### What a prewrite checks -/

namespace PrewriteMutation

variable {p : PrewriteMutation K} {reader : SnapshotReader K}

/-- What `check_for_newer_version` has checked. A pessimistic transaction looks at the records
down to the first one at or below `for_update_ts`; its own rollback may be hidden below that. -/
def NewerVersionChecked (p : PrewriteMutation K) (m : Versions Write) : Prop :=
  match p.props.kind with
  | .optimistic _ =>
    (∀ e ∈ m.entries, e.1 ≤ p.props.startTs) ∧ ¬ SelfRolledBack m p.props.startTs
  | .pessimistic forUpdateTs =>
    (p.pessimisticAction = .doConstraintCheck → ∀ e ∈ m.entries, e.1 ≤ p.props.startTs) ∧
      (∀ e ∈ m.entries, e.2.writeType ≠ .rollback → e.1 ≤ forUpdateTs) ∧
      (SelfRolledBack m p.props.startTs →
        ∃ e ∈ m.entries, p.props.startTs < e.1 ∧ e.1 ≤ forUpdateTs)

/-- The records the loop of `check_for_newer_version` has passed. -/
structure NewerPassed (p : PrewriteMutation K) (reader : SnapshotReader K)
    (passed : List (ℕ × Write)) (lastChange : Option LastChange) : Prop where
  rollback : ∀ e ∈ passed, e.2.writeType = .rollback ∧ e.1 ≠ p.props.startTs ∧
    (p.pessimisticAction = .doConstraintCheck → e.1 ≤ p.props.startTs)
  optimistic : ∀ skip, p.props.kind = .optimistic skip → passed = []
  first : lastChange = none → passed = []
  lastChange : ∀ lc, lastChange = some lc → LastChangeOfNewest reader lc

/-- The pointer is computed from the newest record, whichever record the loop stops at. -/
theorem NewerPassed.lastChange_of_bind {passed rest : List (ℕ × Write)} {c : ℕ} {w : Write}
    {lastChange : Option LastChange} {lc : LastChange} (h : p.NewerPassed reader passed lastChange)
    (hm : reader.write.entries = passed ++ (c, w) :: rest)
    (hlc : (match lastChange with
      | none => nextLastChangeInfo reader p.env w c
      | some lastChange => .ok lastChange) = .ok lc) : LastChangeOfNewest reader lc := by
  rcases lastChange with - | lc'
  · rw [h.first rfl] at hm
    exact Or.inr ⟨p.env, c, w, by rw [newest, hm]; rfl, hlc⟩
  · cases hlc
    exact h.lastChange lc rfl

/-- The loop stops at a record that is not in conflict. -/
theorem NewerPassed.checked {passed rest : List (ℕ × Write)} {c forUpdateTs : ℕ} {w : Write}
    {lastChange : Option LastChange} (h : p.NewerPassed reader passed lastChange)
    (hm : reader.write.entries = passed ++ (c, w) :: rest)
    (hk : p.props.kind = .pessimistic forUpdateTs)
    (hself : ¬ (c = p.props.startTs ∧ (w.writeType = .rollback ∨ w.hasOverlappedRollback = true)))
    (hcons : ¬ (p.pessimisticAction = .doConstraintCheck ∧ p.props.startTs < c))
    (hc : ¬ forUpdateTs < c) : p.NewerVersionChecked reader.write := by
  rw [NewerVersionChecked, hk]
  refine ⟨fun hd e he => ?_, fun e he ht => ?_, ?_⟩
  · rcases mem_cases hm he with ⟨h', -⟩ | rfl | ⟨-, h'⟩
    · exact (h.rollback e h').2.2 hd
    · exact Nat.le_of_not_lt fun hlt => hcons ⟨hd, hlt⟩
    · have : ¬ p.props.startTs < c := fun hlt => hcons ⟨hd, hlt⟩
      omega
  · rcases mem_cases hm he with ⟨h', -⟩ | rfl | ⟨-, h'⟩
    · exact absurd (h.rollback e h').1 ht
    · exact Nat.le_of_not_lt hc
    · omega
  · rintro ⟨w', hw', hroll⟩
    refine ⟨(c, w), by simp [hm], ?_, Nat.le_of_not_lt hc⟩
    rcases mem_cases hm hw' with ⟨h', -⟩ | h' | ⟨-, h'⟩
    · exact absurd rfl (h.rollback _ h').2.1
    · cases h'
      exact absurd ⟨rfl, hroll⟩ hself
    · exact h'

variable {found : Option (Write × ℕ)}

/-- The loop of `check_for_newer_version`. -/
theorem newerVersionLoop_spec {passed l : List (ℕ × Write)} {lastChange : Option LastChange}
    {lc : LastChange} (h : p.NewerPassed reader passed lastChange)
    (hm : reader.write.entries = passed ++ l)
    (hok : p.newerVersionLoop reader lastChange l = .ok (found, lc)) :
    p.NewerVersionChecked reader.write ∧ LastChangeOfNewest reader lc := by
  -- Induction on the records left; the loop goes on only past Rollback records.
  induction l generalizing passed lastChange with
  | nil =>
    rw [List.append_nil] at hm
    cases hok
    have hself : ¬ SelfRolledBack reader.write p.props.startTs := by
      rintro ⟨w, hw, -⟩
      exact absurd rfl (h.rollback _ (hm ▸ hw)).2.1
    refine ⟨?_, ?_⟩
    · rw [NewerVersionChecked]
      split
      · rename_i skip hk
        rw [h.optimistic skip hk] at hm
        exact ⟨by simp [hm], hself⟩
      · exact ⟨fun hd e he => (h.rollback e (hm ▸ he)).2.2 hd,
          fun e he ht => absurd (h.rollback e (hm ▸ he)).1 ht, fun hs => absurd hs hself⟩
    · rcases hl : lastChange with - | lc
      · rw [h.first hl] at hm
        exact Or.inl ⟨newest_eq_none_iff.mpr hm, rfl⟩
      · exact h.lastChange lc hl
  | cons x rest ih =>
    obtain ⟨c, w⟩ := x
    unfold newerVersionLoop at hok
    split at hok
    · cases hok
    rename_i hself
    obtain ⟨lc', hlc, hok⟩ := bind_eq_ok.mp hok
    have hlast := h.lastChange_of_bind hm hlc
    split at hok
    · rename_i skip hk
      split_ifs at hok with hc
      obtain ⟨-, -, hok⟩ := bind_eq_ok.mp hok
      cases hok
      rw [h.optimistic skip hk] at hm
      have hle : ∀ e ∈ reader.write.entries, e = (c, w) ∨ e.1 < c := fun e he =>
        (mem_cases hm he).elim nofun (Or.imp_right And.right)
      refine ⟨?_, hlast⟩
      rw [NewerVersionChecked, hk]
      refine ⟨fun e he => ?_, ?_⟩
      · rcases hle e he with rfl | h' <;> omega
      · rintro ⟨w', hw', hroll⟩
        rcases hle _ hw' with h' | h'
        · cases h'
          exact hself ⟨rfl, hroll⟩
        · exact hc h'
    · rename_i forUpdateTs hk
      split at hok
      · cases hok
      rename_i hcons
      split at hok
      · split_ifs at hok with ht
        have hpassed : p.NewerPassed reader (passed ++ [(c, w)]) (some lc') := by
          refine ⟨List.forall_mem_append.mpr ⟨h.rollback, List.forall_mem_singleton.mpr ?_⟩,
            fun skip hs => ?_, nofun, fun lc h => ?_⟩
          · exact ⟨ht, fun hcs => hself ⟨hcs, Or.inl ht⟩,
              fun hd => Nat.le_of_not_lt fun hlt => hcons ⟨hd, hlt⟩⟩
          · rw [hk] at hs
            cases hs
          · cases h
            exact hlast
        exact ih hpassed (by simp [hm]) hok
      · rename_i hc
        obtain ⟨-, -, hok⟩ := bind_eq_ok.mp hok
        cases hok
        exact ⟨h.checked hm hk hself hcons hc, hlast⟩

theorem checkForNewerVersion_spec {lc : LastChange}
    (hok : p.checkForNewerVersion reader = .ok (found, lc)) :
    p.NewerVersionChecked reader.write ∧ LastChangeOfNewest reader lc := by
  refine newerVersionLoop_spec ?_ (List.nil_append _).symm hok
  exact ⟨by simp, fun _ _ => rfl, fun _ => rfl, nofun⟩

theorem applyAll_values (st : KeyState K) :
    st.applyAll p.values = { st with default := p.storeValue st.default } := by
  rw [values, storeValue]
  rcases p.mutation.value.filter fun v => !isShortValue v with - | v <;> rfl

/-- What a prewrite that writes a lock has checked. -/
structure Prewritable (p : PrewriteMutation K) (reader : SnapshotReader K) : Prop where
  lock : ∀ l, reader.lock = some l → l.ts = p.props.startTs ∧ l.isPessimisticLock = true ∧
    p.props.isPessimistic = true
  amend : reader.lock = none → p.pessimisticAction = .doPessimisticCheck →
    ∀ e ∈ reader.write.entries, e.1 < reader.startTs
  newer : p.skipConstraintCheck = false → p.NewerVersionChecked reader.write

/-- The lock that a prewrite writes. -/
structure Prewritten (p : PrewriteMutation K) (reader : SnapshotReader K) (maxTs : ℕ)
    (l : Lock K) : Prop where
  lockType : p.mutation.lockType = some l.lockType
  ts : l.ts = p.props.startTs
  shortValue : l.shortValue = p.mutation.value.filter isShortValue
  forUpdateTs : l.forUpdateTs = max p.props.forUpdateTs ((reader.lock.map Lock.forUpdateTs).getD 0)
  minCommitTs : l.useAsyncCommit = true → maxTs < l.minCommitTs
  rollbackTs : l.rollbackTs = []
  lastChange : l.lastChange = .unknown ∨ l.lockType = .lock ∧
    (LastChangeOfNewest reader l.lastChange ∨
      ∃ l₀, reader.lock = some l₀ ∧ l.lastChange = l₀.lastChange)

/-- The buffer of a prewrite that writes the lock `l`. -/
def Buffered (p : PrewriteMutation K) (reader : SnapshotReader K) (maxTs : ℕ) (l : Lock K)
    (buffer : PrewriteBuffer K) (answer : PrewriteAnswer K) : Prop :=
  buffer = ⟨p.values ++ [.putLock l], none⟩ ∨
    buffer = ⟨p.values, some (l, reader.lock.isSome)⟩ ∧ answer = .ok l.minCommitTs ∧
      maxTs < l.minCommitTs ∧ p.props.startTs < l.minCommitTs

variable {status : LockStatus}

theorem checkLock_spec {key : K} {fields fields' : PrewriteFields} {lock : Lock K}
    (h : p.checkLock key fields lock = .ok (status, fields')) :
    (∃ ts, status = .locked ts) ∨ lock.ts = p.props.startTs ∧ lock.isPessimisticLock = true ∧
      p.props.isPessimistic = true ∧ status = .pessimistic lock.forUpdateTs ∧
      fields'.lastChange = lock.lastChange := by
  rw [checkLock] at h
  split at h
  · split at h <;> cases h
  · rename_i hts
    split at h
    · rename_i hpess
      split at h
      · cases h
      · rename_i hp
        split at h <;> cases h
        exact Or.inr ⟨not_not.mp hts, hpess, by simpa using hp, rfl, rfl⟩
    · split at h <;> cases h
      exact Or.inl ⟨_, rfl⟩

variable {buffer : PrewriteBuffer K} {answer : PrewriteAnswer K} {maxTs : ℕ}

/-- The lock that a prewrite writes. -/
theorem writeLock_spec {fields : PrewriteFields}
    (hpess : status.hasPessimisticLock = reader.lock.isSome)
    (hfut : (p.newLock fields status .put).forUpdateTs =
      max p.props.forUpdateTs ((reader.lock.map Lock.forUpdateTs).getD 0))
    (hlc : fields.lastChange = .unknown ∨ LastChangeOfNewest reader fields.lastChange ∨
      ∃ l₀, reader.lock = some l₀ ∧ fields.lastChange = l₀.lastChange)
    (h : p.writeLock maxTs fields status = .ok (buffer, answer)) :
    ∃ l, p.Buffered reader maxTs l buffer answer ∧ p.Prewritten reader maxTs l := by
  rw [writeLock, hpess] at h
  split at h
  · cases h
  rename_i lockType ht
  -- Every lock that is written agrees with `newLock` in these fields.
  have hbase : ∀ l : Lock K, l.lockType = lockType → l.ts = p.props.startTs →
      l.shortValue = p.mutation.value.filter isShortValue →
      l.forUpdateTs = (p.newLock fields status .put).forUpdateTs → l.rollbackTs = [] →
      l.lastChange = (p.newLock fields status lockType).lastChange →
      (l.useAsyncCommit = true → maxTs < l.minCommitTs) → p.Prewritten reader maxTs l := by
    intro l h₁ h₂ h₃ h₄ h₅ h₆ h₇
    refine ⟨by rw [h₁, ht], h₂, h₃, h₄.trans hfut, h₇, h₅, ?_⟩
    rw [h₆, h₁]
    by_cases hl : (p.env.lastChangeTs && lockType == .lock) = true
    · have hlast : (p.newLock fields status lockType).lastChange = fields.lastChange := if_pos hl
      rw [hlast]
      exact hlc.imp_right fun h => ⟨by simpa using (Bool.and_eq_true_iff.mp hl).2, h⟩
    · exact Or.inl (if_neg hl)
  dsimp only at h
  split at h
  · obtain ⟨maxCommitTs, -, h⟩ := bind_eq_ok.mp h
    split at h
    · rename_i l hts
      obtain ⟨m, rfl, -, hmax, hstart, -⟩ := asyncCommitTimestamps_spec hts
      split at h
      · cases h
        exact ⟨_, Or.inr ⟨rfl, rfl, hmax, hstart⟩, hbase _ rfl rfl rfl rfl rfl rfl fun _ => hmax⟩
      · cases h
        exact ⟨_, Or.inl rfl, hbase _ rfl rfl rfl rfl rfl rfl fun _ => hmax⟩
    · cases h
      exact ⟨_, Or.inl rfl, hbase _ rfl rfl rfl rfl rfl rfl nofun⟩
    · cases h
  · rename_i hasync
    cases h
    refine ⟨_, Or.inl rfl, hbase _ rfl rfl rfl rfl rfl rfl fun ha => ?_⟩
    simp [ha] at hasync

/-- A prewrite on a free key has checked for newer versions, or writes nothing. -/
theorem prewriteUnlocked_spec {fields : PrewriteFields} {amended : Bool} {old : OldValue}
    (h : p.prewriteUnlocked maxTs reader fields status amended = .ok (buffer, answer, old)) :
    buffer = {} ∨ (p.skipConstraintCheck = false → p.NewerVersionChecked reader.write) ∧
      ∃ lc, (lc = fields.lastChange ∨ LastChangeOfNewest reader lc) ∧
        p.writeLock maxTs { fields with lastChange := lc } status = .ok (buffer, answer) := by
  obtain ⟨⟨prevWrite, lc⟩, hnew, h⟩ := bind_eq_ok.mp h
  obtain ⟨reloaded, -, h⟩ := bind_eq_ok.mp h
  dsimp only at h
  split at h
  · split at h
    · obtain ⟨next, -, h⟩ := bind_eq_ok.mp h
      cases h
      exact Or.inl rfl
    · cases h
      exact Or.inl rfl
  · obtain ⟨old', -, h⟩ := bind_eq_ok.mp h
    obtain ⟨⟨buffer', answer'⟩, hw, h⟩ := bind_eq_ok.mp h
    cases h
    refine Or.inr ⟨fun hs => ?_, lc, ?_, hw⟩
    · rw [if_neg (by simp [hs])] at hnew
      exact (checkForNewerVersion_spec hnew).1
    · split at hnew
      · cases hnew
        exact Or.inl rfl
      · exact Or.inr (checkForNewerVersion_spec hnew).2

theorem amendPessimisticLock_spec {lc : LastChange} (h : p.amendPessimisticLock reader = .ok lc) :
    (∀ e ∈ reader.write.entries, e.1 < reader.startTs) ∧ LastChangeOfNewest reader lc := by
  rw [amendPessimisticLock] at h
  split at h
  · rename_i c w hnew
    split_ifs at h
    obtain ⟨lc', hlc, h⟩ := bind_eq_ok.mp h
    obtain ⟨-, -, h⟩ := bind_eq_ok.mp h
    cases h
    refine ⟨fun e he => ?_, Or.inr ⟨p.env, c, w, hnew, hlc⟩⟩
    have hle := (newest_eq_some_iff.mp hnew).2 e he
    omega
  · rename_i hnew
    obtain ⟨-, -, h⟩ := bind_eq_ok.mp h
    cases h
    refine ⟨?_, Or.inl ⟨hnew, rfl⟩⟩
    rw [newest_eq_none_iff.mp hnew]
    simp

/-- What `prewrite` has checked and written when it leaves something in the buffer. -/
theorem prewrite_spec {old : OldValue} (h : p.prewrite maxTs reader = .ok (buffer, answer, old)) :
    buffer = {} ∨ p.Prewritable reader ∧
      ∃ l, p.Buffered reader maxTs l buffer answer ∧ p.Prewritten reader maxTs l := by
  rw [prewrite] at h
  rcases hl : reader.lock with - | lock <;> rw [hl] at h <;> dsimp only at h
  · split at h
    · obtain ⟨lc, ham, h⟩ := bind_eq_ok.mp h
      obtain ⟨hlt, hlc⟩ := amendPessimisticLock_spec ham
      refine (prewriteUnlocked_spec h).imp_right fun ⟨hnew, lc', hlc', hw⟩ => ?_
      refine ⟨⟨by simp [hl], fun _ _ => hlt, hnew⟩, ?_⟩
      refine writeLock_spec (by rw [hl]; rfl) (by simp [newLock, hl]) (Or.inr (Or.inl ?_)) hw
      rcases hlc' with rfl | hlc'
      · exact hlc
      · exact hlc'
    · rename_i hact
      refine (prewriteUnlocked_spec h).imp_right fun ⟨hnew, lc, hlc, hw⟩ => ?_
      refine ⟨⟨by simp [hl], fun _ ha => absurd ha hact, hnew⟩, ?_⟩
      refine writeLock_spec (by rw [hl]; rfl) (by simp [newLock, hl]) ?_ hw
      rcases hlc with rfl | hlc
      · exact Or.inl rfl
      · exact Or.inr (Or.inl hlc)
  · obtain ⟨⟨status, fields⟩, hcheck, h⟩ := bind_eq_ok.mp h
    rcases checkLock_spec hcheck with ⟨ts, rfl⟩ | ⟨hts, hpess, hp, rfl, hlast⟩
    · cases h
      exact Or.inl rfl
    · refine (prewriteUnlocked_spec h).imp_right fun ⟨hnew, lc, hlc, hw⟩ => ?_
      refine ⟨⟨fun l h => ?_, by simp [hl], hnew⟩, ?_⟩
      · cases hl.symm.trans h
        exact ⟨hts, hpess, hp⟩
      · refine writeLock_spec (by rw [hl]; rfl) (by simp [newLock, hl]) (Or.inr ?_) hw
        rcases hlc with rfl | hlc
        · exact Or.inr ⟨lock, hl, hlast⟩
        · exact Or.inl hlc

end PrewriteMutation

end Tikv
