import Tikv.Txn.Prewrite

/-!
# A prewrite request

`Prewriter` goes through the mutations of a request one after the other. What the prewrite of a key
leaves is collected in a transaction buffer of all keys (`MvccTxn`). When a key is found to have
fallen back to two-phase commit, or its commit timestamp would be too large, the request falls back
as a whole (`PrewriterState.fallBack`); when the commit record of the transaction is found, the
buffer is dropped (`PrewriterState.committed`). At the end `writeResult` turns the locks that were
kept for one-phase commit into commit records.
-/

namespace Tikv

variable {K : Type}

/-- A mutation of the request, with what a pessimistic transaction says about its lock. -/
structure KeyMutation (K : Type) where
  key : K
  mutation : Mutation
  pessimisticAction : PessimisticAction := .skipPessimisticCheck
  expectedForUpdateTs : Option ℕ := none

/-- `Prewriter`; the commit kind of the properties is computed. -/
structure Prewriter (K : Type) where
  props : TransactionProperties K
  mutations : List (KeyMutation K)
  maxCommitTs : ℕ := 0
  secondaryKeys : Option (List K) := none
  tryOnePc : Bool := false
  env : Env := {}

/-- `MvccTxn`, with the keys whose handles it has locked in memory. -/
structure MvccTxn (K : Type) where
  modifies : List (K × Modify K) := []
  locksFor1pc : List (K × Lock K × Bool) := []
  guards : List K := []

/-- Whether `async_commit_timestamps` has put the lock into memory. -/
def PrewriteBuffer.isGuarded (buffer : PrewriteBuffer K) : Bool :=
  buffer.lockFor1pc.isSome || buffer.modifies.any fun
    | .putLock lock => lock.useAsyncCommit
    | _ => false

namespace MvccTxn

variable (txn : MvccTxn K)

/-- The transaction after the prewrite of a key. -/
def push (key : K) (buffer : PrewriteBuffer K) : MvccTxn K where
  modifies := txn.modifies ++ buffer.modifies.map fun x => (key, x)
  locksFor1pc := txn.locksFor1pc ++ (buffer.lockFor1pc.map fun x => (key, x)).toList
  guards := if buffer.isGuarded then txn.guards ++ [key] else txn.guards

theorem push_empty (key : K) : txn.push key {} = txn := by
  rw [push, List.map_nil, Option.map_none, Option.toList_none, List.append_nil, List.append_nil]
  rfl

/-- `fallback_1pc_locks`. -/
def fallback1pcLocks : MvccTxn K :=
  { txn with
    modifies := txn.modifies ++
      txn.locksFor1pc.map fun (key, lock, _) => (key, .putLock { lock with useOnePc := false })
    locksFor1pc := [] }

/-- The modifications by which `handle_1pc_locks` commits and deletes the locks. -/
def commit1pcLocks (startTs commitTs : ℕ) :
    List (K × Lock K × Bool) → Res K (List (K × Modify K) × List (ReleasedLock K))
  | [] => .ok ([], [])
  | (key, lock, deletePessimisticLock) :: locks => do
    let write ← lock.commitRecord startTs
    let (modifies, released) ← commit1pcLocks startTs commitTs locks
    if deletePessimisticLock then
      return ((key, .putWrite commitTs write) :: (key, .deleteLock) :: modifies,
        ⟨startTs, commitTs, key, true⟩ :: released)
    else return ((key, .putWrite commitTs write) :: modifies, released)

/-- `handle_1pc_locks`. -/
def handle1pcLocks (startTs commitTs : ℕ) : Res K (List (ReleasedLock K) × MvccTxn K) := do
  let (modifies, released) ← commit1pcLocks startTs commitTs txn.locksFor1pc
  return (released, { txn with modifies := txn.modifies ++ modifies, locksFor1pc := [] })

/-- `one_pc_commit`. -/
def onePcCommit (tryOnePc : Bool) (startTs finalMinCommitTs : ℕ) :
    Res K (ℕ × List (ReleasedLock K) × MvccTxn K) :=
  if tryOnePc then
    if finalMinCommitTs = 0 then .error (.panic .assertion)
    else do
      let (released, txn) ← txn.handle1pcLocks startTs finalMinCommitTs
      return (finalMinCommitTs, released, txn)
  else if txn.locksFor1pc.isEmpty then .ok (0, [], txn)
  else .error (.panic .assertion)

/-- `into_modifies`. -/
def intoModifies : Res K (List (K × Modify K)) :=
  if txn.locksFor1pc.isEmpty then .ok txn.modifies else .error (.panic .assertion)

end MvccTxn

/-- What `Prewriter::prewrite` keeps while it goes through the mutations. -/
structure PrewriterState (K : Type) where
  commitKind : CommitKind
  asyncCommitPk : Option K
  secondaryKeys : Option (List K)
  tryOnePc : Bool
  txn : MvccTxn K := {}
  finalMinCommitTs : ℕ := 0
  locks : List (ErrorInner K) := []
  assertionFailure : Option (ErrorInner K) := none

namespace PrewriterState

variable (s : PrewriterState K)

/-- The fall back to two-phase commit; the handles in memory are released. -/
def fallBack : PrewriterState K :=
  { s with
    commitKind := .twoPc
    asyncCommitPk := none
    secondaryKeys := none
    tryOnePc := false
    txn := { s.txn.fallback1pcLocks with guards := [] }
    finalMinCommitTs := 0 }

/-- The transaction turns out to be committed: nothing is written. -/
def committed (commitTs : ℕ) : PrewriterState K :=
  { s with txn := {}, locks := [], finalMinCommitTs := commitTs }

end PrewriterState

/-- How the loop goes on after a mutation. -/
inductive PrewriterStep (K : Type)
  | next (s : PrewriterState K)
  | done (s : PrewriterState K)

/-- The answer to a prewrite request, with what is to be written. -/
structure PrewriteWriteResult (K : Type) where
  locks : List (ErrorInner K)
  minCommitTs : ℕ
  onePcCommitTs : ℕ
  modifies : List (K × Modify K)
  releasedLocks : List (ReleasedLock K)
  lockGuards : List K

namespace Prewriter

variable [DecidableEq K] (r : Prewriter K)

/-- The state before the first mutation. -/
def start : PrewriterState K where
  commitKind :=
    match r.secondaryKeys, r.tryOnePc with
    | _, true => .onePc r.maxCommitTs
    | some _, false => .async r.maxCommitTs
    | none, false => .twoPc
  asyncCommitPk := (r.secondaryKeys.filter fun keys => !keys.isEmpty).map fun _ => r.props.primary
  secondaryKeys := r.secondaryKeys
  tryOnePc := r.tryOnePc

/-- The secondary keys that the lock of the key is given. -/
def secondaries (s : PrewriterState K) (key : K) : Option (List K) :=
  if some key = s.asyncCommitPk then s.secondaryKeys else s.secondaryKeys.map fun _ => []

/-- The prewrite of one mutation. -/
def prewriteMutation (s : PrewriterState K) (m : KeyMutation K) : PrewriteMutation K where
  props := { r.props with commitKind := s.commitKind }
  mutation := m.mutation
  pessimisticAction := m.pessimisticAction
  expectedForUpdateTs := m.expectedForUpdateTs
  secondaryKeys := secondaries s m.key
  env := r.env

/-- Whether the prewrite of the key has to compute a timestamp. -/
def needMinCommitTs (s : PrewriterState K) (m : KeyMutation K) : Bool :=
  (secondaries s m.key).isSome || s.tryOnePc

variable (snapshot : K → KeyState K)

/-- The reader of a key. -/
def reader (key : K) : SnapshotReader K :=
  (snapshot key).reader key r.props.startTs

/-- The body of the loop. The snapshot has, with each key, `max_ts` as it is when the key is
prewritten: it may grow in between. -/
def prewriteKey (s : PrewriterState K) (m : KeyMutation K) : Res K (PrewriterStep K) :=
  let reader := r.reader snapshot m.key
  if r.props.isPessimistic ∧ m.mutation.shouldNotWrite then
    .error (.error .checkNotExistsInPessimisticPrewrite)
  else
    match (r.prewriteMutation s m).prewrite (snapshot m.key).maxTs reader with
    | .ok (buffer, .ok ts, _) =>
      if needMinCommitTs s m ∧ ts = 0 then
        .ok (.next { s with txn := s.txn.push m.key buffer }.fallBack)
      else
        .ok (.next { s with
          txn := s.txn.push m.key buffer
          finalMinCommitTs :=
            if needMinCommitTs s m ∧ s.finalMinCommitTs < ts then ts else s.finalMinCommitTs })
    | .ok (buffer, .error _, _) =>
      -- The commit timestamp is too large; the lock is written, as for two-phase commit.
      match checkCommittedRecordOnErr reader with
      | some commitTs => .ok (.done (s.committed commitTs))
      | none => .ok (.next { s with txn := s.txn.push m.key buffer }.fallBack)
    | .error (.error e) =>
      match (if e.mayBeCommitted then checkCommittedRecordOnErr reader else none) with
      | some commitTs => .ok (.done (s.committed commitTs))
      | none =>
        match e with
        | .keyIsLocked _ => .ok (.next { s with locks := s.locks ++ [e] })
        | .assertionFailed .. =>
          .ok (.next { s with assertionFailure := s.assertionFailure.or (some e) })
        | _ => .error (.error e)
    | .error fault => .error fault

/-- The loop of `Prewriter::prewrite`. -/
def prewriteLoop (snapshot : K → KeyState K) :
    List (KeyMutation K) → PrewriterState K → Res K (PrewriterState K)
  | [], s =>
    match s.assertionFailure with
    | some e => .error (.error e)
    | none => .ok s
  | m :: ms, s => do
    match ← r.prewriteKey snapshot s m with
    | .next s => prewriteLoop snapshot ms s
    | .done s => .ok s

/-- `Prewriter::prewrite`. -/
def prewrite : Res K (PrewriterState K) :=
  r.prewriteLoop snapshot r.mutations r.start

/-- `Prewriter::write_result`. -/
def writeResult (s : PrewriterState K) : Res K (PrewriteWriteResult K) :=
  let asyncCommitTs := if s.secondaryKeys.isSome then s.finalMinCommitTs else 0
  if s.locks.isEmpty then do
    let (onePcCommitTs, releasedLocks, txn) ←
      s.txn.onePcCommit s.tryOnePc r.props.startTs s.finalMinCommitTs
    let modifies ← txn.intoModifies
    return {
      locks := []
      minCommitTs := asyncCommitTs
      onePcCommitTs
      modifies
      releasedLocks
      lockGuards := txn.guards }
  else
    -- Skip write stage if some keys are locked.
    .ok {
      locks := s.locks
      minCommitTs := asyncCommitTs
      onePcCommitTs := 0
      modifies := []
      releasedLocks := []
      lockGuards := [] }

end Prewriter

end Tikv
