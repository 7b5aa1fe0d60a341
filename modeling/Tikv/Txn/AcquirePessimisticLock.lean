import Tikv.Txn.Records

/-!
# Acquiring pessimistic locks

A pessimistic transaction locks a key before it writes it. The lock carries `for_update_ts`,
the timestamp of the data the transaction has seen. If the key has a newer record, the request
fails, or, with `allow_lock_with_conflict`, takes the timestamp of that record.
-/

namespace Tikv

open Versions

variable {K : Type}

/-- The request of `AcquirePessimisticLock` for one key. -/
structure AcquirePessimisticLock (K : Type) where
  startTs : ℕ
  primary : K
  forUpdateTs : ℕ
  lockTtl : ℕ := 0
  minCommitTs : ℕ := 0
  shouldNotExist : Bool := false
  needValue : Bool := false
  needCheckExistence : Bool := false
  needOldValue : Bool := false
  lockOnlyIfExists : Bool := false
  allowLockWithConflict : Bool := false
  env : Env := {}

/-- The result of locking a key. -/
inductive PessimisticLockKeyResult
  | empty
  | value (value : Option Value)
  | existence (exists_ : Bool)
  | lockedWithConflict (value : Option Value) (conflictTs : ℕ)
  deriving DecidableEq

/-- `PessimisticLockKeyResult::new_success`. -/
def PessimisticLockKeyResult.newSuccess (needValue needCheckExistence : Bool)
    (lockedWithConflictTs : Option ℕ) (value : Option Value) : PessimisticLockKeyResult :=
  match lockedWithConflictTs with
  | some conflictTs => .lockedWithConflict value conflictTs
  | none =>
    if needValue then .value value
    else if needCheckExistence then .existence value.isSome
    else .empty

/-- The newer record a lock was granted in spite of. -/
structure ConflictInfo where
  conflictStartTs : ℕ
  conflictCommitTs : ℕ

namespace AcquirePessimisticLock

variable (a : AcquirePessimisticLock K)

/-- `ConflictInfo::into_write_conflict_error`. -/
def writeConflictError (key : K) (info : ConflictInfo) : ErrorInner K :=
  .writeConflict a.startTs info.conflictStartTs info.conflictCommitTs key (some a.primary)
    .pessimisticRetry

/-- The pessimistic lock the request writes (`PessimisticLock::to_lock`). -/
def newLock (forUpdateTs : ℕ) (lastChange : LastChange) (isLockedWithConflict : Bool) :
    Lock K where
  lockType := .pessimistic
  primary := a.primary
  ts := a.startTs
  ttl := a.lockTtl
  forUpdateTs := forUpdateTs
  minCommitTs := a.minCommitTs
  lastChange := lastChange
  isLockedWithConflict := isLockedWithConflict

variable (reader : SnapshotReader K)

/-- `load_old_value`. -/
def loadOldValue (valueLoaded : Bool) (val : Option Value)
    (forUpdateTs : ℕ) (prevWriteLoaded : Bool) (prevWrite : Option Write) : Res K OldValue :=
  if !a.needOldValue then .ok .unspecified
  else if valueLoaded then
    match val with
    | some value => .ok (.value value)
    | none => .ok .none
  else reader.getOldValue forUpdateTs prevWriteLoaded prevWrite

/-- Turn the `AlreadyExist` error of a constraint check into a conflict to be retried. -/
def retryOnConflict (key : K) (conflictInfo : Option ConflictInfo) (res : Res K Unit) :
    Res K Unit :=
  match res, conflictInfo with
  | .error (.error (.alreadyExist ..)), some info =>
    .error (.error (a.writeConflictError key info))
  | res, _ => res

/-- Whether the request reads the value, apart from conflicts. -/
def needLoadValue : Bool := a.needValue || (a.needCheckExistence && a.needOldValue)

/-- `acquire_pessimistic_lock` on a key the transaction has locked already. -/
def acquireLocked (lock : Lock K) :
    Res K (List (Modify K) × PessimisticLockKeyResult × OldValue) := do
  -- The lock may have been granted with a conflict, and the answer lost.
  let conflict := a.allowLockWithConflict && a.forUpdateTs < lock.forUpdateTs
  let forUpdateTs := if conflict then lock.forUpdateTs else a.forUpdateTs
  let needLoadValue := conflict || a.needLoadValue
  let val : Option Value ←
    (if needLoadValue || a.needCheckExistence || a.shouldNotExist then do
      match ← reader.getWriteWithCommitTs forUpdateTs with
      | some (write, commitTs) =>
        let conflictInfo := if a.forUpdateTs < commitTs
          then some ⟨write.startTs, commitTs⟩ else none
        a.retryOnConflict reader.key conflictInfo
          (checkDataConstraint reader a.shouldNotExist write commitTs)
        if needLoadValue then some <$> reader.loadData write
        else pure (if a.needCheckExistence then some [] else none)
      | none => pure none
    else pure none)
  let oldValue ← a.loadOldValue reader needLoadValue val forUpdateTs false none
  -- Overwrite a lock with a smaller `for_update_ts`.
  let modifies : List (Modify K) := if lock.forUpdateTs < forUpdateTs then
    [.putLock (a.newLock forUpdateTs lock.lastChange lock.isPessimisticLockWithConflict)] else []
  return (modifies, .newSuccess a.needValue a.needCheckExistence
    (if conflict then some lock.forUpdateTs else none) val, oldValue)

/-- The checks of `acquire_pessimistic_lock` against the newest record of the key: the
conflict that is ignored, if there is one, and the last change. -/
def checkNewest (commitTs : ℕ) (write : Write) : Res K (Option ConflictInfo × LastChange) := do
  let conflictInfo ←
    (if a.forUpdateTs < commitTs then
      if a.allowLockWithConflict then pure (some ⟨write.startTs, commitTs⟩)
      else .error (.error (a.writeConflictError reader.key ⟨write.startTs, commitTs⟩))
    else pure none)
  -- The transaction may have been rolled back, by this record or by one below it.
  if commitTs = a.startTs ∧ (write.writeType = .rollback ∨ write.hasOverlappedRollback) then
    if write.hasOverlappedRollback ∨ write.startTs = commitTs then
      .error (.error (.pessimisticLockRolledBack a.startTs reader.key))
    else .error (.panic .assertion)
  else if a.startTs < commitTs ∧ (reader.write.seek a.startTs).any fun e =>
      e.1 == a.startTs && (e.2.writeType == .rollback || e.2.hasOverlappedRollback) then
    .error (.error (.pessimisticLockRolledBack a.startTs reader.key))
  else
    a.retryOnConflict reader.key conflictInfo
      (checkDataConstraint reader a.shouldNotExist write commitTs)
    let lastChange ← nextLastChangeInfo reader a.env write commitTs
    return (conflictInfo, lastChange)

/-- The value of the key, read if the request or a conflict asks for it. -/
def loadValue (commitTs : ℕ) (write : Write)
    (conflictInfo : Option ConflictInfo) : Res K (Option Value) := do
  let needLoadValue := conflictInfo.isSome || a.needLoadValue
  if !(a.needValue || a.needCheckExistence || conflictInfo.isSome) then return none
  match write.writeType with
  | .put =>
    if write.checkGcFenceAsLatestVersion reader.startTs then
      if needLoadValue then some <$> reader.loadData write else return some []
    else return none
  | .delete => return none
  | .lock | .rollback =>
    let ts ← liftPanic (TimeStamp.prev commitTs)
    if needLoadValue then reader.get ts
    else return (← reader.getWrite ts).map fun _ => []

/-- `acquire_pessimistic_lock` on a key without a lock. -/
def acquireUnlocked : Res K (List (Modify K) × PessimisticLockKeyResult × OldValue) := do
  let (conflictInfo, lastChange, val) ← (match reader.write.newest with
    | some (commitTs, write) => do
      let (conflictInfo, lastChange) ← a.checkNewest reader commitTs write
      let val ← a.loadValue reader commitTs write conflictInfo
      pure (conflictInfo, lastChange, val)
    | none => pure (none, .notExist, none))
  let forUpdateTs := (conflictInfo.map ConflictInfo.conflictCommitTs).getD a.forUpdateTs
  let oldValue ← a.loadOldValue reader (conflictInfo.isSome || a.needLoadValue) val forUpdateTs
    true (if a.needOldValue then reader.write.newest.map Prod.snd else none)
  let lastChange := if a.env.lastChangeTs then lastChange else .unknown
  let res := PessimisticLockKeyResult.newSuccess a.needValue a.needCheckExistence
    (conflictInfo.map ConflictInfo.conflictCommitTs) val
  if !a.lockOnlyIfExists || val.isSome then
    return ([.putLock (a.newLock forUpdateTs lastChange conflictInfo.isSome)], res, oldValue)
  else match conflictInfo with
    | some info => .error (.error (a.writeConflictError reader.key info))
    | none => return ([], res, oldValue)

/-- `acquire_pessimistic_lock`, after the update of `max_ts`. -/
def acquire : Res K (List (Modify K) × PessimisticLockKeyResult × OldValue) :=
  match reader.lock with
  | some lock =>
    if lock.ts ≠ a.startTs then .error (.error (.keyIsLocked (lock.intoLockInfo reader.key)))
    else if !lock.isPessimisticLock then
      .error (.error (.lockTypeNotMatch a.startTs reader.key false))
    else a.acquireLocked reader lock
  | none => a.acquireUnlocked reader

/-- `AcquirePessimisticLock::process_write`, seen from the key. -/
def processWrite (key : K) (st : KeyState K) :
    Res K (PessimisticLockKeyResult × OldValue) × KeyState K :=
  if a.lockOnlyIfExists ∧ !a.needValue then
    (.error (.error (.lockIfExistsFailed a.startTs key)), st)
  else
    -- The request reads the key at `for_update_ts`.
    let st := if a.shouldNotExist || a.needValue || a.needCheckExistence
      then st.updateMaxTs a.forUpdateTs else st
    match a.acquire (st.reader key a.startTs) with
    | .ok (modifies, res) => (.ok res, st.applyAll modifies)
    | .error fault => (.error fault, st)

/-! ### What an acquired lock says about the key -/

variable {a} {reader : SnapshotReader K} {l : Lock K}

/-- The lock `l` was granted on the key without a lock. -/
structure Acquired (a : AcquirePessimisticLock K) (reader : SnapshotReader K) (l : Lock K) :
    Prop where
  lock : l = a.newLock l.forUpdateTs l.lastChange l.isLockedWithConflict
  request : a.forUpdateTs ≤ l.forUpdateTs
  newest : ∀ e ∈ reader.write.entries, e.1 ≤ l.forUpdateTs
  conflict : (∃ e ∈ reader.write.entries, a.forUpdateTs < e.1) → l.isLockedWithConflict = true
  notRolledBack : ¬ SelfRolledBack reader.write a.startTs
  lastChange : l.lastChange = .unknown ∨ LastChangeOfNewest reader l.lastChange

/-- The newest version is a conflict above `for_update_ts`, and the transaction is not rolled back.
-/
theorem checkNewest_spec {c : ℕ} {w : Write} {info : Option ConflictInfo} {lc : LastChange}
    (hnew : reader.write.newest = some (c, w))
    (h : a.checkNewest reader c w = .ok (info, lc)) :
    (info = if a.forUpdateTs < c then some ⟨w.startTs, c⟩ else none) ∧
      ¬ SelfRolledBack reader.write a.startTs ∧ nextLastChangeInfo reader a.env w c = .ok lc := by
  obtain ⟨info', hinfo, h⟩ := bind_eq_ok.mp h
  have hinfo' : info' = if a.forUpdateTs < c then some ⟨w.startTs, c⟩ else none := by
    split at hinfo
    · rename_i hlt
      split at hinfo <;> cases hinfo
      rw [if_pos hlt]
    · rename_i hlt
      cases hinfo
      rw [if_neg hlt]
  split at h
  · split at h <;> cases h
  rename_i hself
  split_ifs at h with hbelow
  obtain ⟨-, -, h⟩ := bind_eq_ok.mp h
  obtain ⟨lc', hlc, h⟩ := bind_eq_ok.mp h
  cases h
  refine ⟨hinfo', ?_, hlc⟩
  rintro ⟨w', hw', hroll⟩
  obtain ⟨hmem, hmax⟩ := newest_eq_some_iff.mp hnew
  rcases Nat.lt_or_eq_of_le (hmax _ hw') with hlt | heq
  · -- The record of the rollback is below the newest one; the seek finds it.
    have hseek : reader.write.seek a.startTs = some (a.startTs, w') :=
      seek_eq_some_iff.mpr ⟨hw', le_rfl, fun e _ hle => hle⟩
    refine hbelow ⟨hlt, ?_⟩
    rw [hseek]
    rcases hroll with ht | ht <;> simp [ht]
  · dsimp only at heq
    subst heq
    cases mem_unique hmem hw'
    exact hself ⟨rfl, hroll⟩

variable {res : PessimisticLockKeyResult × OldValue}

/-- A request that writes a lock on a key without a lock. -/
theorem acquireUnlocked_spec {ms : List (Modify K)} (h : a.acquireUnlocked reader = .ok (ms, res)) :
    ms = [] ∨ ∃ l, ms = [.putLock l] ∧ a.Acquired reader l := by
  obtain ⟨⟨info, lc, val⟩, hnew, h⟩ := bind_eq_ok.mp h
  obtain ⟨old, -, h⟩ := bind_eq_ok.mp h
  dsimp only at h
  split at h
  · cases h
    refine Or.inr ⟨_, rfl, ?_⟩
    split at hnew
    · rename_i c w hn
      obtain ⟨⟨info', lc'⟩, hcheck, hnew⟩ := bind_eq_ok.mp hnew
      obtain ⟨val', -, hnew⟩ := bind_eq_ok.mp hnew
      cases hnew
      obtain ⟨rfl, hself, hlc⟩ := checkNewest_spec hn hcheck
      have hmax := (newest_eq_some_iff.mp hn).2
      refine ⟨rfl, ?_, fun e he => ?_, ?_, hself, ?_⟩
      · by_cases hlt : a.forUpdateTs < c <;> simp [newLock, hlt]
        exact hlt.le
      · have hle := hmax e he
        by_cases hlt : a.forUpdateTs < c <;> simp [newLock, hlt] <;> omega
      · rintro ⟨e, he, hlt⟩
        have hle := hmax e he
        have hlt' : a.forUpdateTs < c := by
          omega
        simp [newLock, hlt']
      · by_cases henv : a.env.lastChangeTs = true
        · refine Or.inr (Or.inr ⟨a.env, c, w, hn, ?_⟩)
          simpa [newLock, henv] using hlc
        · exact Or.inl (by simp [newLock, henv])
    · rename_i hn
      cases hnew
      have hempty := newest_eq_none_iff.mp hn
      refine ⟨rfl, le_rfl, by simp [hempty], by simp [hempty], ?_, ?_⟩
      · rintro ⟨w, hw, -⟩
        simp [hempty] at hw
      · by_cases henv : a.env.lastChangeTs = true
        · exact Or.inr (Or.inl ⟨hn, by simp [newLock, henv]⟩)
        · exact Or.inl (by simp [newLock, henv])
  · split at h
    · cases h
    · cases h
      exact Or.inl rfl

/-- A request on a key the transaction has locked only raises `for_update_ts`. -/
theorem acquireLocked_spec {ms : List (Modify K)} (h : a.acquireLocked reader l = .ok (ms, res)) :
    ms = [] ∨ l.forUpdateTs < a.forUpdateTs ∧
      ms = [.putLock (a.newLock a.forUpdateTs l.lastChange l.isPessimisticLockWithConflict)] := by
  obtain ⟨val, -, h⟩ := bind_eq_ok.mp h
  obtain ⟨old, -, h⟩ := bind_eq_ok.mp h
  cases h
  by_cases hc : (a.allowLockWithConflict && decide (a.forUpdateTs < l.forUpdateTs)) = true
  · simp [hc]
  · by_cases hlt : l.forUpdateTs < a.forUpdateTs
    · simp [hc, hlt]
    · simp [hc, hlt]

end AcquirePessimisticLock

end Tikv
