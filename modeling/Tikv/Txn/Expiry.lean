import Tikv.Txn.CheckTxnStatus

/-!
# The expiry of locks

A lock is rolled back without asking its transaction when its TTL has passed. The TTL is a 64-bit
number that the client chooses, and its sum with the physical start time of the lock is taken in 64
bits in all three places that decide it. Where the sum does not wrap around, a lock is rolled back
for its expiry only if it is expired; where it does, a lock that should live the longest is expired
at once.
-/

namespace Tikv

open TimeStamp

variable {K : Type}

/-- The TTL of the lock has passed, in numbers without a bound. -/
def Lock.IsPast (lock : Lock K) (currentTs : ℕ) : Prop :=
  physical lock.ts + lock.ttl < physical currentTs

/-- The end of the lock's life is a 64-bit number. -/
def Lock.TtlFits (lock : Lock K) : Prop := physical lock.ts + lock.ttl < 2 ^ 64

/-- The statuses that are reported for a lock that was rolled back because it is expired. -/
def TxnStatus.isExpiry : TxnStatus K → Bool
  | .ttlExpire | .pessimisticRollBack => true
  | _ => false

/-- The request of `check_txn_status_lock_exists` is answered without a look at the TTL: the lock
belongs to another primary key, or to an async-commit transaction that is not forced back. -/
def CheckTxnStatus.ReturnsEarly (request : CheckTxnStatus) (key : K) (lock : Lock K) : Prop :=
  (request.verifyIsPrimary ∧ key ≠ lock.primary) ∨ (lock.useAsyncCommit ∧ !request.forceSyncCommit)

theorem Lock.TtlFits.isExpired_iff {lock : Lock K} (h : lock.TtlFits) (currentTs : ℕ) :
    lock.isExpired currentTs = true ↔ lock.IsPast currentTs := by
  rw [Lock.isExpired, Nat.mod_eq_of_lt h, decide_eq_true_iff]
  rfl

section Actions

variable {reader : SnapshotReader K} {lock : Lock K} {currentTs : ℕ}
  {modifies : List (Modify K)} {txnStatus : TxnStatus K}

theorem checkDeterminedTxnStatus_isExpiry
    (h : checkDeterminedTxnStatus reader = some txnStatus) : txnStatus.isExpiry = false := by
  rw [checkDeterminedTxnStatus] at h
  split at h
  · split at h <;> cases h <;> rfl
  · cases h
    rfl
  · cases h

/-- Without its lock a transaction is not found expired. -/
theorem checkTxnStatusMissingLock_isExpiry {mismatchLock : Option (Lock K)}
    {action : MissingLockAction} {resolvingPessimisticLock : Bool}
    (h : checkTxnStatusMissingLock reader mismatchLock action resolvingPessimisticLock =
      .ok (modifies, txnStatus)) : txnStatus.isExpiry = false := by
  rw [checkTxnStatusMissingLock] at h
  split at h
  · cases h
    split <;> rfl
  · cases h
    rfl
  · split at h
    · cases h
    split at h
    · cases h
      rfl
    obtain ⟨collapse, -, h⟩ := bind_eq_ok.mp h
    obtain ⟨mark, -, h⟩ := bind_eq_ok.mp h
    obtain ⟨write, -, h⟩ := bind_eq_ok.mp h
    cases h
    rfl

variable [DecidableEq K]

theorem checkTxnStatusFromPessimisticPrimaryLock_isExpired {resolvingPessimisticLock : Bool}
    {released : Option (ReleasedLock K)}
    (h : checkTxnStatusFromPessimisticPrimaryLock reader lock currentTs resolvingPessimisticLock =
      .ok (modifies, some txnStatus, released)) (hexpiry : txnStatus.isExpiry = true) :
    lock.isPessimisticLock = true ∧ lock.isExpired currentTs = true := by
  rw [checkTxnStatusFromPessimisticPrimaryLock] at h
  dsimp only at h
  split at h
  · cases h
  rename_i hpessimistic
  refine ⟨not_not.mp hpessimistic, ?_⟩
  split at h
  · -- The lock is stale.
    rename_i status hstale
    cases h
    split_ifs at hstale
    rw [checkDeterminedTxnStatus_isExpiry hstale] at hexpiry
    cases hexpiry
  · split at h
    · rename_i hexpired
      exact hexpired
    · cases h

/-- A rollback for expiry comes after the comparison. -/
theorem checkTxnStatusLockExists_isExpired {request : CheckTxnStatus}
    {released : Option (ReleasedLock K)}
    (h : checkTxnStatusLockExists reader lock request = .ok (modifies, txnStatus, released))
    (hexpiry : txnStatus.isExpiry = true) :
    ¬ request.ReturnsEarly reader.key lock ∧ lock.isExpired request.currentTs = true := by
  have hlive : ∀ {modifies status}, pushMinCommitTs lock request = .ok (modifies, status) →
      status ≠ txnStatus := by
    rintro modifies status hpush rfl
    obtain ⟨lock', -, hpush⟩ := bind_eq_ok.mp hpush
    cases hpush
    cases hexpiry
  rw [checkTxnStatusLockExists] at h
  split at h
  · split_ifs at h
    obtain ⟨⟨missing, status⟩, hmissing, h⟩ := bind_eq_ok.mp h
    cases h
    rw [checkTxnStatusMissingLock_isExpiry hmissing] at hexpiry
    cases hexpiry
  rename_i hprimary
  split at h
  · cases h
    cases hexpiry
  rename_i hasync
  refine ⟨not_or.mpr ⟨hprimary, hasync⟩, ?_⟩
  split at h
  · obtain ⟨⟨modifies', status, released'⟩, hpessimistic, h⟩ := bind_eq_ok.mp h
    split at h
    · rename_i heq
      cases heq
      cases h
      exact (checkTxnStatusFromPessimisticPrimaryLock_isExpired hpessimistic hexpiry).2
    · obtain ⟨⟨_, status⟩, hpush, h⟩ := bind_eq_ok.mp h
      cases h
      exact absurd rfl (hlive hpush)
    · cases h
  split at h
  · rename_i hexpired
    exact hexpired
  · obtain ⟨⟨_, status⟩, hpush, h⟩ := bind_eq_ok.mp h
    cases h
    exact absurd rfl (hlive hpush)

theorem cleanup_isExpired {protectRollback : Bool}
    {result : List (Modify K) × Option (ReleasedLock K)} (hlock : reader.lock = some lock)
    (hts : lock.ts = reader.startTs) (hne : currentTs ≠ 0)
    (h : cleanup reader currentTs protectRollback = .ok result) :
    lock.isExpired currentTs = true := by
  rw [cleanup, hlock] at h
  dsimp only at h
  rw [if_pos hts] at h
  split_ifs at h with hnot
  by_contra hlive
  exact hnot ⟨hne, by rw [Bool.eq_false_iff.mpr hlive]; rfl⟩

/-! ### Locks that are expired too early -/

/-- A key with the lock and without records. -/
def readerOf (key : K) (lock : Lock K) : SnapshotReader K :=
  { key, startTs := lock.ts, lock := some lock, write := ∅, default := ∅ }

omit [DecidableEq K] in
/-- If the end of the lock's life wraps around, it is before the start of the lock. -/
theorem Lock.isExpired_ts (httl : lock.ttl < 2 ^ 64) (h : ¬ lock.TtlFits) :
    lock.ts ≠ 0 ∧ lock.isExpired lock.ts = true ∧ ¬ lock.IsPast lock.ts := by
  rw [Lock.TtlFits] at h
  refine ⟨?_, ?_, ?_⟩
  · intro hzero
    rw [hzero, show physical 0 = 0 from rfl] at h
    omega
  · rw [Lock.isExpired, decide_eq_true_iff]
    omega
  · rw [Lock.IsPast]
    omega

variable (key : K)

theorem rollback_pessimisticPrimaryLock (hpessimistic : lock.isPessimisticLock = true)
    (hexpired : lock.isExpired currentTs = true) (resolvingPessimisticLock : Bool) :
    ∃ modifies txnStatus released, checkTxnStatusFromPessimisticPrimaryLock (readerOf key lock)
      lock currentTs resolvingPessimisticLock = .ok (modifies, some txnStatus, some released) ∧
      txnStatus.isExpiry = true := by
  have hstale : (if lock.isPessimisticLockWithConflict then
      checkDeterminedTxnStatus (readerOf key lock) else none) = none := ite_id none
  rw [checkTxnStatusFromPessimisticPrimaryLock, if_neg (not_not.mpr hpessimistic)]
  dsimp only
  rw [hstale]
  dsimp only
  rw [if_pos hexpired]
  cases resolvingPessimisticLock with
  | true => exact ⟨_, _, _, rfl, rfl⟩
  | false => exact ⟨_, _, _, rfl, rfl⟩

theorem rollback_lockExists (request : CheckTxnStatus)
    (hexpired : lock.isExpired request.currentTs = true) (h : ¬ request.ReturnsEarly key lock) :
    ∃ modifies txnStatus released, checkTxnStatusLockExists (readerOf key lock) lock request =
      .ok (modifies, txnStatus, released) ∧ txnStatus.isExpiry = true := by
  obtain ⟨hprimary, hasync⟩ := not_or.mp h
  rw [checkTxnStatusLockExists]
  dsimp only
  rw [if_neg (c := request.verifyIsPrimary ∧ (readerOf key lock).key ≠ _) hprimary, if_neg hasync]
  split
  · rename_i hpessimistic
    obtain ⟨modifies, txnStatus, released, hcheck, hexpiry⟩ := rollback_pessimisticPrimaryLock
      key hpessimistic hexpired request.resolvingPessimisticLock
    rw [hcheck]
    exact ⟨_, _, _, rfl, hexpiry⟩
  · exact ⟨_, _, _, rfl, rfl⟩

theorem rollback_cleanup (hexpired : lock.isExpired currentTs = true) (protectRollback : Bool) :
    ∃ result, cleanup (readerOf key lock) currentTs protectRollback = .ok result := by
  have hlock : (readerOf key lock).lock = some lock := rfl
  have hts : lock.ts = (readerOf key lock).startTs := rfl
  rw [cleanup, hlock]
  dsimp only
  rw [if_pos hts, if_neg (by simp [hexpired])]
  exact ⟨_, rfl⟩

/-- Whatever else is on the key and whatever the current time, a lock is rolled back for its
expiry only if its TTL has passed, exactly if the end of its life is a 64-bit number or the
function does not look at it. -/
theorem rollback_of_isPast (lock : Lock K) (httl : lock.ttl < 2 ^ 64) :
    ((∀ reader currentTs resolvingPessimisticLock modifies txnStatus released,
      checkTxnStatusFromPessimisticPrimaryLock reader lock currentTs resolvingPessimisticLock =
        .ok (modifies, some txnStatus, released) →
      txnStatus.isExpiry = true → lock.IsPast currentTs) ↔
      (lock.isPessimisticLock → lock.TtlFits)) ∧
    (∀ (key : K) (request : CheckTxnStatus),
      (∀ reader currentTs modifies txnStatus released, reader.key = key →
        checkTxnStatusLockExists reader lock { request with currentTs } =
          .ok (modifies, txnStatus, released) →
        txnStatus.isExpiry = true → lock.IsPast currentTs) ↔
      (request.ReturnsEarly key lock ∨ lock.TtlFits)) ∧
    ((∀ reader currentTs protectRollback result, reader.lock = some lock →
      lock.ts = reader.startTs → currentTs ≠ 0 →
      cleanup reader currentTs protectRollback = .ok result → lock.IsPast currentTs) ↔
      lock.TtlFits) := by
  refine ⟨⟨?_, ?_⟩, fun key request => ⟨?_, ?_⟩, ?_, ?_⟩
  · intro h hpessimistic
    by_contra hfits
    obtain ⟨-, hexpired, hlive⟩ := Lock.isExpired_ts httl hfits
    obtain ⟨modifies, txnStatus, released, hcheck, hexpiry⟩ :=
      rollback_pessimisticPrimaryLock lock.primary hpessimistic hexpired true
    exact hlive (h _ _ _ _ _ _ hcheck hexpiry)
  · intro hfits reader currentTs resolvingPessimisticLock modifies txnStatus released h hexpiry
    obtain ⟨hpessimistic, hexpired⟩ :=
      checkTxnStatusFromPessimisticPrimaryLock_isExpired h hexpiry
    exact ((hfits hpessimistic).isExpired_iff _).mp hexpired
  · intro h
    by_contra hnot
    obtain ⟨hread, hfits⟩ := not_or.mp hnot
    obtain ⟨-, hexpired, hlive⟩ := Lock.isExpired_ts httl hfits
    obtain ⟨modifies, txnStatus, released, hcheck, hexpiry⟩ :=
      rollback_lockExists key { request with currentTs := lock.ts } hexpired hread
    exact hlive (h _ _ _ _ _ rfl hcheck hexpiry)
  · rintro hsafe reader currentTs modifies txnStatus released rfl h hexpiry
    obtain ⟨hread, hexpired⟩ := checkTxnStatusLockExists_isExpired h hexpiry
    exact ((hsafe.resolve_left hread).isExpired_iff _).mp hexpired
  · intro h
    by_contra hfits
    obtain ⟨hne, hexpired, hlive⟩ := Lock.isExpired_ts httl hfits
    obtain ⟨result, hcleanup⟩ := rollback_cleanup lock.primary hexpired true
    exact hlive (h _ _ _ _ rfl rfl hne hcleanup)
  · intro hfits reader currentTs protectRollback result hlock hts hne h
    exact (hfits.isExpired_iff _).mp (cleanup_isExpired hlock hts hne h)

end Actions

section Instance

/-- A lock of a transaction that started at the physical time `1`, on its primary key. -/
def lockWithTtl (lockType : LockType) (ttl : ℕ) : Lock ℕ :=
  { lockType, primary := 0, ts := compose 1 0, ttl }

def statusRequest (lock : Lock ℕ) (currentTs : ℕ) : CheckTxnStatus :=
  { lockTs := lock.ts, callerStartTs := 0, currentTs, rollbackIfNotExist := true
    forceSyncCommit := false, resolvingPessimisticLock := true, verifyIsPrimary := true }

/-- A Put lock with a TTL of five milliseconds is found expired seven milliseconds later. -/
theorem rollback_of_isPast_put :
    ∃ modifies released,
      checkTxnStatusLockExists (readerOf 0 (lockWithTtl .put 5)) (lockWithTtl .put 5)
        (statusRequest (lockWithTtl .put 5) (compose 8 0)) =
      .ok (modifies, .ttlExpire, released) ∧ (lockWithTtl .put 5).IsPast (compose 8 0) := by
  have hfits : (lockWithTtl .put 5).TtlFits := by unfold Lock.TtlFits; decide
  obtain ⟨-, hexists, -⟩ := rollback_of_isPast (lockWithTtl .put 5) (by decide)
  obtain ⟨modifies, released, hcheck⟩ : ∃ modifies released,
      checkTxnStatusLockExists (readerOf 0 (lockWithTtl .put 5)) (lockWithTtl .put 5)
        (statusRequest (lockWithTtl .put 5) (compose 8 0)) =
      .ok (modifies, .ttlExpire, released) := ⟨_, _, rfl⟩
  exact ⟨modifies, released, hcheck,
    (hexists 0 (statusRequest (lockWithTtl .put 5) 0)).mpr (.inr hfits) _ _ _ _ _ rfl hcheck rfl⟩

/-- A lock with the largest TTL is rolled back at its own start time. -/
theorem rollback_of_largest_ttl :
    (∀ lockType, ¬ (lockWithTtl lockType (2 ^ 64 - 1)).IsPast (compose 1 0)) ∧
    (∃ modifies released, checkTxnStatusFromPessimisticPrimaryLock
      (readerOf 0 (lockWithTtl .pessimistic (2 ^ 64 - 1))) (lockWithTtl .pessimistic (2 ^ 64 - 1))
      (compose 1 0) true = .ok (modifies, some .pessimisticRollBack, released)) ∧
    (∃ modifies released, checkTxnStatusLockExists
      (readerOf 0 (lockWithTtl .put (2 ^ 64 - 1))) (lockWithTtl .put (2 ^ 64 - 1))
      (statusRequest (lockWithTtl .put (2 ^ 64 - 1)) (compose 1 0)) =
        .ok (modifies, .ttlExpire, released)) ∧
    ∃ modifies released, cleanup (readerOf 0 (lockWithTtl .put (2 ^ 64 - 1)))
      (compose 1 0) true = .ok (modifies, some released) := by
  refine ⟨fun lockType => ?_, ⟨_, _, rfl⟩, ⟨_, _, rfl⟩, _, _, rfl⟩
  show ¬ (physical (compose 1 0) + (2 ^ 64 - 1) <
    physical (compose 1 0))
  omega

end Instance

end Tikv
