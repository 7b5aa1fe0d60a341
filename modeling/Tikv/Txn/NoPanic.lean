import Tikv.Txn.Transition

/-!
# Rolling back does not panic

The code that rolls a transaction back asserts what it takes for granted about the key: that a
transaction with a lock has no commit record (`rollback_lock`), that a pessimistic lock which was
not granted with a conflict belongs to a transaction without any record (`check_status_from_lock`),
that a record at `start_ts` of the transaction is of an older one (`make_rollback`), and so on.

A request that was sent before the transaction committed may arrive late and lock the key again. If
it was granted in spite of a conflict, the lock says so, and `CheckTxnStatus` and
`CheckSecondaryLocks` look for the commit record first; `Cleanup` and `Rollback` do not.

**`LocksFresh`** is the invariant: the lock of a committed transaction is pessimistic and was
granted with a conflict, and a pessimistic lock is not of a rolled back transaction. It holds
along runs in which the requests of a committed transaction are late (`RequestFresh`).
-/

namespace Tikv

open AcquirePessimisticLock KeyState

variable {K : Type}

/-- The assertions of the code that rolls a transaction back. -/
def Panic.isRollbackAssertion : Panic → Bool
  | .txnRecordFound | .unwrapNone | .makeRollback | .markRollbackOnMismatchingLock
  | .checkTxnStatusLockExists => true
  | _ => false

/-- The call does not fail with one of these assertions. -/
def AssertsHold {α : Type} (res : Res K α) : Prop :=
  ∀ p, res = .error (.panic p) → p.isRollbackAssertion = false

/-! ### Calls that assert nothing of the kind -/

namespace AssertsHold

variable {α β : Type}

theorem ok (a : α) : AssertsHold (.ok a : Res K α) := nofun

theorem error (e : ErrorInner K) : AssertsHold (.error (.error e) : Res K α) := nofun

theorem panic {p : Panic} (h : p.isRollbackAssertion = false) :
    AssertsHold (.error (.panic p) : Res K α) := by
  intro q hq
  cases hq
  exact h

theorem bind {x : Res K α} {f : α → Res K β} (hx : AssertsHold x)
    (hf : ∀ a, x = .ok a → AssertsHold (f a)) : AssertsHold (x >>= f) := by
  intro p hp
  rcases bind_eq_error.mp hp with hp | ⟨a, ha, hp⟩
  · exact hx p hp
  · exact hf a ha p hp

theorem of_error {x : Res K α} {fault : Fault K} (hx : AssertsHold x) (h : x = .error fault) :
    AssertsHold (.error fault : Res K β) := by
  intro p hp
  cases hp
  exact hx p h

theorem map {x : Res K α} (f : α → β) (hx : AssertsHold x) : AssertsHold (f <$> x) := by
  intro p hp
  rcases x with e | a
  · refine hx p ?_
    cases hp
    rfl
  · cases hp

theorem liftPanic {x : Except Panic α} (h : ∀ p, x = .error p → p.isRollbackAssertion = false) :
    AssertsHold (Tikv.liftPanic x : Res K α) := by
  intro p hp
  rcases x with q | a
  · cases hp
    exact h p rfl
  · cases hp

theorem next (t : ℕ) : AssertsHold (Tikv.liftPanic (TimeStamp.next t) : Res K ℕ) := by
  refine liftPanic fun p hp => ?_
  rw [TimeStamp.next] at hp
  split at hp <;> cases hp
  rfl

theorem prev (t : ℕ) : AssertsHold (Tikv.liftPanic (TimeStamp.prev t) : Res K ℕ) := by
  refine liftPanic fun p hp => ?_
  rw [TimeStamp.prev] at hp
  split at hp <;> cases hp
  rfl

theorem makeExist (t n : ℕ) :
    AssertsHold (Tikv.liftPanic (LastChange.makeExist t n) : Res K LastChange) := by
  refine liftPanic fun p hp => ?_
  rw [LastChange.makeExist] at hp
  split at hp <;> cases hp
  rfl

/-! ### Reading -/

theorem seekBelow {loop : ℕ → Res K (Option (Write × ℕ))} (h : ∀ t, AssertsHold (loop t))
    (ts c : ℕ) : AssertsHold (SnapshotReader.seekBelow loop ts c) := by
  rw [SnapshotReader.seekBelow]
  split
  · exact ok _
  · exact (prev c).bind fun t _ => h t

theorem getWriteLoop (m : Versions Write) (lim : Option ℕ) (ts : ℕ) (l : List (ℕ × Write)) :
    AssertsHold (SnapshotReader.getWriteLoop m lim ts l : Res K _) := by
  induction l generalizing ts with
  | nil => exact ok _
  | cons e l ih =>
    obtain ⟨c, w⟩ := e
    by_cases hw : w.isChange = true
    · rw [SnapshotReader.getWriteLoop_change hw]
      exact ok _
    by_cases hf : SnapshotReader.isFenced lim w = true
    · rw [SnapshotReader.getWriteLoop, if_pos hf]
      exact ok _
    rw [SnapshotReader.getWriteLoop_skip (by simpa using hw) (by simpa using hf)]
    split
    · exact ok _
    · split
      · split
        · exact ok _
        · split
          · exact ok _
          · exact panic rfl
      · exact seekBelow ih ts c
    · exact seekBelow ih ts c

variable {r : SnapshotReader K}

theorem getWriteUpTo (ts : ℕ) (lim : Option ℕ) : AssertsHold (r.getWriteUpTo ts lim) :=
  getWriteLoop _ _ _ _

theorem getWrite (ts : ℕ) : AssertsHold (r.getWrite ts) :=
  (getWriteUpTo ts _).bind fun _ _ => ok _

theorem loadData (w : Write) : AssertsHold (r.loadData w) := by
  rw [SnapshotReader.loadData]
  split
  · exact panic rfl
  · split
    · exact ok _
    · split
      · exact ok _
      · exact error _

theorem get (ts : ℕ) : AssertsHold (r.get ts) := by
  refine (getWrite ts).bind fun w _ => ?_
  split
  · exact (loadData _).bind fun _ _ => ok _
  · exact ok _

theorem getOldValue (ts : ℕ) (loaded : Bool) (w : Option Write) :
    AssertsHold (r.getOldValue ts loaded w) := by
  unfold SnapshotReader.getOldValue
  extract_lets found
  have hfound : AssertsHold found := by
    refine (getWriteUpTo ts _).bind fun w _ => ?_
    split <;> exact ok _
  split
  · split
    · exact ok _
    · exact hfound
  · split
    · exact ok _
    · split
      · exact ok _
      · exact ok _
      · exact hfound
      · exact hfound

theorem nextLastChangeInfo (env : Env) (w : Write) (c : ℕ) :
    AssertsHold (Tikv.nextLastChangeInfo r env w c) := by
  rw [Tikv.nextLastChangeInfo]
  split
  · exact makeExist _ _
  · exact makeExist _ _
  -- A Lock or Rollback record hands its pointer on, or the change is searched for.
  all_goals
    split
    · exact makeExist _ _
    · exact ok _
    · refine (getWriteUpTo c _).bind fun found _ => ?_
      split
      · exact ok _
      · split
        · exact makeExist _ _
        · exact panic rfl

theorem checkDataConstraint (b : Bool) (w : Write) (c : ℕ) :
    AssertsHold (Tikv.checkDataConstraint r b w c) := by
  rw [Tikv.checkDataConstraint]
  split
  · exact ok _
  · split
    · exact error _
    · refine (prev c).bind fun t _ => (getWrite t).bind fun found _ => ?_
      rcases found with - | w'
      · exact ok _
      · exact error _

/-! ### Prewriting, locking and committing -/

section

variable {p : PrewriteMutation K}

/-- The loop over newer versions of a prewrite. -/
theorem newerVersionLoop (lc : Option LastChange) (l : List (ℕ × Write)) :
    AssertsHold (p.newerVersionLoop r lc l) := by
  induction l generalizing lc with
  | nil => exact ok _
  | cons e l ih =>
    obtain ⟨c, w⟩ := e
    unfold PrewriteMutation.newerVersionLoop
    split
    · exact error _
    refine bind ?_ fun lc' _ => ?_
    · split
      · exact nextLastChangeInfo _ _ _
      · exact ok _
    have hfound : AssertsHold (do
        Tikv.checkDataConstraint r p.mutation.shouldNotExist w c
        return (some (w, c), lc') : Res K _) :=
      (checkDataConstraint _ _ _).bind fun _ _ => ok _
    split
    · split
      · exact error _
      · exact hfound
    · split
      · exact error _
      split
      · split
        · exact ih _
        · exact error _
      · exact hfound

theorem checkAssertion (w : Option (Write × ℕ)) (b : Bool) :
    AssertsHold (p.checkAssertion r w b) := by
  rw [PrewriteMutation.checkAssertion]
  split
  · exact ok _
  split
  · exact ok _
  refine bind ?_ fun reloaded _ => ?_
  · split
    · exact (getWriteUpTo _ _).map _
    · exact ok _
  split
  · exact ok _
  · split
    · exact (newerVersionLoop _ _).bind fun _ _ => error _
    · exact error _

theorem amendPessimisticLock : AssertsHold (p.amendPessimisticLock r) := by
  rw [PrewriteMutation.amendPessimisticLock]
  split
  · split
    · exact error _
    · refine (nextLastChangeInfo _ _ _).bind fun lc _ => ?_
      exact (checkAssertion _ _).bind fun _ _ => ok _
  · exact (checkAssertion _ _).bind fun _ _ => ok _

theorem asyncCommitTimestamps (maxTs : ℕ) (l : Lock K) (s fut c : ℕ) :
    AssertsHold (Tikv.asyncCommitTimestamps maxTs l s fut c) := by
  refine (next _).bind fun t _ => ?_
  dsimp only
  split
  · exact error _
  · exact ok _

theorem writeLock (maxTs : ℕ) (fields : PrewriteFields) (status : LockStatus) :
    AssertsHold (p.writeLock maxTs fields status) := by
  rw [PrewriteMutation.writeLock]
  split
  · exact panic rfl
  dsimp only
  split
  · refine bind ?_ fun c _ => ?_
    · rw [TransactionProperties.maxCommitTs]
      split
      · exact panic rfl
      · exact ok _
      · exact ok _
    split
    · split <;> exact ok _
    · exact ok _
    · rename_i hasync
      exact (asyncCommitTimestamps _ _ _ _ _).of_error hasync
  · exact ok _

theorem loadOldValue (w : Option (Write × ℕ)) (b : Bool) : AssertsHold (p.loadOldValue r w b) := by
  rw [PrewriteMutation.loadOldValue]
  split
  · exact ok _
  · split
    · exact ok _
    · exact getOldValue _ _ _
  · split
    · exact ok _
    · exact getOldValue _ _ _
  · exact ok _

theorem prewriteUnlocked (maxTs : ℕ) (fields : PrewriteFields) (status : LockStatus) (b : Bool) :
    AssertsHold (p.prewriteUnlocked maxTs r fields status b) := by
  rw [PrewriteMutation.prewriteUnlocked]
  dsimp only
  refine bind ?_ fun x _ => ?_
  · split
    · exact ok _
    · exact newerVersionLoop _ _
  refine bind ?_ fun reloaded _ => ?_
  · split
    · exact ok _
    · exact checkAssertion _ _
  split
  · split
    · exact (next _).bind fun _ _ => ok _
    · exact ok _
  · exact (loadOldValue _ _).bind fun _ _ => (writeLock _ _ _).bind fun _ _ => ok _

theorem prewrite (maxTs : ℕ) : AssertsHold (p.prewrite maxTs r) := by
  rw [PrewriteMutation.prewrite]
  split
  · refine bind ?_ fun x _ => ?_
    · rw [PrewriteMutation.checkLock]
      split_ifs <;> first | exact error _ | exact ok _
    split
    · exact ok _
    · exact prewriteUnlocked _ _ _ _
  · split
    · exact amendPessimisticLock.bind fun _ _ => prewriteUnlocked _ _ _ _
    · exact prewriteUnlocked _ _ _ _

end

section

variable {a : AcquirePessimisticLock K}

theorem retryOnConflict {x : Res K Unit} (key : K) (info : Option ConflictInfo)
    (hx : AssertsHold x) : AssertsHold (a.retryOnConflict key info x) := by
  unfold AcquirePessimisticLock.retryOnConflict
  split
  · exact error _
  · exact hx

theorem loadOldValueForLock (b : Bool) (val : Option Value) (fut : ℕ) (loaded : Bool)
    (w : Option Write) : AssertsHold (a.loadOldValue r b val fut loaded w) := by
  unfold AcquirePessimisticLock.loadOldValue
  split
  · exact ok _
  split
  · split <;> exact ok _
  · exact getOldValue _ _ _

theorem acquireLocked (l : Lock K) : AssertsHold (a.acquireLocked r l) := by
  refine bind ?_ fun val _ => ?_
  · split
    · refine (getWriteUpTo _ _).bind fun found _ => ?_
      split
      · refine (retryOnConflict _ _ (checkDataConstraint _ _ _)).bind fun _ _ => ?_
        split
        · exact (loadData _).map _
        · exact ok _
      · exact ok _
    · exact ok _
  · exact (loadOldValueForLock _ _ _ _ _).bind fun _ _ => ok _

theorem acquireUnlocked : AssertsHold (a.acquireUnlocked r) := by
  refine bind ?_ fun x _ => ?_
  · split
    · refine bind ?_ fun y _ => bind ?_ fun _ _ => ok _
      · rw [checkNewest]
        refine bind ?_ fun info _ => ?_
        · split
          · split
            · exact ok _
            · exact error _
          · exact ok _
        split
        · split
          · exact error _
          · exact panic rfl
        split
        · exact error _
        · refine (retryOnConflict _ _ (checkDataConstraint _ _ _)).bind fun _ _ => ?_
          exact (nextLastChangeInfo _ _ _).bind fun _ _ => ok _
      · rw [loadValue]
        split
        · exact ok _
        have hskip : ∀ c : ℕ, AssertsHold (do
            let ts ← Tikv.liftPanic (TimeStamp.prev c)
            if (y.1.isSome || a.needLoadValue) = true then r.get ts
            else return (← r.getWrite ts).map fun _ => [] : Res K (Option Value)) := by
          intro c
          refine (prev c).bind fun t _ => ?_
          split
          · exact get t
          · exact (getWrite t).bind fun _ _ => ok _
        split
        · split
          · split
            · exact (loadData _).map _
            · exact ok _
          · exact ok _
        · exact ok _
        · exact hskip _
        · exact hskip _
    · exact ok _
  · refine (loadOldValueForLock _ _ _ _ _).bind fun _ _ => ?_
    dsimp only
    split
    · exact ok _
    · split
      · exact error _
      · exact ok _

theorem acquire : AssertsHold (a.acquire r) := by
  rw [AcquirePessimisticLock.acquire]
  split
  · split
    · exact error _
    split
    · exact error _
    · exact acquireLocked _
  · exact acquireUnlocked

end

theorem commitRecord (l : Lock K) (s : ℕ) : AssertsHold (l.commitRecord s) := by
  rw [Lock.commitRecord]
  split
  · exact ok _
  · exact panic rfl

theorem commit (c : ℕ) : AssertsHold (Tikv.commit r c) := by
  unfold Tikv.commit
  dsimp only
  split
  · split
    · split
      · exact error _
      split
      · exact ok _
      · exact (commitRecord _ _).bind fun _ _ => ok _
    · split <;> first | exact error _ | exact ok _
  · split <;> first | exact error _ | exact ok _

end AssertsHold

/-! ### The assertions -/

/-- The transaction `s` has committed on the key. -/
def HasCommitRecord (m : Versions Write) (s : ℕ) : Prop :=
  ∃ e ∈ m.entries, e.2.startTs = s ∧ e.2.writeType ≠ .rollback

/-- The lock is of a transaction that has not ended, or it was granted with a conflict. -/
structure LocksFresh (st : KeyState K) : Prop where
  recordsOk : RecordsOk st.write
  committed : ∀ l, st.lock = some l → HasCommitRecord st.write l.ts →
    l.isPessimisticLockWithConflict = true
  rolledBack : ∀ l, st.lock = some l → l.isPessimisticLock = true → ¬ SelfRolledBack st.write l.ts

/-- The prewrite of a transaction that has committed at `c` is one that notices. -/
def PrewriteMutation.ChecksCommit (p : PrewriteMutation K) (st : KeyState K) (c : ℕ) : Prop :=
  match p.props.kind, p.pessimisticAction with
  | .optimistic skip, _ => skip = false
  | .pessimistic _, .doPessimisticCheck => ∀ l, st.lock = some l → l.ts ≠ p.props.startTs
  | .pessimistic _, .doConstraintCheck => True
  | .pessimistic forUpdateTs, .skipPessimisticCheck =>
    p.props.isRetryRequest = true ∧ forUpdateTs < c

/-- A request of a transaction that has committed on the key is a late one, and `Cleanup` and
`Rollback` do not meet a lock of such a transaction. -/
def RequestFresh (st : KeyState K) : Op K → Prop
  | .acquirePessimisticLock a => ∀ e ∈ st.write.entries, e.2.startTs = a.startTs →
      e.2.writeType ≠ .rollback → a.forUpdateTs < e.1
  | .prewrite r => ∀ e ∈ st.write.entries, e.2.startTs = r.props.startTs →
      e.2.writeType ≠ .rollback → r.ChecksCommit st e.1
  | .cleanup s _ | .rollback s =>
    HasCommitRecord st.write s → ∀ l, st.lock = some l → l.ts ≠ s
  | _ => True

namespace AssertsHold

variable {r : SnapshotReader K}

theorem rollbackLock [DecidableEq K] {l : Lock K} (hok : RecordsOk r.write)
    (hno : ¬ HasCommitRecord r.write r.startTs) (isPess collapse : Bool) :
    AssertsHold (Tikv.rollbackLock r l isPess collapse) := by
  have hspec := r.getTxnCommitRecord_spec
  rw [Tikv.rollbackLock]
  split
  · rename_i ov hrec
    obtain ⟨record, hmake⟩ := makeRollback_ok hok hrec (r.key == l.primary || l.generation > 0)
    dsimp only
    rw [hmake]
    exact ok _
  · rename_i c w hrec
    rw [hrec] at hspec
    split
    · rename_i ht
      exact absurd ⟨(c, w), hspec.1, hspec.2.1, ht⟩ hno
    · exact ok _
  · exact ok _

theorem markRollback {s : ℕ} {l : Lock K} (hts : l.ts ≠ s) (b : Bool) :
    AssertsHold (markRollbackOnMismatchingLock s l b) := by
  rw [markRollbackOnMismatchingLock, if_neg hts]
  split_ifs <;> exact ok _

/-- `check_txn_status` without a lock of the transaction. -/
theorem checkTxnStatusMissingLock {mismatch : Option (Lock K)} (hok : RecordsOk r.write)
    (hne : ∀ l, mismatch = some l → l.ts ≠ r.startTs) (action : MissingLockAction)
    (resolving : Bool) :
    AssertsHold (Tikv.checkTxnStatusMissingLock r mismatch action resolving) := by
  rw [Tikv.checkTxnStatusMissingLock]
  split
  · exact ok _
  · exact ok _
  rename_i ov hrec
  split
  · exact error _
  split
  · exact ok _
  refine bind ?_ fun collapse hcollapse => ?_
  · rcases action with - | - | -
    · exact ok _
    · exact ok _
    · exact panic rfl
  refine bind ?_ fun mark _ => ?_
  · split
    · exact markRollback (hne _ rfl) _
    · exact ok _
  obtain ⟨record, hmake⟩ := makeRollback_ok hok hrec (!collapse)
  rw [MissingLockAction.constructWrite, hcollapse, ok_bind, hmake]
  exact ok _

/-- The status and the released lock come together. -/
theorem checkTxnStatusFromPessimisticPrimaryLock [DecidableEq K] {l : Lock K}
    (hok : RecordsOk r.write) (hpess : l.isPessimisticLock = true)
    (hno : HasCommitRecord r.write r.startTs → l.isPessimisticLockWithConflict = true)
    (currentTs : ℕ) (resolving : Bool) :
    AssertsHold (Tikv.checkTxnStatusFromPessimisticPrimaryLock r l currentTs resolving) ∧
      ∀ x, Tikv.checkTxnStatusFromPessimisticPrimaryLock r l currentTs resolving = .ok x →
        (∃ status released, x.2 = (some status, some released)) ∨ x.2 = (none, none) := by
  have hspec := r.getTxnCommitRecord_spec
  rw [Tikv.checkTxnStatusFromPessimisticPrimaryLock, if_neg (not_not.mpr hpess)]
  dsimp only
  split
  · refine ⟨ok _, fun x hx => ?_⟩
    cases hx
    exact Or.inl ⟨_, _, rfl⟩
  rename_i hstale
  split
  · split
    · refine ⟨ok _, fun x hx => ?_⟩
      cases hx
      exact Or.inl ⟨_, _, rfl⟩
    · -- A commit record would have been found before.
      have hno' : ¬ HasCommitRecord r.write r.startTs := by
        intro hc
        rw [if_pos (hno hc), checkDeterminedTxnStatus] at hstale
        obtain ⟨e, he, hes, -⟩ := hc
        rcases hrec : r.getTxnCommitRecord with (- | ov) | ⟨c, w⟩ | c <;> rw [hrec] at hspec hstale
        · exact hspec.1 e he (hes ▸ hok.startTs_le he) hes
        · exact hspec.2.2.1 e he (hes ▸ hok.startTs_le he) hes
        · dsimp only at hstale
          split at hstale <;> cases hstale
        · cases hstale
      refine ⟨(rollbackLock hok hno' _ _).bind fun _ _ => ok _, fun x hx => ?_⟩
      obtain ⟨y, -, hx⟩ := bind_eq_ok.mp hx
      cases hx
      exact Or.inl ⟨_, _, rfl⟩
  · refine ⟨ok _, fun x hx => ?_⟩
    cases hx
    exact Or.inr rfl

theorem pushMinCommitTs (l : Lock K) (request : CheckTxnStatus) :
    AssertsHold (Tikv.pushMinCommitTs l request) := by
  refine bind ?_ fun l' _ => ok _
  split
  · exact (next _).bind fun _ _ => ok _
  · exact ok _

section

variable {key : K} {st : KeyState K}

section

variable (h : LocksFresh st)
include h

/-- `check_txn_status` on a lock of the transaction. -/
theorem checkTxnStatusLockExists [DecidableEq K] {l : Lock K} {request : CheckTxnStatus}
    (hl : st.lock = some l) (hts : l.ts = request.lockTs) :
    AssertsHold (Tikv.checkTxnStatusLockExists (st.reader key request.lockTs) l request) := by
  have hno : HasCommitRecord st.write request.lockTs → l.isPessimisticLockWithConflict = true :=
    fun hc => h.committed l hl (hts ▸ hc)
  unfold Tikv.checkTxnStatusLockExists
  extract_lets uncommitted
  have hpush : AssertsHold uncommitted := (pushMinCommitTs l request).bind fun _ _ => ok _
  split
  · split
    · refine (checkTxnStatusMissingLock h.recordsOk (fun l' hl' => ?_) _ _).bind fun _ _ => ok _
      cases hl'
    · exact error _
  split
  · exact ok _
  split
  · rename_i hpess
    obtain ⟨hasserts, hpair⟩ := checkTxnStatusFromPessimisticPrimaryLock
      (r := st.reader key request.lockTs) h.recordsOk hpess hno request.currentTs
      request.resolvingPessimisticLock
    refine hasserts.bind fun x hx => ?_
    obtain ⟨ms, status, released⟩ := x
    rcases hpair _ hx with ⟨status', released', heq⟩ | heq <;> cases heq
    · exact ok _
    · exact hpush
  rename_i hpess
  split
  · -- The lock is not pessimistic, so its transaction has not committed.
    have hno' : ¬ HasCommitRecord st.write request.lockTs := by
      intro hc
      have hconflict := hno hc
      rw [Lock.isPessimisticLockWithConflict, Bool.and_eq_true] at hconflict
      exact hpess hconflict.1
    exact (rollbackLock (r := st.reader key request.lockTs) h.recordsOk hno' _ _).bind
      fun _ _ => ok _
  · exact hpush

theorem checkTxnStatus [DecidableEq K] (request : CheckTxnStatus) :
    AssertsHold (st.checkTxnStatus key request) := by
  unfold KeyState.checkTxnStatus
  dsimp only
  split
  · rename_i l hl
    split
    · rename_i hts
      exact (checkTxnStatusLockExists h hl hts).bind fun _ _ => ok _
    · rename_i hts
      refine checkTxnStatusMissingLock h.recordsOk (fun l' hl' => ?_) _ _
      cases hl.symm.trans hl'
      exact hts
  · rename_i hl
    refine checkTxnStatusMissingLock h.recordsOk (fun l' hl' => ?_) _ _
    cases hl.symm.trans hl'

/-- `cleanup` does not meet a lock of a transaction that has committed. -/
theorem cleanup [DecidableEq K] {s : ℕ}
    (hno : HasCommitRecord st.write s → ∀ l, st.lock = some l → l.ts ≠ s) (currentTs : ℕ)
    (protect : Bool) : AssertsHold (Tikv.cleanup (st.reader key s) currentTs protect) := by
  unfold Tikv.cleanup
  extract_lets missing
  have hmissing : (∀ l, st.lock = some l → l.ts ≠ s) → AssertsHold missing := by
    intro hne
    refine (checkTxnStatusMissingLock (r := st.reader key s) h.recordsOk hne _ _).bind
      fun x _ => ?_
    split
    · exact error _
    · exact ok _
    · exact ok _
    · exact panic rfl
  split
  · rename_i l hl
    split
    · rename_i hts
      split
      · exact error _
      · refine (rollbackLock (r := st.reader key s) h.recordsOk (fun hc => ?_) _ _).bind
          fun _ _ => ok _
        exact hno hc l hl hts
    · rename_i hts
      refine hmissing fun l' hl' => ?_
      cases hl'.symm.trans hl
      exact hts
  · rename_i hl
    refine hmissing fun l' hl' => ?_
    cases hl'.symm.trans hl

omit h in
theorem rollbackSecondary {r : SnapshotReader K} {mismatch : Option (Lock K)}
    {ov : Option OverlappedWrite} (hok : RecordsOk r.write)
    (hrec : r.getTxnCommitRecord = .none ov)
    (hne : ∀ l, mismatch = some l → l.ts ≠ r.startTs) :
    AssertsHold (Tikv.rollbackSecondary r mismatch ov) := by
  refine bind ?_ fun mark _ => ?_
  · split
    · exact markRollback (hne _ rfl) _
    · exact ok _
  obtain ⟨record, hmake⟩ := makeRollback_ok hok hrec true
  rw [hmake, ok_bind]
  split <;> exact ok _

/-- A pessimistic lock without a conflict is of a transaction without a record. -/
theorem checkStatusFromLock {l : Lock K} {s : ℕ} (hl : st.lock = some l) (hts : l.ts = s) :
    AssertsHold (Tikv.checkStatusFromLock (st.reader key s) l) := by
  rw [Tikv.checkStatusFromLock]
  dsimp only
  split
  · exact ok _
  split
  · rename_i hpess
    split
    · exact ok _
    · rename_i hconflict
      have hspec := (st.reader key s).getTxnCommitRecord_spec
      have hself : ¬ SelfRolledBack st.write s := hts ▸ h.rolledBack l hl hpess
      rcases hrec : (st.reader key s).getTxnCommitRecord with ov | ⟨c, w⟩ | c <;>
        rw [hrec] at hspec
      · exact ok _
      · obtain ⟨hmem, hws, -⟩ := hspec
        by_cases ht : w.writeType = .rollback
        · have hc : c = s := (h.recordsOk.rollback _ hmem ht).1.symm.trans hws
          exact absurd ⟨w, hc ▸ hmem, Or.inl ht⟩ hself
        · exact absurd (h.committed l hl ⟨_, hmem, hws.trans hts.symm, ht⟩) hconflict
      · obtain ⟨-, -, w, hmem, hflag⟩ := hspec
        exact absurd ⟨w, hmem, Or.inr hflag⟩ hself
  · exact ok _

/-- `check_secondary_locks` on one key. -/
theorem checkSecondaryLock {s : ℕ} :
    AssertsHold (Tikv.checkSecondaryLock (st.reader key s)) := by
  unfold Tikv.checkSecondaryLock
  extract_lets missing
  have hmissing : (∀ l, st.lock = some l → l.ts ≠ s) → AssertsHold missing := by
    intro hne
    have hspec := checkDeterminedSecondaryStatus_spec (st.reader key s)
    unfold missing
    generalize checkDeterminedSecondaryStatus (st.reader key s) = determined at hspec
    refine bind ?_ fun _ _ => ok _
    split
    · rename_i hneed
      exact rollbackSecondary h.recordsOk (hspec.1 hneed) hne
    · exact ok _
  split
  · rename_i l hl
    split
    · rename_i hts
      refine (checkStatusFromLock h hl hts).bind fun x hx => ?_
      refine bind ?_ fun _ _ => ok _
      split
      · rename_i hneed
        have hrec := ((checkStatusFromLock_spec hx).1 hneed).2
        refine rollbackSecondary h.recordsOk hrec fun l' hl' => ?_
        cases hl'
      · exact ok _
    · rename_i hts
      refine hmissing fun l' hl' => ?_
      cases hl'.symm.trans hl
      exact hts
  · rename_i hl
    refine hmissing fun l' hl' => ?_
    cases hl'.symm.trans hl

end

theorem finish {α : Type} {reply : α → Reply K} {res : Res K (List (Modify K) × α)}
    (h : AssertsHold res) : AssertsHold (st.finish reply res).1 := by
  rcases res with fault | ⟨ms, a⟩
  · exact h.of_error rfl
  · exact ok _

theorem processWrite (p : Prewrite K) : AssertsHold (p.processWrite key st).1 := by
  unfold Prewrite.processWrite
  split
  · exact error _
  dsimp only
  generalize (if p.mutation.shouldNotExist = true then st.updateMaxTs p.props.startTs else st) = st₁
  have hp : AssertsHold (p.prewrite st₁.maxTs (st₁.reader key p.props.startTs)) := prewrite _
  split
  · rw [Prewrite.finish]
    split
    · exact ok _
    · split
      · exact ok _
      · split
        · exact ok _
        · split
          · exact ok _
          · rename_i hrec
            exact (commitRecord _ _).of_error hrec
  · split <;> exact ok _
  · split
    · exact ok _
    · exact error _
  · rename_i hres
    exact hp.of_error hres

theorem acquireProcessWrite (a : AcquirePessimisticLock K) :
    AssertsHold (a.processWrite key st).1 := by
  rw [AcquirePessimisticLock.processWrite]
  split
  · exact error _
  dsimp only
  split
  · exact ok _
  · rename_i hres
    exact acquire.of_error hres

/-- No request fails one of the assertions. -/
theorem step [DecidableEq K] (h : LocksFresh st) {op : Op K} (hop : RequestFresh st op) :
    AssertsHold (st.step key op).1 := by
  rcases op with p | a | ⟨s, fut⟩ | ⟨s, c⟩ | ⟨s, currentTs⟩ | s | request | s | ts
  · exact (processWrite p).map _
  · exact (acquireProcessWrite a).map _
  · exact (ok _).finish
  · rw [KeyState.step]
    split
    · exact error _
    · exact (commit c).finish
  · have h' : LocksFresh (st.updateMaxTs s) := { h with }
    exact (cleanup h' hop _ _).finish
  · exact (cleanup h hop _ _).finish
  · have h' : LocksFresh (st.updateMaxTs (KeyState.newMaxTs request)) := { h with }
    exact (checkTxnStatus h' request).finish
  · have h' : LocksFresh (st.updateMaxTs s) := { h with }
    exact (checkSecondaryLock h').finish
  · exact ok _

end

end AssertsHold

/-! ### The invariant -/

section

variable {key : K} {st st' : KeyState K} {op : Op K} {m m' : Versions Write} {s s' : ℕ}

/-- A rollback writes no commit record. -/
theorem HasCommitRecord.of_rolledBackTo {isProt : Bool} (hw : RolledBackTo m s' isProt m')
    (h : HasCommitRecord m' s) : HasCommitRecord m s := by
  obtain ⟨e, he, hes, ht⟩ := h
  obtain ⟨w, hmem, hcore⟩ := hw.core_of_mem he ht
  exact ⟨(e.1, w), hmem, (Write.startTs_of_core hcore).trans hes,
    by rwa [Write.writeType_of_core hcore]⟩

/-- The rollback of another transaction does not roll `s` back. -/
theorem SelfRolledBack.of_rolledBackTo {isProt : Bool} (hw : RolledBackTo m s' isProt m')
    (hne : s ≠ s') (h : SelfRolledBack m' s) : SelfRolledBack m s := by
  obtain ⟨w, hmem, hroll⟩ := h
  rcases hw.of_mem hmem with hmem | ⟨heq, -⟩ | ⟨w', fence, -, heq, -, -⟩
  · exact ⟨w, hmem, hroll⟩
  · cases heq
    exact absurd rfl hne
  · cases heq
    exact absurd rfl hne

/-- A late prewrite of a committed transaction fails. -/
theorem RequestFresh.not_committed {r : Prewrite K} (h : RequestFresh st (.prewrite r))
    (hok : RecordsOk st.write) (hp : r.Prewritable (st.reader key r.props.startTs)) :
    ¬ HasCommitRecord st.write r.props.startTs := by
  rintro ⟨e, he, hes, ht⟩
  have hlt : r.props.startTs < e.1 := hes ▸ hok.commit e he ht
  have hcheck := h e he hes ht
  have hnewer := hp.newer
  rw [PrewriteMutation.skipConstraintCheck, PrewriteMutation.NewerVersionChecked] at hnewer
  rw [PrewriteMutation.ChecksCommit] at hcheck
  rcases hk : r.props.kind with skip | forUpdateTs
  · rw [hk] at hcheck hnewer
    exact absurd ((hnewer hcheck).1 e he) (not_le.mpr hlt)
  rcases ha : r.pessimisticAction with - | - | - <;> rw [hk, ha] at hcheck hnewer
  · have hle := (hnewer (by simp [hcheck.1])).2.1 e he ht
    exact absurd hle (not_le.mpr hcheck.2)
  · have hnone : st.lock = none := by
      rcases hl : st.lock with - | l
      · rfl
      · exact absurd (hp.lock l hl).1 (hcheck l hl)
    exact absurd (hp.amend hnone ha e he) (not_lt.mpr hlt.le)
  · exact absurd ((hnewer rfl).1 rfl e he) (not_le.mpr hlt)

theorem LocksFresh.empty : LocksFresh ({} : KeyState K) := by
  refine ⟨.empty, fun l hl => ?_, fun l hl => ?_⟩ <;> cases hl

/-- Changes by requests that are fresh leave locks that are fresh. -/
theorem LocksFresh.change (h : LocksFresh st) (hc : Change key st op st')
    (hop : RequestFresh st op) : LocksFresh st' := by
  have hok := hc.writeChange.recordsOk h.recordsOk
  cases hc with
  | keep => exact ⟨hok, h.committed, h.rolledBack⟩
  | unlock | onePc | commit =>
    refine ⟨hok, fun l' hl' => ?_, fun l' hl' => ?_⟩ <;> cases hl'
  | @prewrite r l m _ hp hw =>
    refine ⟨hok, fun l' hl' hcom => ?_, fun l' hl' hpess => ?_⟩
    · cases hl'
      rw [hw.ts] at hcom
      exact absurd hcom (hop.not_committed h.recordsOk hp)
    · -- A prewrite does not write pessimistic locks.
      cases hl'
      exact absurd (eq_of_beq hpess ▸ hw.lockType) r.mutation.lockType_ne_pessimistic
  | @acquire a l m _ _ ha =>
    have hts : l.ts = a.startTs := congrArg Lock.ts ha.lock
    have htype : l.lockType = .pessimistic := congrArg Lock.lockType ha.lock
    refine ⟨hok, fun l' hl' hcom => ?_, fun l' hl' _ => ?_⟩ <;> cases hl'
    · obtain ⟨e, he, hes, ht⟩ := hcom
      have hconflict := ha.conflict ⟨e, he, hop e he (hes.trans hts) ht⟩
      rw [Lock.isPessimisticLockWithConflict, Lock.isPessimisticLock, htype, hconflict]
      rfl
    · rw [hts]
      exact ha.notRolledBack
  | @relock a l m _ hl hts hpess =>
    refine ⟨hok, fun l' hl' hcom => ?_, fun l' hl' _ => ?_⟩ <;> cases hl'
    · rw [Lock.isPessimisticLockWithConflict, Bool.and_eq_true]
      exact ⟨rfl, h.committed l hl (hts ▸ hcom)⟩
    · have hself := h.rolledBack l hl hpess
      rwa [hts] at hself
  | @rollback _ s isProt lock' _ _ _ _ _ hlock hw =>
    have hlock' : ∀ l', lock' = some l' → ∃ l, st.lock = some l ∧ l.ts ≠ s ∧ l'.ts = l.ts ∧
        l'.isPessimisticLock = l.isPessimisticLock ∧
        l'.isPessimisticLockWithConflict = l.isPessimisticLockWithConflict := by
      rintro l' rfl
      cases hlock with
      | kept hl hts | marked hl hts => exact ⟨_, hl, hts, rfl, rfl, rfl⟩
    refine ⟨hok, fun l' hl' hcom => ?_, fun l' hl' hpess hself => ?_⟩
    · obtain ⟨l, hl, -, hts, -, hconflict⟩ := hlock' l' hl'
      rw [hconflict]
      exact h.committed l hl (hts ▸ hcom.of_rolledBackTo hw)
    · obtain ⟨l, hl, hne, hts, hp, -⟩ := hlock' l' hl'
      rw [hts] at hself
      exact h.rolledBack l hl (hp ▸ hpess) (hself.of_rolledBackTo hw hne)
  | push _ hl =>
    refine ⟨hok, fun l' hl' hcom => ?_, fun l' hl' hpess => ?_⟩ <;> cases hl'
    · have hconflict := h.committed _ hl hcom
      exact hconflict
    · have hself := h.rolledBack _ hl hpess
      exact hself

end

/-! ### Runs -/

/-- The commands on a key, when the requests of committed transactions are late. -/
def KeyState.StepFresh [DecidableEq K] (key : K) (st : KeyState K) (op : Op K)
    (st' : KeyState K) : Prop :=
  st.Step key op st' ∧ RequestFresh st op

/-- **Rolling back does not panic**, in any state the key gets into, as long as the requests of
committed transactions are late and `Cleanup` and `Rollback` do not meet their locks. -/
theorem no_rollback_panic_of_run [DecidableEq K] {key : K} {ops : List (Op K)}
    {st : KeyState K} {op : Op K} {p : Panic} (hrun : Exec (KeyState.StepFresh key) {} ops st)
    (hop : RequestFresh st op) (hp : p.isRollbackAssertion = true) :
    (st.step key op).1 ≠ .error (.panic p) := by
  have hfresh : LocksFresh st :=
    hrun.invariant (fun _ _ _ h hs => h.change (hs.1.change h.recordsOk) hs.2) .empty
  intro hpanic
  have hfalse := AssertsHold.step hfresh hop p hpanic
  rw [hp] at hfalse
  cases hfalse

/-- Transaction 5 locks the key with `for_update_ts` 5, in spite of a conflict if there is one. -/
private def forceLock : AcquirePessimisticLock ℕ where
  startTs := 5
  primary := 0
  forUpdateTs := 5
  allowLockWithConflict := true

/-- Transaction 5 locks and writes the key, and commits at 7. Then the request for the lock
arrives once more. -/
private def lateForceLock : List (Op ℕ) :=
  [.acquirePessimisticLock forceLock,
   .prewrite { props := { startTs := 5, kind := .pessimistic 5, primary := 0 }
               mutation := .put [1] .none, pessimisticAction := .doPessimisticCheck },
   .commit 5 7,
   .acquirePessimisticLock forceLock]

private theorem exec_lateForceLock :
    Exec (KeyState.StepFresh 0) {} lateForceLock (run 0 {} lateForceLock) := by
  refine .cons ⟨rfl, ?_⟩ (.cons ⟨rfl, ?_⟩ (.cons ⟨rfl, trivial⟩ (.cons ⟨rfl, ?_⟩ (.nil _))))
  · intro e he
    cases he
  · intro e he
    cases he
  · show ∀ e ∈ _, _ → _ → _
    decide

/-- `CheckTxnStatus` on the late lock finds the commit record. -/
theorem no_rollback_panic_checkTxnStatus :
    ((run 0 {} lateForceLock).step 0 (.checkTxnStatus
      { lockTs := 5, callerStartTs := 0, currentTs := 2 ^ 60, rollbackIfNotExist := true
        forceSyncCommit := false, resolvingPessimisticLock := false
        verifyIsPrimary := true })).1 ≠ .error (.panic .txnRecordFound) :=
  no_rollback_panic_of_run exec_lateForceLock trivial rfl

/-- `Cleanup` on the late lock panics: the transaction has a commit record. -/
theorem cleanup_panics_lateForceLock : ∃ (ops : List (Op ℕ)) (st : KeyState ℕ),
    Exec (KeyState.Step 0) {} ops st ∧
    (st.step 0 (.cleanup 5 0)).1 = .error (.panic .txnRecordFound) :=
  ⟨lateForceLock, _, exec_run 0 {} _, rfl⟩

end Tikv
