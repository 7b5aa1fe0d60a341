import Tikv.Foundation.Execution
import Tikv.Txn.Commands

/-!
# What a command can do to a key

Whatever command is run on a key, and whatever the key holds, the state changes in one of a few
ways: nothing happens, the lock is released, a lock is written by a prewrite or by a
pessimistic lock request, a transaction commits, in one phase or in two, a transaction is rolled
back, or `min_commit_ts` of a lock is pushed. **`Change`** lists them, each with what the command
has checked; **`step_change`** says that there are no others. Every invariant of the key is
proved from this list.
-/

namespace Tikv

open KeyState PrewriteMutation MissingLockAction

variable {K : Type}

/-- The key after the modifications of a command that has moved `max_ts` to `m`. -/
def KeyState.after (st : KeyState K) (m : ℕ) (ms : List (Modify K)) : KeyState K :=
  ({ st with maxTs := m } : KeyState K).applyAll ms

/-- The transaction a command is about. -/
def Op.startTs : Op K → Option ℕ
  | .prewrite request => some request.props.startTs
  | .acquirePessimisticLock request => some request.startTs
  | .pessimisticRollback startTs _ => some startTs
  | .commit lockTs _ => some lockTs
  | .cleanup startTs _ => some startTs
  | .rollback startTs => some startTs
  | .checkTxnStatus request => some request.lockTs
  | .checkSecondaryLocks startTs => some startTs
  | .updateMaxTs _ => none

/-- The lock of the key after a rollback of the transaction `s`. -/
inductive LockAfterRollback (st : KeyState K) (s : ℕ) (isProt : Bool) : Option (Lock K) → Prop
  | released {l : Lock K} (hl : st.lock = some l) (hts : l.ts = s) :
    LockAfterRollback st s isProt none
  | absent (hl : st.lock = none) : LockAfterRollback st s isProt none
  /-- The lock of another transaction will not overwrite a protected rollback, or there is a
  commit record at the same timestamp. -/
  | kept {l : Lock K} (hl : st.lock = some l) (hts : l.ts ≠ s)
      (hsafe : isProt = true → s < l.minCommitTs ∨ l.useAsyncCommit = false ∨
        ∃ w, (s, w) ∈ st.write.entries) : LockAfterRollback st s isProt (some l)
  /-- The lock of another transaction remembers the rollback. -/
  | marked {l : Lock K} (hl : st.lock = some l) (hts : l.ts ≠ s) (hprot : isProt = true) :
    LockAfterRollback st s isProt (some { l with rollbackTs := l.rollbackTs ++ [s] })

/-- The record a commit at `c` writes for the lock. -/
def Lock.recordAt (l : Lock K) (w : Write) (c : ℕ) : Write :=
  if c ∈ l.rollbackTs then w.setOverlappedRollback true none else w

theorem Lock.commitRecord_eq_ok {l : Lock K} {s : ℕ} {w : Write} :
    l.commitRecord s = .ok w ↔ WriteType.fromLockType l.lockType = some w.writeType ∧
      w = { writeType := w.writeType, startTs := s, shortValue := l.shortValue
            lastChange := l.lastChange, txnSource := l.txnSource } := by
  rw [commitRecord]
  split
  · rename_i writeType ht
    rw [ht]
    constructor
    · intro h
      cases h
      exact ⟨rfl, rfl⟩
    · rintro ⟨hw, h⟩
      cases hw
      rw [← h]
  · rename_i ht
    simp [ht]

/-- The record of a commit is the commit record of the lock, except for the flag. -/
theorem Lock.recordAt_spec {l : Lock K} {s c : ℕ} {w : Write} (h : l.commitRecord s = .ok w) :
    (l.recordAt w c).writeType ≠ .rollback ∧ (l.recordAt w c).startTs = s ∧
      (l.recordAt w c).core = w.core ∧ (l.recordAt w c).gcFence = none := by
  obtain ⟨ht, hw⟩ := commitRecord_eq_ok.mp h
  rw [recordAt]
  split
  · exact ⟨WriteType.fromLockType_ne_rollback ht, by rw [hw]; rfl, rfl, rfl⟩
  · exact ⟨WriteType.fromLockType_ne_rollback ht, by rw [hw], rfl, by rw [hw]⟩

/-- The ways in which a command can change the state of the key. -/
inductive Change (key : K) (st : KeyState K) : Op K → KeyState K → Prop
  | keep {op : Op K} {m : ℕ} (hm : st.maxTs ≤ m) : Change key st op { st with maxTs := m }
  | unlock {op : Op K} {l : Lock K} {m : ℕ} (hm : st.maxTs ≤ m) (hl : st.lock = some l)
      (hop : op.startTs = some l.ts) : Change key st op { st with lock := none, maxTs := m }
  | prewrite {r : Prewrite K} {l : Lock K} {m : ℕ} (hm : st.maxTs ≤ m)
      (hp : r.Prewritable (st.reader key r.props.startTs))
      (hw : r.Prewritten (st.reader key r.props.startTs) m l) :
    Change key st (.prewrite r) ⟨some l, st.write, r.storeValue st.default, m⟩
  | onePc {r : Prewrite K} {l : Lock K} {w : Write} {c m : ℕ} (hm : st.maxTs ≤ m)
      (hp : r.Prewritable (st.reader key r.props.startTs))
      (hw : r.Prewritten (st.reader key r.props.startTs) m l) (hmax : m < l.minCommitTs)
      (hs : r.props.startTs < l.minCommitTs) (hc : l.minCommitTs ≤ c)
      (hrec : l.commitRecord r.props.startTs = .ok w) :
    Change key st (.prewrite r) ⟨none, st.write.insert c w, r.storeValue st.default, m⟩
  | acquire {a : AcquirePessimisticLock K} {l : Lock K} {m : ℕ} (hm : st.maxTs ≤ m)
      (hl : st.lock = none) (ha : a.Acquired (st.reader key a.startTs) l) :
    Change key st (.acquirePessimisticLock a) { st with lock := some l, maxTs := m }
  | relock {a : AcquirePessimisticLock K} {l : Lock K} {m : ℕ} (hm : st.maxTs ≤ m)
      (hl : st.lock = some l) (hts : l.ts = a.startTs) (hpess : l.isPessimisticLock = true)
      (hlt : l.forUpdateTs < a.forUpdateTs) :
    Change key st (.acquirePessimisticLock a)
      { st with
        lock := some (a.newLock a.forUpdateTs l.lastChange l.isPessimisticLockWithConflict)
        maxTs := m }
  | commit {l : Lock K} {w : Write} {c : ℕ} (hl : st.lock = some l) (hs : l.ts < c)
      (hc : l.minCommitTs ≤ c) (hrec : l.commitRecord l.ts = .ok w) :
    Change key st (.commit l.ts c)
      { st with lock := none, write := st.write.insert c (l.recordAt w c) }
  | rollback {op : Op K} {s : ℕ} {isProt : Bool} {lock' : Option (Lock K)}
      {write' : Versions Write} {default' : Versions Value} {m : ℕ} (hm : st.maxTs ≤ m)
      (hop : op.startTs = some s) (hlock : LockAfterRollback st s isProt lock')
      (hw : RolledBackTo st.write s isProt write')
      (hd : default' = st.default ∨ default' = st.default.erase s) :
    Change key st op ⟨lock', write', default', m⟩
  | push {request : CheckTxnStatus} {l : Lock K} {m' m : ℕ} (hm : st.maxTs ≤ m)
      (hl : st.lock = some l) (hts : l.ts = request.lockTs) (hle : l.minCommitTs ≤ m') :
    Change key st (.checkTxnStatus request)
      { st with lock := some { l with minCommitTs := m' }, maxTs := m }

namespace Change

variable {key : K} {st st' : KeyState K} {op : Op K}

theorem writeChange (h : Change key st op st') : WriteChange st.write st'.write := by
  cases h with
  | onePc _ _ _ _ hs hc hrec =>
    obtain ⟨ht, hw⟩ := Lock.commitRecord_eq_ok.mp hrec
    exact .commit (WriteType.fromLockType_ne_rollback ht)
      (by rw [hw]; exact hs.trans_le hc) (by rw [hw])
  | commit _ hs _ hrec =>
    obtain ⟨ht, hts, -, hfence⟩ := Lock.recordAt_spec hrec
    exact .commit ht (hts ▸ hs) hfence
  | rollback _ _ _ hw => exact .rollback hw
  | _ => exact .same

end Change

/-! ### Prewrite -/

section

variable {key : K} {st : KeyState K} {l : Lock K} {reader : SnapshotReader K}

theorem PrewriteMutation.applyAll_putLock {p : PrewriteMutation K} (st : KeyState K)
    (l : Lock K) : st.applyAll (p.values ++ [.putLock l]) =
      { st with lock := some l, default := p.storeValue st.default } := by
  rw [applyAll_append, applyAll_values]
  rfl

/-- Writing the buffer of a prewrite. -/
theorem Prewrite.finish_change {r : Prewrite K} {buffer : PrewriteBuffer K} {ts m : ℕ}
    (hm : st.maxTs ≤ m) (hp : r.Prewritable (st.reader key r.props.startTs))
    (hw : r.Prewritten (st.reader key r.props.startTs) m l)
    (hb : r.Buffered (st.reader key r.props.startTs) m l buffer (.ok ts)) :
    Change key st (.prewrite r) (r.finish { st with maxTs := m } buffer ts).2 := by
  rcases hb with rfl | ⟨rfl, hts, hmax, hs⟩
  · -- The lock is in the buffer, whatever is reported.
    have happly : (r.finish { st with maxTs := m } ⟨r.values ++ [.putLock l], none⟩ ts).2 =
        ⟨some l, st.write, r.storeValue st.default, m⟩ := by
      rw [finish]
      split <;> exact applyAll_putLock _ l
    rw [happly]
    exact .prewrite hm hp hw
  · cases hts
    rw [finish, if_neg (by simp; omega)]
    dsimp only
    split
    · rw [applyAll_putLock]
      -- The flag of a lock in memory does not matter once the lock is written.
      exact .prewrite hm hp { hw with }
    · split
      · rename_i w hrec
        rw [List.append_assoc, applyAll_append, applyAll_values]
        have hlock : ∀ default', (applyAll ⟨st.lock, st.write, default', m⟩
            ([.putWrite (max l.minCommitTs r.othersMinCommitTs) w] ++
              if (st.reader key r.props.startTs).lock.isSome then [.deleteLock] else [])) =
            ⟨none, st.write.insert (max l.minCommitTs r.othersMinCommitTs) w, default', m⟩ := by
          rcases hl : st.lock with - | l₀ <;> simp [reader, hl, apply]
        rw [hlock]
        exact .onePc hm hp hw hmax hs (le_max_left _ _) hrec
      · exact .keep hm

/-- `Prewriter::process_write`. -/
theorem Prewrite.processWrite_change (r : Prewrite K) :
    Change key st (.prewrite r) (r.processWrite key st).2 := by
  rw [processWrite]
  split
  · exact .keep le_rfl
  obtain ⟨m, hm, hst⟩ : ∃ m, st.maxTs ≤ m ∧
      (if r.mutation.shouldNotExist then st.updateMaxTs r.props.startTs else st) =
        { st with maxTs := m } := by
    split
    · exact ⟨_, le_updateMaxTs _ _, rfl⟩
    · exact ⟨_, le_rfl, rfl⟩
  rw [hst]
  dsimp only
  split
  · rename_i buffer ts old hok
    rcases prewrite_spec hok with rfl | ⟨hp, l, hb, hw⟩
    · rw [finish]
      split <;> exact .keep hm
    · exact finish_change hm hp hw hb
  · rename_i buffer e old hok
    split
    · exact .keep hm
    · rcases prewrite_spec hok with rfl | ⟨hp, l, hb, hw⟩
      · exact .keep hm
      · rcases hb with rfl | ⟨-, he, -, -⟩
        · dsimp only
          rw [applyAll_putLock]
          exact .prewrite hm hp hw
        · cases he
  · split <;> exact .keep hm
  · exact .keep hm

/-! ### Pessimistic locks -/

/-- `AcquirePessimisticLock::process_write`. -/
theorem AcquirePessimisticLock.processWrite_change (a : AcquirePessimisticLock K) :
    Change key st (.acquirePessimisticLock a) (a.processWrite key st).2 := by
  rw [processWrite]
  split
  · exact .keep le_rfl
  obtain ⟨m, hm, hst⟩ : ∃ m, st.maxTs ≤ m ∧
      (if a.shouldNotExist || a.needValue || a.needCheckExistence
        then st.updateMaxTs a.forUpdateTs else st) = { st with maxTs := m } := by
    split
    · exact ⟨_, le_updateMaxTs _ _, rfl⟩
    · exact ⟨_, le_rfl, rfl⟩
  rw [hst]
  dsimp only
  split
  · rename_i ms res hok
    rw [acquire] at hok
    split at hok
    · rename_i l hl
      split at hok
      · cases hok
      rename_i hts
      split_ifs at hok with hpess
      rcases acquireLocked_spec hok with rfl | ⟨hlt, rfl⟩
      · exact .keep hm
      · exact .relock hm hl (not_not.mp hts) (by simpa using hpess) hlt
    · rename_i hl
      rcases acquireUnlocked_spec hok with rfl | ⟨l, rfl, ha⟩
      · exact .keep hm
      · exact .acquire hm hl ha
  · exact .keep hm

/-- The action of `PessimisticRollback`. -/
theorem pessimisticRollback_change (startTs forUpdateTs : ℕ) :
    Change key st (.pessimisticRollback startTs forUpdateTs)
      (st.applyAll (pessimisticRollback (st.reader key startTs) forUpdateTs).1) := by
  rw [pessimisticRollback]
  split
  · rename_i l hl
    split
    · rename_i hc
      exact .unlock le_rfl hl (by rw [hc.2.1]; rfl)
    · exact .keep le_rfl
  · exact .keep le_rfl

/-! ### Commit -/

variable {ms : List (Modify K)}

/-- `commit` turns the lock into a record. -/
theorem commit_change {lockTs commitTs : ℕ} {released : Option (ReleasedLock K)}
    (hlt : lockTs < commitTs) (h : commit (st.reader key lockTs) commitTs = .ok (ms, released)) :
    Change key st (.commit lockTs commitTs) (st.applyAll ms) := by
  unfold commit at h
  extract_lets missing at h
  -- Without a lock of the transaction nothing is written.
  have hmissing : missing = .ok (ms, released) →
      Change key st (.commit lockTs commitTs) (st.applyAll ms) := by
    intro h
    unfold missing at h
    split at h <;> cases h <;> exact .keep le_rfl
  split at h
  · rename_i l hl
    split at h
    · rename_i hts
      split at h
      · cases h
      rename_i hmin
      split at h
      · cases h
        exact .unlock le_rfl hl (by rw [hts]; rfl)
      · obtain ⟨w, hrec, h⟩ := bind_eq_ok.mp h
        cases h
        subst hts
        exact .commit hl hlt (Nat.le_of_not_lt hmin) hrec
    · exact hmissing h
  · exact hmissing h

/-! ### Rollback -/

theorem KeyState.applyAll_putWrites (st : KeyState K) (s : ℕ) (record : Option Write) :
    st.applyAll (record.toList.map (.putWrite s)) =
      { st with write := record.elim st.write (st.write.insert s) } := by
  rcases record with - | w <;> rfl

theorem KeyState.applyAll_deleteWrites (st : KeyState K) (collapsed : Option ℕ) :
    st.applyAll (collapsed.toList.map .deleteWrite) =
      { st with write := collapsed.elim st.write st.write.erase } := by
  rcases collapsed with - | c <;> rfl

/-- The record is written and then the previous rollback is collapsed. -/
theorem KeyState.applyAll_putCollapse (st : KeyState K) (s : ℕ) (record : Option Write)
    (collapsed : Option ℕ) :
    st.applyAll (record.toList.map (.putWrite s) ++ collapsed.toList.map .deleteWrite) =
      { st with write := rollbackTo st.write s record collapsed } := by
  rw [applyAll_append, applyAll_putWrites, applyAll_deleteWrites]
  rfl

theorem rollbackTo_eq_collapsePut {m : Versions Write} {s : ℕ} {record : Option Write}
    {collapsed : Option ℕ} (h : Collapses m s collapsed) :
    rollbackTo m s record collapsed =
      record.elim (collapsed.elim m m.erase) ((collapsed.elim m m.erase).insert s) := by
  rcases collapsed with - | c <;> rcases record with - | w <;> try rfl
  exact (Versions.erase_insert_comm (h c rfl).1).symm

theorem ite_collapsePrevRollback (reader : SnapshotReader K) (b : Bool) :
    (if b then collapsePrevRollback reader else []) =
      (if b then prevRollback reader else none).toList.map .deleteWrite := by
  cases b <;> rfl

theorem Collapses.ite (hok : RecordsOk reader.write)
    (hno : SnapshotReader.NoRecordOf reader.write reader.startTs) (b : Bool) :
    Collapses reader.write reader.startTs (if b then prevRollback reader else none) := by
  split
  · exact collapses_prevRollback hok hno
  · exact collapses_none

/-- The rollback is marked in the lock of another transaction, or not needed. -/
theorem markRollbackOnMismatchingLock_spec {s : ℕ} {isProt : Bool}
    (h : markRollbackOnMismatchingLock s l isProt = .ok ms) :
    l.ts ≠ s ∧
      (ms = [.putLock { l with rollbackTs := l.rollbackTs ++ [s] }] ∧ isProt = true ∨ ms = [] ∧
        (isProt = true → s < l.minCommitTs ∨ l.useAsyncCommit = false)) := by
  rw [markRollbackOnMismatchingLock] at h
  split at h
  · cases h
  rename_i hts
  refine ⟨hts, ?_⟩
  split at h
  · rename_i hp
    cases h
    exact Or.inr ⟨rfl, fun hp' => by simp [hp'] at hp⟩
  rename_i hp
  split at h
  · rename_i hlt
    cases h
    exact Or.inr ⟨rfl, fun _ => Or.inl hlt⟩
  split at h
  · rename_i ha
    cases h
    exact Or.inr ⟨rfl, fun _ => Or.inr (by simpa using ha)⟩
  · cases h
    exact Or.inl ⟨rfl, by simpa using hp⟩

/-- What `mark_rollback_on_mismatching_lock` and the release of a lock leave of the lock. -/
theorem lockAfterRollback_of_mark {s m : ℕ} {isProt : Bool} (hl : st.lock = some l)
    (h : markRollbackOnMismatchingLock s l isProt = .ok ms) :
    ∃ lock', LockAfterRollback st s isProt lock' ∧
      ∀ write, (applyAll ⟨st.lock, write, st.default, m⟩ ms) =
        ⟨lock', write, st.default, m⟩ := by
  obtain ⟨hts, ⟨rfl, hprot⟩ | ⟨rfl, hsafe⟩⟩ := markRollbackOnMismatchingLock_spec h
  · exact ⟨_, .marked hl hts hprot, fun _ => rfl⟩
  · refine ⟨_, .kept hl hts fun hp => ?_, fun _ => by rw [hl]; rfl⟩
    exact (hsafe hp).imp_right Or.inl

variable {op : Op K} {s m : ℕ}

variable (key st s) in
/-- The transaction `s` is known to be rolled back: its rollback is written by the transition to
`st'`, protected or not, or it was found on the key. -/
inductive RolledBack (isProt : Bool) (st' : KeyState K) : Prop
  | written (hw : RolledBackTo st.write s isProt st'.write) : RolledBack isProt st'
  | found {c : ℕ} (hrec : (st.reader key s).getTxnCommitRecord.info = some (c, .rollback))
      (hw : st'.write = st.write) : RolledBack isProt st'

variable {status : TxnStatus K} {action : MissingLockAction} {resolving : Bool}

variable (key st op s m) in
/-- With the modifications `ms` the key changes, and if `rolled` then the transaction `s` is rolled
back. -/
def Settles (isProt : Bool) (ms : List (Modify K)) (rolled : Prop) : Prop :=
  Change key st op (st.after m ms) ∧ (rolled → RolledBack key st s isProt (st.after m ms))

/-- What `check_txn_status_missing_lock` writes. -/
theorem checkTxnStatusMissingLock_spec {mismatch : Option (Lock K)} (hok : RecordsOk st.write)
    (h : checkTxnStatusMissingLock (st.reader key s) mismatch action resolving = .ok (ms, status)) :
    ms = [] ∧ (status.isRolledBack = true →
        ∃ c, (st.reader key s).getTxnCommitRecord.info = some (c, .rollback)) ∨
      ∃ write' mark, RolledBackTo st.write s (action ≠ .rollback) write' ∧
      ((∃ l, mismatch = some l ∧
          markRollbackOnMismatchingLock s l (action ≠ .rollback) = .ok mark) ∨
        mark = [] ∧ (mismatch = none ∨ ∃ w, (s, w) ∈ st.write.entries)) ∧
      ∀ lock' default', (∀ write, applyAll ⟨st.lock, write, st.default, m⟩ mark =
          ⟨lock', write, default', m⟩) →
        applyAll ⟨st.lock, st.write, st.default, m⟩ ms = ⟨lock', write', default', m⟩ := by
  rw [checkTxnStatusMissingLock] at h
  split at h
  · rename_i c w hrec
    cases h
    refine Or.inl ⟨rfl, fun hs => ?_⟩
    rw [hrec]
    split at hs
    · rename_i ht
      exact ⟨c, by rw [TxnCommitRecord.info, ht]⟩
    · cases hs
  · rename_i c hrec
    cases h
    exact Or.inl ⟨rfl, fun _ => ⟨c, by rw [hrec]; rfl⟩⟩
  rename_i ov hrec
  split at h
  · cases h
  split at h
  · cases h
    exact Or.inl ⟨rfl, nofun⟩
  obtain ⟨collapse, hcollapse, h⟩ := bind_eq_ok.mp h
  obtain ⟨mark, hmark, h⟩ := bind_eq_ok.mp h
  obtain ⟨record, hrecord, h⟩ := bind_eq_ok.mp h
  cases h
  rw [constructWrite, hcollapse, ok_bind] at hrecord
  have hprot : (!collapse) = decide (action ≠ .rollback) ∧
      decide (action = .protectedRollback) = decide (action ≠ .rollback) := by
    cases action <;> cases hcollapse <;> exact ⟨rfl, rfl⟩
  rw [hprot.1] at hrecord
  obtain ⟨hno, hrecord⟩ := makeRollback_spec hrec hrecord
  have hcol : Collapses st.write s (if collapse then prevRollback (st.reader key s) else none) :=
    .ite hok hno collapse
  refine Or.inr ⟨_, mark, ⟨hno, record, _, hrecord, hcol, rfl⟩, ?_, ?_⟩
  · split at hmark
    · rw [hprot.2] at hmark
      exact Or.inl ⟨_, rfl, hmark⟩
    · rename_i hne
      cases hmark
      refine Or.inr ⟨rfl, ?_⟩
      rcases mismatch with - | l
      · exact Or.inl rfl
      rcases ov with - | ov
      · exact absurd rfl (hne l rfl)
      · have hspec := (st.reader key s).getTxnCommitRecord_spec
        rw [hrec] at hspec
        exact Or.inr ⟨_, hspec.1⟩
  · intro lock' default' hlock
    rw [ite_collapsePrevRollback, applyAll_append, applyAll_append,
      applyAll_deleteWrites, hlock, applyAll_putWrites]
    exact congrArg (mk lock' · default' m) (rollbackTo_eq_collapsePut hcol).symm

/-- `check_txn_status_missing_lock` on a key without a lock of the transaction. -/
theorem checkTxnStatusMissingLock_change (hok : RecordsOk st.write) (hm : st.maxTs ≤ m)
    (hop : op.startTs = some s) (hlock : ∀ l, st.lock = some l → l.ts ≠ s)
    (h : checkTxnStatusMissingLock (st.reader key s) st.lock action resolving = .ok (ms, status)) :
    Settles key st op s m (action ≠ .rollback) ms (status.isRolledBack = true) := by
  rcases checkTxnStatusMissingLock_spec (m := m) hok h with
    ⟨rfl, hfound⟩ | ⟨write', mark, hw, hmark, happly⟩
  · refine ⟨.keep hm, fun hs => ?_⟩
    obtain ⟨c, hrec⟩ := hfound hs
    exact .found hrec rfl
  obtain ⟨lock', hlock', hmarked⟩ : ∃ lock',
      LockAfterRollback st s (action ≠ .rollback) lock' ∧
      ∀ write, applyAll ⟨st.lock, write, st.default, m⟩ mark =
        ⟨lock', write, st.default, m⟩ := by
    rcases hmark with ⟨l, hl, hmark⟩ | ⟨rfl, hmark⟩
    · exact lockAfterRollback_of_mark hl hmark
    · refine ⟨st.lock, ?_, fun _ => rfl⟩
      rcases hl : st.lock with - | l
      · exact .absent hl
      · refine .kept hl (hlock l hl) fun _ => Or.inr (Or.inr ?_)
        exact hmark.resolve_left (by simp [hl])
  rw [Settles, after, happly lock' st.default hmarked]
  exact ⟨.rollback hm hop hlock' hw (Or.inl rfl), fun _ => .written hw⟩

/-- `check_txn_status_missing_lock` for a lock that turned out not to be the primary's. -/
theorem checkTxnStatusMissingLock_change_deleteLock (hok : RecordsOk st.write) (hm : st.maxTs ≤ m)
    (hop : op.startTs = some s) (hl : st.lock = some l) (hts : l.ts = s)
    (h : checkTxnStatusMissingLock (st.reader key s) none action resolving = .ok (ms, status)) :
    Settles key st op s m (action ≠ .rollback) (ms ++ [.deleteLock])
      (status.isRolledBack = true) := by
  rw [Settles, after, applyAll_append]
  rcases checkTxnStatusMissingLock_spec (m := m) hok h with
    ⟨rfl, hfound⟩ | ⟨write', mark, hw, hmark, happly⟩
  · refine ⟨.unlock hm hl (by rw [hop, hts]), fun hs => ?_⟩
    obtain ⟨c, hrec⟩ := hfound hs
    exact .found hrec rfl
  · obtain ⟨l', hl', -⟩ | ⟨rfl, -⟩ := hmark
    · cases hl'
    rw [happly st.lock st.default fun _ => rfl]
    exact ⟨.rollback hm hop (.released hl hts) hw (Or.inl rfl), fun _ => .written hw⟩

theorem pushMinCommitTs_change {request : CheckTxnStatus} (hm : st.maxTs ≤ m)
    (hl : st.lock = some l) (hts : l.ts = request.lockTs)
    (h : pushMinCommitTs l request = .ok (ms, status)) :
    Change key st (.checkTxnStatus request) (st.after m ms) ∧ status.isRolledBack = false := by
  obtain ⟨l', hl', h⟩ := bind_eq_ok.mp h
  cases h
  refine ⟨?_, rfl⟩
  split
  · rename_i hpush
    rw [if_pos hpush] at hl'
    obtain ⟨next, hnext, hl'⟩ := bind_eq_ok.mp hl'
    cases hl'
    refine .push hm hl hts ?_
    have hle := (of_decide_eq_true hpush).2.2
    obtain ⟨-, rfl⟩ := TimeStamp.next_eq_ok.mp (liftPanic_eq_ok.mp hnext)
    omega
  · exact .keep hm

section

variable [DecidableEq K] {ms : List (Modify K)} {l : Lock K}

section

variable (hok : RecordsOk st.write)
include hok

/-- `rollback_lock` on the lock of the transaction. -/
theorem rollbackLock_change {isPess collapse : Bool} {released : ReleasedLock K}
    (hm : st.maxTs ≤ m) (hop : op.startTs = some s) (hl : st.lock = some l) (hts : l.ts = s)
    (h : rollbackLock (st.reader key s) l isPess collapse = .ok (ms, released)) :
    Change key st op (st.after m ms) ∧
      RolledBack key st s (key == l.primary || l.generation > 0) (st.after m ms) := by
  have hunlock : Change key st op { st with lock := none, maxTs := m } :=
    .unlock hm hl (by rw [hop, hts])
  rw [rollbackLock] at h
  split at h
  · rename_i ov hrec
    obtain ⟨record, hmake, h⟩ := bind_eq_ok.mp h
    cases h
    obtain ⟨hno, hrecord⟩ := makeRollback_spec hrec hmake
    -- The value of the lock may be deleted first.
    obtain ⟨default', hd, hvalues⟩ : ∃ default',
        (default' = st.default ∨ default' = st.default.erase s) ∧
        (({ st with maxTs := m } : KeyState K).applyAll
          (if l.shortValue.isNone ∧ l.lockType = .put then [.deleteValue l.ts] else [])) =
            ⟨st.lock, st.write, default', m⟩ := by
      split
      · exact ⟨_, Or.inr rfl, by rw [hts]; rfl⟩
      · exact ⟨_, Or.inl rfl, rfl⟩
    rw [after, ite_collapsePrevRollback, applyAll_append, List.append_assoc,
      applyAll_append, hvalues]
    have hput := applyAll_putCollapse ⟨st.lock, st.write, default', m⟩ s record
    rw [show (st.reader key s).startTs = s from rfl, hput]
    have hw : RolledBackTo st.write s (key == l.primary || l.generation > 0) _ :=
      ⟨hno, record, _, hrecord, .ite hok hno collapse, rfl⟩
    exact ⟨.rollback hm hop (.released hl hts) hw hd, .written hw⟩
  · rename_i c w hrec
    split_ifs at h with ht
    cases h
    exact ⟨hunlock, .found (c := c) (by rw [hrec, TxnCommitRecord.info, not_not.mp ht]) rfl⟩
  · rename_i c hrec
    cases h
    exact ⟨hunlock, .found (c := c) (by rw [hrec]; rfl) rfl⟩

variable {reader : SnapshotReader K}

omit hok in
omit [DecidableEq K] in
/-- `check_determined_txn_status` finds the rollback of the transaction. -/
theorem checkDeterminedTxnStatus_rolledBack {status : TxnStatus K}
    (h : checkDeterminedTxnStatus reader = some status) (hs : status.isRolledBack = true) :
    ∃ c, reader.getTxnCommitRecord.info = some (c, .rollback) := by
  rw [checkDeterminedTxnStatus] at h
  split at h
  · rename_i c w hrec
    split at h
    · rename_i ht
      exact ⟨c, by rw [hrec, TxnCommitRecord.info, ht]⟩
    · cases h
      cases hs
  · rename_i c hrec
    exact ⟨c, by rw [hrec]; rfl⟩
  · cases h

omit hok in
theorem RolledBack.isProtected {st' : KeyState K}
    (h : RolledBack key st s (key == l.primary || l.generation > 0) st') (hp : l.primary = key) :
    RolledBack key st s true st' := by
  rwa [hp, beq_self_eq_true, Bool.true_or] at h

variable {released : Option (ReleasedLock K)}

/-- A pessimistic primary lock that has expired is removed. -/
theorem checkTxnStatusFromPessimisticPrimaryLock_change {currentTs : ℕ} {resolving : Bool}
    {status : Option (TxnStatus K)} (hm : st.maxTs ≤ m) (hop : op.startTs = some s)
    (hl : st.lock = some l) (hts : l.ts = s)
    (h : checkTxnStatusFromPessimisticPrimaryLock (st.reader key s) l currentTs resolving =
      .ok (ms, status, released)) :
    Settles key st op s m true ms (l.primary = key ∧ status.any TxnStatus.isRolledBack = true) := by
  have hunlock : Change key st op { st with lock := none, maxTs := m } :=
    .unlock hm hl (by rw [hop, hts])
  rw [checkTxnStatusFromPessimisticPrimaryLock] at h
  split at h
  · cases h
  dsimp only at h
  split at h
  · rename_i status' hstale
    cases h
    refine ⟨hunlock, fun hs => ?_⟩
    split_ifs at hstale
    obtain ⟨c, hrec⟩ := checkDeterminedTxnStatus_rolledBack hstale hs.2
    exact .found hrec rfl
  · split at h
    · split at h
      · cases h
        exact ⟨hunlock, fun hs => absurd hs.2 nofun⟩
      · obtain ⟨⟨ms', released'⟩, hroll, h⟩ := bind_eq_ok.mp h
        cases h
        obtain ⟨hchange, hback⟩ := rollbackLock_change hok hm hop hl hts hroll
        exact ⟨hchange, fun hp => hback.isProtected hp.1⟩
    · cases h
      exact ⟨.keep hm, fun hs => absurd hs.2 nofun⟩

/-- `check_txn_status` on a lock rolls it back or pushes it. -/
theorem checkTxnStatusLockExists_change {request : CheckTxnStatus} {status : TxnStatus K}
    (hm : st.maxTs ≤ m) (hl : st.lock = some l) (hts : l.ts = request.lockTs)
    (h : checkTxnStatusLockExists (st.reader key request.lockTs) l request =
      .ok (ms, status, released)) :
    Settles key st (.checkTxnStatus request) request.lockTs m true ms
      (l.primary = key ∧ status.isRolledBack = true) := by
  have hop : (Op.checkTxnStatus request : Op K).startTs = some request.lockTs := rfl
  unfold checkTxnStatusLockExists at h
  extract_lets uncommitted at h
  have hpush : uncommitted = .ok (ms, status, released) →
      Settles key st (.checkTxnStatus request) request.lockTs m true ms
        (l.primary = key ∧ status.isRolledBack = true) := by
    intro hx
    obtain ⟨⟨ms', status'⟩, hp, hx⟩ := bind_eq_ok.mp hx
    cases hx
    obtain ⟨hchange, hs⟩ := pushMinCommitTs_change hm hl hts hp
    exact ⟨hchange, fun hs' => absurd (hs ▸ hs'.2) Bool.false_ne_true⟩
  split at h
  · rename_i hverify
    split_ifs at h
    obtain ⟨⟨ms', status'⟩, hmiss, h⟩ := bind_eq_ok.mp h
    cases h
    obtain ⟨hchange, -⟩ := checkTxnStatusMissingLock_change_deleteLock hok hm hop hl hts hmiss
    exact ⟨hchange, fun hp => absurd hp.1.symm hverify.2⟩
  split at h
  · cases h
    exact ⟨.keep hm, fun hs => absurd hs.2 nofun⟩
  split at h
  · obtain ⟨⟨ms', status', released'⟩, hprim, h⟩ := bind_eq_ok.mp h
    split at h
    · rename_i heq
      cases heq
      cases h
      exact checkTxnStatusFromPessimisticPrimaryLock_change hok hm hop hl hts hprim
    · exact hpush h
    · cases h
  split at h
  · obtain ⟨⟨ms', released'⟩, hroll, h⟩ := bind_eq_ok.mp h
    cases h
    obtain ⟨hchange, hback⟩ := rollbackLock_change hok hm hop hl hts hroll
    exact ⟨hchange, fun hp => hback.isProtected hp.1⟩
  · exact hpush h

/-- `cleanup` rolls the transaction back. -/
theorem cleanup_change {currentTs : ℕ} {protect : Bool} (hm : st.maxTs ≤ m)
    (hop : op.startTs = some s)
    (h : cleanup (st.reader key s) currentTs protect = .ok (ms, released)) :
    Change key st op (st.after m ms) := by
  unfold cleanup at h
  extract_lets missing at h
  have hmissing : (∀ l, st.lock = some l → l.ts ≠ s) → missing = .ok (ms, released) →
      Change key st op (st.after m ms) := by
    intro hne hx
    obtain ⟨⟨ms', status⟩, hmiss, hx⟩ := bind_eq_ok.mp hx
    obtain ⟨hchange, -⟩ := checkTxnStatusMissingLock_change hok hm hop hne hmiss
    split at hx
    · cases hx
    · rename_i heq
      cases heq
      cases hx
      exact hchange
    · rename_i heq
      cases heq
      cases hx
      exact hchange
    · cases hx
  split at h
  · rename_i l hl
    split at h
    · rename_i hts
      split_ifs at h
      obtain ⟨⟨ms', released'⟩, hroll, h⟩ := bind_eq_ok.mp h
      cases h
      exact (rollbackLock_change hok hm hop hl hts hroll).1
    · rename_i hts
      refine hmissing (fun l' hl' => ?_) h
      cases hl'.symm.trans hl
      exact hts
  · rename_i hl
    refine hmissing (fun l' hl' => ?_) h
    cases hl'.symm.trans hl

/-! ### The secondary locks -/

variable {ov : Option OverlappedWrite}

omit [DecidableEq K] in
/-- What `CheckSecondaryLocks` writes for a transaction without a record. -/
theorem rollbackSecondary_spec {mismatch : Option (Lock K)}
    (hrec : (st.reader key s).getTxnCommitRecord = .none ov)
    (h : rollbackSecondary (st.reader key s) mismatch ov = .ok ms) :
    ∃ write' mark, RolledBackTo st.write s true write' ∧
      (match mismatch with
        | some lock => markRollbackOnMismatchingLock s lock true
        | none => .ok []) = .ok mark ∧
      ∀ st₁ lock', (∀ write, applyAll ⟨st₁, write, st.default, m⟩ mark =
          ⟨lock', write, st.default, m⟩) →
        applyAll ⟨st₁, st.write, st.default, m⟩ ms = ⟨lock', write', st.default, m⟩ := by
  obtain ⟨mark, hmark, h⟩ := bind_eq_ok.mp h
  obtain ⟨record, hrecord, h⟩ := bind_eq_ok.mp h
  obtain ⟨hno, hrecord⟩ := makeRollback_spec hrec hrecord
  have hput : ∀ w, record = some w → ∃ collapsed, Collapses st.write s collapsed ∧
      ms = mark ++ (record.toList.map (.putWrite s) ++ collapsed.toList.map .deleteWrite) := by
    rintro w rfl
    cases h
    exact ⟨_, collapses_prevRollback hok hno, by rw [List.append_assoc]; rfl⟩
  obtain ⟨w, rfl⟩ : ∃ w, record = some w := by
    cases hrecord <;> exact ⟨_, rfl⟩
  obtain ⟨collapsed, hcol, rfl⟩ := hput w rfl
  refine ⟨_, mark, ⟨hno, _, collapsed, hrecord, hcol, rfl⟩, hmark, fun st₁ lock' hlock => ?_⟩
  rw [applyAll_append, hlock, applyAll_putCollapse]

omit hok in
omit [DecidableEq K] in
/-- A rollback record is to be written for a transaction without a record only; otherwise the
transaction is rolled back if its record says so. -/
theorem checkDeterminedSecondaryStatus_spec (reader : SnapshotReader K) :
    let (status, needRollback, overlappedWrite) := checkDeterminedSecondaryStatus reader
    (needRollback = true → reader.getTxnCommitRecord = .none overlappedWrite) ∧
      (needRollback = false → status = .rolledBack →
        ∃ c, reader.getTxnCommitRecord.info = some (c, .rollback)) := by
  rw [checkDeterminedSecondaryStatus]
  rcases hrec : reader.getTxnCommitRecord with ov | ⟨c, w⟩ | c
  · exact ⟨fun _ => rfl, nofun⟩
  · refine ⟨nofun, fun _ hs => ⟨c, ?_⟩⟩
    split_ifs at hs with ht
    rw [TxnCommitRecord.info, not_not.mp ht]
  · exact ⟨nofun, fun _ _ => ⟨c, rfl⟩⟩

variable {status : SecondaryLockStatus K}

omit hok in
omit [DecidableEq K] in
/-- A rollback record is written for a released lock only, of a transaction without a record. -/
theorem checkStatusFromLock_spec {needRollback released : Bool}
    (h : checkStatusFromLock reader l = .ok (status, needRollback, ov, released)) :
    (needRollback = true → released = true ∧ reader.getTxnCommitRecord = .none ov) ∧
      (needRollback = false → status = .rolledBack →
        ∃ c, reader.getTxnCommitRecord.info = some (c, .rollback)) := by
  have hspec := checkDeterminedSecondaryStatus_spec reader
  rw [checkStatusFromLock] at h
  generalize checkDeterminedSecondaryStatus reader = determined at h hspec
  dsimp only at h
  split at h
  · rename_i hstale
    cases h
    exact ⟨nofun, fun _ => hspec.2 (by simpa using hstale.2)⟩
  rename_i hstale
  split at h
  · obtain ⟨ov'', hov, h⟩ := bind_eq_ok.mp h
    cases h
    refine ⟨fun _ => ⟨rfl, ?_⟩, nofun⟩
    split at hov
    · rename_i hconflict
      cases hov
      exact hspec.1 (by simpa [hconflict] using hstale)
    · rcases hrec : reader.getTxnCommitRecord with ov' | ⟨c, w⟩ | c <;>
        rw [hrec] at hov <;> cases hov
      rfl
  · cases h
    exact ⟨nofun, nofun⟩

omit [DecidableEq K] in
/-- `CheckSecondaryLocks`; a rollback is protected. -/
theorem checkSecondaryLock_change (hm : st.maxTs ≤ m) (hop : op.startTs = some s)
    (h : checkSecondaryLock (st.reader key s) = .ok (ms, status)) :
    Settles key st op s m true ms (status = .rolledBack) := by
  unfold checkSecondaryLock at h
  extract_lets missing at h
  have hmissing : (∀ l, st.lock = some l → l.ts ≠ s) → missing = .ok (ms, status) →
      Settles key st op s m true ms (status = .rolledBack) := by
    intro hne hx
    have hspec := checkDeterminedSecondaryStatus_spec (st.reader key s)
    unfold missing at hx
    generalize checkDeterminedSecondaryStatus (st.reader key s) = determined at hx hspec
    obtain ⟨ms', hroll, hx⟩ := bind_eq_ok.mp hx
    cases hx
    split at hroll
    · rename_i hneed
      obtain ⟨write', mark, hw, hmark, happly⟩ := rollbackSecondary_spec (m := m) hok
        (hspec.1 hneed) hroll
      obtain ⟨lock', hlock', hmarked⟩ : ∃ lock', LockAfterRollback st s true lock' ∧
          ∀ write, applyAll ⟨st.lock, write, st.default, m⟩ mark =
            ⟨lock', write, st.default, m⟩ := by
        split at hmark
        · rename_i l hl
          exact lockAfterRollback_of_mark hl hmark
        · rename_i hl
          cases hmark
          exact ⟨none, .absent hl, fun _ => by rw [show st.lock = none from hl]; rfl⟩
      rw [Settles, after, happly st.lock lock' hmarked]
      exact ⟨.rollback hm hop hlock' hw (Or.inl rfl), fun _ => .written hw⟩
    · rename_i hneed
      cases hroll
      refine ⟨.keep hm, fun hs => ?_⟩
      obtain ⟨c, hrec⟩ := hspec.2 (by simpa using hneed) hs
      exact .found hrec rfl
  split at h
  · rename_i l hl
    split at h
    · rename_i hts
      obtain ⟨⟨status', needRollback, ov, released⟩, hstatus, h⟩ := bind_eq_ok.mp h
      obtain ⟨ms', hroll, h⟩ := bind_eq_ok.mp h
      cases h
      have hspec := checkStatusFromLock_spec hstatus
      split at hroll
      · rename_i hneed
        obtain ⟨rfl, hrec⟩ := hspec.1 hneed
        obtain ⟨write', mark, hw, hmark, happly⟩ := rollbackSecondary_spec (m := m) hok hrec hroll
        cases hmark
        have happly := happly none none fun _ => rfl
        rw [Settles, after]
        exact happly ▸
          ⟨.rollback hm hop (.released hl hts) hw (Or.inl rfl), fun _ => .written hw⟩
      · rename_i hneed
        cases hroll
        have hfound : ∀ st' : KeyState K, st'.write = st.write → status = .rolledBack →
            RolledBack key st s true st' := by
          intro st' hw hs
          obtain ⟨c, hrec⟩ := hspec.2 (by simpa using hneed) hs
          exact .found hrec hw
        rcases released with - | -
        · exact ⟨.keep hm, hfound _ rfl⟩
        · exact ⟨.unlock hm hl (by rw [hop, ← show l.ts = s from hts]), hfound _ rfl⟩
    · rename_i hts
      exact hmissing (fun l' hl' => by cases hl'.symm.trans hl; exact hts) h
  · rename_i hl
    exact hmissing (fun l' hl' => by cases hl'.symm.trans hl) h

end

end

end

/-! ### Every command -/

section

variable [DecidableEq K] {key : K} {st : KeyState K}

omit [DecidableEq K] in
theorem KeyState.finish_change {α : Type} {op : Op K} {m : ℕ} {reply : α → Reply K}
    {res : Res K (List (Modify K) × α)} (hm : st.maxTs ≤ m)
    (h : ∀ ms a, res = .ok (ms, a) →
      Change key st op (st.after m ms)) :
    Change key st op (({ st with maxTs := m } : KeyState K).finish reply res).2 := by
  rcases res with fault | ⟨ms, a⟩
  · exact .keep hm
  · exact h ms a rfl

/-- `CheckTxnStatus`; on the primary key of the transaction a rollback is protected. -/
theorem checkTxnStatus_change {request : CheckTxnStatus} {m : ℕ} {ms : List (Modify K)}
    {status : TxnStatus K} (hok : RecordsOk st.write) (hm : st.maxTs ≤ m)
    (h : ({ st with maxTs := m } : KeyState K).checkTxnStatus key request = .ok (ms, status)) :
    Settles key st (.checkTxnStatus request) request.lockTs m true ms
      ((∀ l, st.lock = some l → l.ts = request.lockTs → l.primary = key) ∧
        status.isRolledBack = true) := by
  have hop : (Op.checkTxnStatus request : Op K).startTs = some request.lockTs := rfl
  have hmissing : (∀ l, st.lock = some l → l.ts ≠ request.lockTs) →
      checkTxnStatusMissingLock (st.reader key request.lockTs) st.lock
        (.ofRollbackIfNotExist request.rollbackIfNotExist) request.resolvingPessimisticLock =
          .ok (ms, status) → _ := fun hne hmiss =>
    checkTxnStatusMissingLock_change hok hm hop hne hmiss
  have hprot : decide (ofRollbackIfNotExist request.rollbackIfNotExist ≠
      .rollback) = true := by
    rw [ofRollbackIfNotExist]
    split <;> rfl
  rw [hprot] at hmissing
  unfold checkTxnStatus at h
  dsimp only at h
  split at h
  · rename_i l hl
    split at h
    · rename_i hts
      obtain ⟨⟨ms', status', released⟩, hexists, h⟩ := bind_eq_ok.mp h
      cases h
      obtain ⟨hchange, hback⟩ := checkTxnStatusLockExists_change hok hm hl hts hexists
      exact ⟨hchange, fun hp => hback ⟨hp.1 l hl hts, hp.2⟩⟩
    · rename_i hts
      obtain ⟨hchange, hback⟩ := hmissing (fun l' hl' => by cases hl'.symm.trans hl; exact hts) h
      exact ⟨hchange, fun hp => hback hp.2⟩
  · rename_i hl
    obtain ⟨hchange, hback⟩ := hmissing (fun l' hl' => by cases hl'.symm.trans hl) h
    exact ⟨hchange, fun hp => hback hp.2⟩

/-- Whatever a command does is one of the changes. -/
theorem step_change (hok : RecordsOk st.write) (op : Op K) :
    Change key st op (st.step key op).2 := by
  have hmax : ∀ ts, st.maxTs ≤ Tikv.updateMaxTs st.maxTs ts := fun ts => le_updateMaxTs ..
  rcases op with r | a | ⟨s, fut⟩ | ⟨s, c⟩ | ⟨s, currentTs⟩ | s | request | s | ts
  · exact r.processWrite_change
  · exact a.processWrite_change
  · exact pessimisticRollback_change s fut
  · rw [step]
    split
    · exact .keep le_rfl
    · rename_i hlt
      exact finish_change le_rfl fun ms a h => commit_change (not_le.mp hlt) h
  · exact finish_change (hmax s) fun ms a h => cleanup_change hok (hmax s) rfl h
  · exact finish_change le_rfl fun ms a h => cleanup_change hok le_rfl rfl h
  · refine finish_change (hmax _) fun ms status h => ?_
    exact (checkTxnStatus_change hok (hmax _) h).1
  · exact finish_change (hmax s) fun ms a h =>
      (checkSecondaryLock_change hok (hmax s) rfl h).1
  · exact .keep (hmax ts)

end

/-! ### Runs -/

theorem RecordsOk.empty : RecordsOk ∅ := ⟨nofun, nofun⟩

namespace KeyState

/-- One command on the key, as a transition of the key. -/
def Step [DecidableEq K] (key : K) (st : KeyState K) (op : Op K) (st' : KeyState K) : Prop :=
  st' = (st.step key op).2

/-- The state after the commands. -/
def run [DecidableEq K] (key : K) (st : KeyState K) (ops : List (Op K)) : KeyState K :=
  ops.foldl (fun st op => (st.step key op).2) st

/-- The commit record is not on the key yet. A commit record that only gets the flag or the fence
of an overlapped rollback is not a new one. -/
def IsNewCommit (st : KeyState K) (e : ℕ × Write) : Prop :=
  e.2.writeType ≠ .rollback ∧ ∀ e' ∈ st.write.entries, e'.1 = e.1 → e'.2.core ≠ e.2.core

/-- A transition to `st'` commits above every commit record the key has. -/
def CommitsAbove (st st' : KeyState K) : Prop :=
  ∀ e ∈ st'.write.entries, st.IsNewCommit e →
    ∀ e' ∈ st.write.entries, e'.2.writeType ≠ .rollback → e'.1 < e.1

instance (st : KeyState K) (e : ℕ × Write) : Decidable (st.IsNewCommit e) :=
  inferInstanceAs (Decidable (_ ∧ _))

instance (st st' : KeyState K) : Decidable (st.CommitsAbove st') :=
  inferInstanceAs (Decidable (∀ _ ∈ _, _ → _))

section

variable [DecidableEq K] {key : K} {st st' : KeyState K} {op : Op K}

theorem exec_run (key : K) (st : KeyState K) (ops : List (Op K)) :
    Exec (Step key) st ops (st.run key ops) := by
  induction ops generalizing st with
  | nil => exact .nil st
  | cons op ops ih => exact .cons rfl (ih _)

theorem Step.change (h : st.Step key op st') (hok : RecordsOk st.write) :
    Change key st op st' := by
  rw [h]
  exact step_change hok op

theorem Step.recordsOk (h : st.Step key op st') (hok : RecordsOk st.write) :
    RecordsOk st'.write :=
  (h.change hok).writeChange.recordsOk hok

end

end KeyState

end Tikv
