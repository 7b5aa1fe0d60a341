import Tikv.Txn.Flush

/-!
# Pushed attributes of a lock

Others than its transaction may move two attributes of a lock: a reader pushes `min_commit_ts`
beyond its own timestamp so that it need not wait, and a lock lives as long as its `ttl` says. A
reader that was told `MinCommitTsPushed` ignores the transaction from then on, so neither
attribute may move back while the lock is on the key (`Lock.Raises`).

`prewrite` takes the larger of what the lock has and what the request asks for. A pessimistic lock
request with a larger `for_update_ts` and a flush of a later generation write a new lock from the
request alone, so where they replace the lock the request has to see to it, for each of the two
attributes on its own (`KeyState.Keeps`).
-/

namespace Tikv

open KeyState

variable {K : Type}

/-- From `l` to `l'` no pushed attribute has moved back. -/
def Lock.Raises (l l' : Lock K) : Prop := l.minCommitTs ≤ l'.minCommitTs ∧ l.ttl ≤ l'.ttl

theorem Lock.Raises.refl (l : Lock K) : l.Raises l := ⟨le_rfl, le_rfl⟩

/-! ### Prewrite -/

section Prewrite

variable {key : K} {st : KeyState K} {l l' : Lock K}

/-- A prewrite over a pessimistic lock keeps what was pushed. -/
theorem PrewriteMutation.prewrite_raises {p : PrewriteMutation K} {reader : SnapshotReader K}
    {maxTs : ℕ} {buffer : PrewriteBuffer K} {answer : PrewriteAnswer K} {old : OldValue}
    (hl : reader.lock = some l) (h : p.prewrite maxTs reader = .ok (buffer, answer, old)) :
    buffer.Locks l.Raises := by
  rw [prewrite, hl] at h
  obtain ⟨⟨status, fields⟩, hcheck, h⟩ := bind_eq_ok.mp h
  rw [checkLock] at hcheck
  split at hcheck
  · split at hcheck <;> cases hcheck
  split at hcheck
  · split at hcheck
    · cases hcheck
    split_ifs at hcheck
    cases hcheck
    refine (prewriteUnlocked_locks h).mono fun l' hl' => ⟨?_, ?_⟩
    · exact (le_max_right _ _).trans hl'.minCommitTs
    · exact (le_max_right _ _).trans_eq hl'.ttl.symm
  · split at hcheck
    · cases hcheck
    cases hcheck
    cases h
    exact .empty

/-- The locks that the request writes raise the attributes. -/
theorem Prewrite.finish_raises {r : Prewrite K} {buffer : PrewriteBuffer K} {ts : ℕ}
    (hl : st.lock = some l) (hb : buffer.Locks l.Raises)
    (h : (r.finish st buffer ts).2.lock = some l') : l.Raises l' := by
  have hkept : st.lock = some l' → l.Raises l' := fun h => by
    cases hl.symm.trans h
    exact .refl l
  have hput : (st.applyAll buffer.modifies).lock = some l' → l.Raises l' := fun h =>
    (lock_applyAll h).elim hkept (hb.1 l')
  rw [finish] at h
  split at h
  · exact hput h
  · dsimp only at h
    split at h
    · exact hput h
    · rename_i lock b hlock
      split at h
      · rcases lock_applyAll h with h | h
        · exact hkept h
        · rcases List.mem_append.mp h with h | h
          · exact hb.1 l' h
          · cases List.mem_singleton.mp h
            exact hb.2 lock b hlock
      · split at h
        · rcases lock_applyAll h with h | h
          · exact hkept h
          · rcases List.mem_append.mp h with h | h
            · rcases List.mem_append.mp h with h | h
              · exact hb.1 l' h
              · cases List.mem_singleton.mp h
            · split at h
              · cases List.mem_singleton.mp h
              · cases h
        · exact hkept h

/-- A prewrite takes the maximum with the lock that it finds. -/
theorem Prewrite.processWrite_raises {r : Prewrite K} (hl : st.lock = some l)
    (h : (r.processWrite key st).2.lock = some l') : l.Raises l' := by
  rw [processWrite] at h
  have hkept : st.lock = some l' → l.Raises l' := fun h => by
    cases hl.symm.trans h
    exact .refl l
  split at h
  · exact hkept h
  -- Only `max_ts` has changed.
  have hst : (if r.mutation.shouldNotExist then st.updateMaxTs r.props.startTs else st).lock =
      st.lock := by
    split <;> rfl
  dsimp only at h
  split at h
  · rename_i buffer ts old hok
    exact finish_raises (hst.trans hl) (PrewriteMutation.prewrite_raises (hst.trans hl) hok) h
  · rename_i buffer e old hok
    have hb := PrewriteMutation.prewrite_raises (hst.trans hl) hok
    split at h
    · exact hkept (hst.symm.trans h)
    · rcases lock_applyAll h with h | h
      · exact hkept (hst.symm.trans h)
      · exact hb.1 l' h
  · split at h <;> exact hkept (hst.symm.trans h)
  · exact hkept (hst.symm.trans h)

end Prewrite

/-! ### Runs with flushes -/

/-- The commands on a key, and flushes. -/
inductive PushOp (K : Type)
  | command (op : Op K)
  | flush (request : Flush K)

/-- The `min_commit_ts` of the lock that a lock request or a flush writes. A flush asks for the
timestamp after its start. -/
def PushOp.minCommitTs : PushOp K → Option ℕ
  | .command (.acquirePessimisticLock request) => some request.minCommitTs
  | .flush request => some (request.startTs + 1)
  | .command _ => none

/-- The `ttl` of the lock that a lock request or a flush writes. -/
def PushOp.ttl : PushOp K → Option ℕ
  | .command (.acquirePessimisticLock request) => some request.lockTtl
  | .flush request => some request.lockTtl
  | .command _ => none

namespace KeyState

section

variable [DecidableEq K]

/-- One command or flush on the key. -/
def pushStep (key : K) (st : KeyState K) : PushOp K → Res K (Reply K) × KeyState K
  | .command op => st.step key op
  | .flush request =>
    let (res, st) := request.processWrite key st
    ((fun _ => .done) <$> res, st)

/-- One command or flush, as a transition of the key. -/
def PushStep (key : K) (st : KeyState K) (op : PushOp K) (st' : KeyState K) : Prop :=
  st' = (st.pushStep key op).2

end

/-- If the lock request or the flush replaces the lock, it does not ask for less of the attribute
than the lock has. -/
def Keeps (attr : Lock K → ℕ) (asked : PushOp K → Option ℕ) (st : KeyState K) (op : PushOp K)
    (st' : KeyState K) : Prop :=
  st'.lock ≠ st.lock → ∀ l ∈ st.lock, ∀ n ∈ asked op, attr l ≤ n

/-- The key is locked by the transaction `t`. -/
def LockedBy (st : KeyState K) (t : ℕ) : Prop := ∃ l, st.lock = some l ∧ l.ts = t

end KeyState

/-- The lock has been written with what the request asks for. -/
def PushOp.Asks (op : PushOp K) (l : Lock K) : Prop :=
  (∃ n ∈ op.minCommitTs, n ≤ l.minCommitTs) ∧ ∃ n ∈ op.ttl, n ≤ l.ttl

/-- A change of the key by a command that is not a prewrite. -/
theorem Change.raises_or_asks {key : K} {st st' : KeyState K} {op : Op K} {l l' : Lock K}
    (h : Change key st op st') (hprewrite : ∀ r, op ≠ .prewrite r) (hl : st.lock = some l)
    (hl' : st'.lock = some l') : l.Raises l' ∨ PushOp.Asks (.command op) l' := by
  have hkept : st.lock = some l' → l.Raises l' := fun h => by
    cases hl.symm.trans h
    exact .refl l
  cases h with
  | keep => exact .inl (hkept hl')
  | unlock | commit => cases hl'
  | prewrite | onePc => exact absurd rfl (hprewrite _)
  | acquire _ hnone => cases hnone.symm.trans hl
  | relock =>
    cases hl'
    exact .inr ⟨⟨_, rfl, le_rfl⟩, _, rfl, le_rfl⟩
  | rollback _ _ hlock =>
    cases hlock with
    | released | absent => cases hl'
    | kept hlock =>
      cases hl'
      exact .inl (hkept hlock)
    | marked hlock =>
      cases hlock.symm.trans hl
      cases hl'
      exact .inl (.refl l)
  | push _ hlock _ hle =>
    cases hlock.symm.trans hl
    cases hl'
    exact .inl ⟨hle, le_rfl⟩

namespace KeyState

variable [DecidableEq K] {key : K} {st st' : KeyState K} {op : PushOp K} {l l' : Lock K}

/-- A step that moves a pushed attribute back has written what its request asks for. -/
theorem PushStep.raises_or_asks (h : PushStep key st op st') (hok : RecordsOk st.write)
    (hl : st.lock = some l) (hl' : st'.lock = some l') : l.Raises l' ∨ op.Asks l' := by
  cases op with
  | flush f =>
    rcases (Flush.processWrite_spec f key st).2 l' (h ▸ hl') with hsame | ⟨-, -, httl, hmin⟩
    · cases hl.symm.trans hsame
      exact .inl (.refl l)
    · exact .inr ⟨⟨_, rfl, hmin⟩, _, rfl, httl.ge⟩
  | command op =>
    cases op with
    | prewrite r => exact .inl (Prewrite.processWrite_raises hl (h ▸ hl'))
    | _ =>
      refine Change.raises_or_asks (h ▸ step_change hok _) (fun r hr => ?_) hl hl'
      cases hr

theorem PushStep.recordsOk (h : PushStep key st op st') (hok : RecordsOk st.write) :
    RecordsOk st'.write := by
  cases op with
  | command op => exact (show st.Step key op st' from h).recordsOk hok
  | flush f =>
    rw [h]
    exact (Flush.processWrite_spec f key st).1.symm ▸ hok

/-- An attribute that only such steps move back does not decrease while the requests keep it. -/
theorem le_of_keeps {attr : Lock K → ℕ} {asked : PushOp K → Option ℕ} {t : ℕ}
    {ops : List (PushOp K)}
    (hattr : ∀ {op l l'}, l.Raises l' ∨ op.Asks l' → attr l ≤ attr l' ∨ ∃ n ∈ asked op, n ≤ attr l')
    (hexec : Exec (fun s op s' => s.PushStep key op s' ∧ s.Keeps attr asked op s' ∧ s'.LockedBy t)
      st ops st')
    (hok : RecordsOk st.write) (hl : st.lock = some l) (hl' : st'.lock = some l') :
    attr l ≤ attr l' := by
  obtain ⟨-, lock, hlock, hle⟩ : RecordsOk st'.write ∧ ∃ lock, st'.lock = some lock ∧
      attr l ≤ attr lock := by
    refine hexec.invariant (I := fun s : KeyState K => RecordsOk s.write ∧
      ∃ lock, s.lock = some lock ∧ attr l ≤ attr lock) ?_ ⟨hok, l, hl, le_rfl⟩
    rintro s op s' ⟨hok, lock, hlock, hle⟩ ⟨hstep, hkeeps, lock', hlock', -⟩
    refine ⟨hstep.recordsOk hok, lock', hlock', hle.trans ?_⟩
    by_cases hsame : s'.lock = s.lock
    · rw [hlock, hlock'] at hsame
      cases hsame
      exact le_rfl
    · rcases hattr (hstep.raises_or_asks hok hlock hlock') with h | ⟨n, hn, hle⟩
      · exact h
      · exact (hkeeps hsame lock hlock n hn).trans hle
  cases hlock.symm.trans hl'
  exact hle

end KeyState

/-! ### What a reader is told -/

section Told

variable {reader : SnapshotReader K} {request : CheckTxnStatus} {ms : List (Modify K)}
  {lock lk : Lock K} {b : Bool}

/-- A transaction without a lock is not reported as uncommitted. -/
theorem checkTxnStatusMissingLock_ne {mismatch : Option (Lock K)} {action : MissingLockAction}
    {resolving : Bool} :
    checkTxnStatusMissingLock reader mismatch action resolving ≠ .ok (ms, .uncommitted lk b) := by
  intro h
  rw [checkTxnStatusMissingLock] at h
  split at h
  · split at h <;> cases h
  · cases h
  · split at h
    · cases h
    split at h
    · cases h
    obtain ⟨_, -, h⟩ := bind_eq_ok.mp h
    obtain ⟨_, -, h⟩ := bind_eq_ok.mp h
    obtain ⟨_, -, h⟩ := bind_eq_ok.mp h
    cases h

variable [DecidableEq K] {released : Option (ReleasedLock K)}

theorem checkTxnStatusFromPessimisticPrimaryLock_ne {currentTs : ℕ} {resolving : Bool} :
    checkTxnStatusFromPessimisticPrimaryLock reader lock currentTs resolving ≠
      .ok (ms, some (.uncommitted lk b), released) := by
  intro h
  rw [checkTxnStatusFromPessimisticPrimaryLock] at h
  dsimp only at h
  split at h
  · cases h
  split at h
  · rename_i status hstale
    cases h
    split_ifs at hstale
    rw [checkDeterminedTxnStatus] at hstale
    split at hstale
    · split at hstale <;> cases hstale
    · cases hstale
    · cases hstale
  · split at h
    · split at h
      · cases h
      · obtain ⟨_, -, h⟩ := bind_eq_ok.mp h
        cases h
    · cases h

/-- A live lock is reported as it is after the push. -/
theorem checkTxnStatusLockExists_uncommitted
    (h : checkTxnStatusLockExists reader lock request = .ok (ms, .uncommitted lk true, released)) :
    pushMinCommitTs lock request = .ok (ms, .uncommitted lk true) := by
  rw [checkTxnStatusLockExists] at h
  split at h
  · split_ifs at h
    obtain ⟨⟨modifies, status⟩, hmissing, h⟩ := bind_eq_ok.mp h
    cases h
    exact absurd hmissing checkTxnStatusMissingLock_ne
  split at h
  · cases h
  split at h
  · obtain ⟨⟨modifies, status, rel⟩, hpess, h⟩ := bind_eq_ok.mp h
    split at h
    · rename_i heq
      cases heq
      cases h
      exact absurd hpess checkTxnStatusFromPessimisticPrimaryLock_ne
    · obtain ⟨⟨modifies, status⟩, hpush, h⟩ := bind_eq_ok.mp h
      cases h
      exact hpush
    · cases h
  · split at h
    · obtain ⟨_, -, h⟩ := bind_eq_ok.mp h
      cases h
    · obtain ⟨⟨modifies, status⟩, hpush, h⟩ := bind_eq_ok.mp h
      cases h
      exact hpush

omit [DecidableEq K] in
/-- The lock on the key is the one that is reported, and the answer is right about it. -/
theorem pushMinCommitTs_spec (h : pushMinCommitTs lock request = .ok (ms, .uncommitted lk b)) :
    (ms = [.putLock lk] ∨ ms = [] ∧ lk = lock) ∧
      (b = true → request.callerStartTs = TimeStamp.max ∨
        request.callerStartTs < lk.minCommitTs) := by
  obtain ⟨l', hl', h⟩ := bind_eq_ok.mp h
  simp only [pure, Except.pure, Except.ok.injEq, Prod.mk.injEq, TxnStatus.uncommitted.injEq] at h
  obtain ⟨hms, rfl, hb⟩ := h
  refine ⟨?_, fun hpushed => ?_⟩
  · split at hms
    · exact Or.inl hms.symm
    · rename_i hno
      rw [if_neg hno] at hl'
      cases hl'
      exact Or.inr ⟨hms.symm, rfl⟩
  · rw [hpushed] at hb
    rcases of_decide_eq_true hb with hlt | heq
    · exact Or.inr hlt.2
    · exact Or.inl heq

/-- A reader that is told `MinCommitTsPushed` finds the lock beyond its timestamp, unless it reads
with the largest one. -/
theorem lt_minCommitTs_of_told {key : K} {st st' : KeyState K}
    (h : st.step key (.checkTxnStatus request) = (.ok (.txnStatus (.uncommitted lk true)), st'))
    (hmax : request.callerStartTs ≠ TimeStamp.max) :
    ∃ l, st'.lock = some l ∧ request.callerStartTs < l.minCommitTs := by
  rw [step] at h
  rcases hres : (st.updateMaxTs (newMaxTs request)).checkTxnStatus key request with
    e | ⟨ms, status⟩ <;> simp only [hres] at h <;> cases h
  -- Only a lock of the transaction is reported as uncommitted.
  obtain ⟨lock, hlock, hpush⟩ : ∃ lock, st.lock = some lock ∧
      pushMinCommitTs lock request = .ok (ms, .uncommitted lk true) := by
    rw [checkTxnStatus] at hres
    split at hres
    · rename_i lock hlock
      split at hres
      · obtain ⟨⟨ms', status, released⟩, hexists, hres⟩ := bind_eq_ok.mp hres
        cases hres
        exact ⟨lock, hlock, checkTxnStatusLockExists_uncommitted hexists⟩
      · exact absurd hres checkTxnStatusMissingLock_ne
    · exact absurd hres checkTxnStatusMissingLock_ne
  obtain ⟨hms, htold⟩ := pushMinCommitTs_spec hpush
  refine ⟨lk, ?_, (htold rfl).resolve_left hmax⟩
  rcases hms with rfl | ⟨rfl, rfl⟩
  · rfl
  · exact hlock

end Told

/-- **Pushed attributes do not move back.** In every run of commands and flushes on a key, from the
empty key on, while the lock of a transaction stays on the key: if no request that replaces the
lock asks for a smaller `min_commit_ts`, that of the lock does not decrease, and a reader below the
largest timestamp that was told `MinCommitTsPushed` does not find the lock at or below its
timestamp again; and if none asks for a smaller `ttl`, that of the lock does not decrease. -/
theorem pushed_attributes_keep [DecidableEq K] (key : K) (t : ℕ) (after : List (PushOp K))
    {before : List (PushOp K)} {st st' : KeyState K} {l l' : Lock K}
    (hbefore : Exec (KeyState.PushStep key) {} before st)
    (hl : st.lock = some l) (hl' : st'.lock = some l') :
    (Exec (fun s op s' => s.PushStep key op s' ∧
        s.Keeps Lock.minCommitTs PushOp.minCommitTs op s' ∧ s'.LockedBy t) st after st' →
      l.minCommitTs ≤ l'.minCommitTs ∧
      ∀ (st₀ : KeyState K) (request : CheckTxnStatus) (lk : Lock K),
        st₀.step key (.checkTxnStatus request) = (.ok (.txnStatus (.uncommitted lk true)), st) →
        request.callerStartTs ≠ TimeStamp.max → request.callerStartTs < l'.minCommitTs) ∧
    (Exec (fun s op s' => s.PushStep key op s' ∧
        s.Keeps Lock.ttl PushOp.ttl op s' ∧ s'.LockedBy t) st after st' →
      l.ttl ≤ l'.ttl) := by
  have hok : RecordsOk st.write :=
    hbefore.invariant (I := fun s : KeyState K => RecordsOk s.write)
      (fun _ _ _ h hstep => hstep.recordsOk h) RecordsOk.empty
  refine ⟨fun hafter => ?_, fun hafter => ?_⟩
  · have hle : l.minCommitTs ≤ l'.minCommitTs :=
      le_of_keeps (fun h => h.imp And.left And.left) hafter hok hl hl'
    refine ⟨hle, fun st₀ request lk htold hmax => ?_⟩
    obtain ⟨lock, hlock, hlt⟩ := lt_minCommitTs_of_told htold hmax
    cases hlock.symm.trans hl
    exact hlt.trans_le hle
  · exact le_of_keeps (fun h => h.imp And.right And.right) hafter hok hl hl'

/-- The transaction 5 asks for a pessimistic lock. -/
def lockRequest (forUpdateTs minCommitTs lockTtl : ℕ) : PushOp ℕ :=
  .command (.acquirePessimisticLock
    { startTs := 5, primary := 0, forUpdateTs, lockTtl, minCommitTs })

/-- A reader at `callerStartTs` checks the transaction 5. -/
def pushRequest (callerStartTs : ℕ) : CheckTxnStatus where
  lockTs := 5
  callerStartTs := callerStartTs
  currentTs := 0
  rollbackIfNotExist := false
  forceSyncCommit := false
  resolvingPessimisticLock := false
  verifyIsPrimary := false

/-- The transaction 5 prewrites. -/
def prewriteRequest : PushOp ℕ :=
  .command (.prewrite
    { props := { startTs := 5, kind := .pessimistic 5, primary := 0, minCommitTs := 6 }
      mutation := .put [1] .none
      pessimisticAction := .doPessimisticCheck })

/-- The transaction 5 flushes. -/
def flushRequest (generation lockTtl : ℕ) : PushOp ℕ :=
  .flush { startTs := 5, primary := 0, mutation := .put [1] .none, generation, lockTtl }

/-- The key after the requests. -/
def stateAfter (ops : List (PushOp ℕ)) : KeyState ℕ :=
  ops.foldl (fun st op => (st.pushStep 0 op).2) {}

/-- The requests of a reader at 50 that pushes the lock, with a request of the transaction before
it. -/
def pushedBy (op : PushOp ℕ) : List (PushOp ℕ) :=
  [op, .command (.checkTxnStatus (pushRequest 50))]

/-- A prewrite after a push, and a lock request that asks for less but is refused. -/
theorem pushed_attributes_keep_prewrite :
    ∃ l l', (stateAfter (pushedBy (lockRequest 5 6 9))).lock = some l ∧
      (stateAfter (pushedBy (lockRequest 5 6 9) ++ [prewriteRequest, lockRequest 20 0 0])).lock =
        some l' ∧
      l'.lockType = .put ∧ l.Raises l' ∧ 50 < l'.minCommitTs := by
  have hbefore : Exec (KeyState.PushStep 0) {} (pushedBy (lockRequest 5 6 9))
      (stateAfter (pushedBy (lockRequest 5 6 9))) := .cons rfl (.cons rfl (.nil _))
  have hafter {attr : Lock ℕ → ℕ} {asked : PushOp ℕ → Option ℕ}
      (hasked : asked prewriteRequest = none) :
      Exec (fun s op s' => s.PushStep 0 op s' ∧ s.Keeps attr asked op s' ∧ s'.LockedBy 5)
        (stateAfter (pushedBy (lockRequest 5 6 9))) [prewriteRequest, lockRequest 20 0 0]
        (stateAfter (pushedBy (lockRequest 5 6 9) ++ [prewriteRequest, lockRequest 20 0 0])) := by
    refine .cons ⟨rfl, ?_, _, rfl, rfl⟩ <|
      .cons ⟨rfl, fun hne => absurd rfl hne, _, rfl, rfl⟩ (.nil _)
    intro _ l _ n hn
    rw [hasked] at hn
    cases hn
  obtain ⟨l, hl⟩ : ∃ l, (stateAfter (pushedBy (lockRequest 5 6 9))).lock = some l := ⟨_, rfl⟩
  obtain ⟨l', hl', hput⟩ : ∃ l', (stateAfter (pushedBy (lockRequest 5 6 9) ++
      [prewriteRequest, lockRequest 20 0 0])).lock = some l' ∧ l'.lockType = .put := ⟨_, rfl, rfl⟩
  obtain ⟨hmin, httl⟩ := pushed_attributes_keep 0 5 [prewriteRequest, lockRequest 20 0 0]
    hbefore hl hl'
  obtain ⟨hle, htold⟩ := hmin (hafter rfl)
  exact ⟨l, l', hl, hl', hput, ⟨hle, httl (hafter rfl)⟩,
    htold (stateAfter [lockRequest 5 6 9]) (pushRequest 50) _ rfl (by decide)⟩

/-- A later pessimistic lock request and a later flush take back what a reader at 50 was told; and
a reader with the largest timestamp is told so without a push. -/
theorem pushed_attributes_move_back :
    (∃ lk l, step 0 (stateAfter [lockRequest 5 6 9]) (.checkTxnStatus (pushRequest 50)) =
        (.ok (.txnStatus (.uncommitted lk true)), stateAfter (pushedBy (lockRequest 5 6 9))) ∧
      lk.minCommitTs = 51 ∧ lk.ttl = 9 ∧
      (stateAfter (pushedBy (lockRequest 5 6 9) ++ [lockRequest 20 21 3])).lock = some l ∧
      l.ts = 5 ∧
      l.minCommitTs = 21 ∧ l.ttl = 3) ∧
    (∃ lk l, step 0 (stateAfter [flushRequest 1 9]) (.checkTxnStatus (pushRequest 50)) =
        (.ok (.txnStatus (.uncommitted lk true)), stateAfter (pushedBy (flushRequest 1 9))) ∧
      lk.minCommitTs = 51 ∧ lk.ttl = 9 ∧
      (stateAfter (pushedBy (flushRequest 1 9) ++ [flushRequest 2 3])).lock = some l ∧ l.ts = 5 ∧
      l.minCommitTs = 6 ∧ l.ttl = 3) ∧
    ∃ lk st, step 0 (stateAfter [lockRequest 5 6 9])
        (.checkTxnStatus (pushRequest TimeStamp.max)) =
          (.ok (.txnStatus (.uncommitted lk true)), st) ∧ st.lock = some lk ∧ lk.minCommitTs = 6 :=
  ⟨⟨_, _, rfl, rfl, rfl, rfl, rfl, rfl, rfl⟩, ⟨_, _, rfl, rfl, rfl, rfl, rfl, rfl, rfl⟩,
    _, _, rfl, rfl, rfl⟩

end Tikv
