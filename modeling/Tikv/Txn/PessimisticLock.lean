import Tikv.Txn.Transition

/-!
# A pessimistic lock excludes conflicting commits

A pessimistic transaction locks a key before it writes it. From then on the key belongs to it:
no other transaction can commit on it, and every commit record on the key is at or below
`for_update_ts` of the lock. The timestamp only grows: by locking again, by locking in spite of a
conflict, and by the prewrite, which takes the larger one of the lock's and its own.

A prewrite whose pessimistic lock is missing may write the lock anew if the key has no record
at or above `start_ts`. Such a lock bounds the commit records by `start_ts` only
(`CommitsBounded`), which is enough for its commit, since that is above `start_ts`.
-/

namespace Tikv

variable {K : Type}

/-- Commands of pessimistic transactions: a prewrite expects the key to be locked. -/
def Op.IsPessimistic : Op K → Prop
  | .prewrite request =>
    request.props.isPessimistic = true ∧ request.pessimisticAction = .doPessimisticCheck
  | _ => True

instance : (op : Op K) → Decidable op.IsPessimistic
  | .prewrite _ => inferInstanceAs (Decidable (_ ∧ _))
  | .acquirePessimisticLock _ | .pessimisticRollback _ _ | .commit _ _ | .cleanup _ _
  | .rollback _ | .checkTxnStatus _ | .checkSecondaryLocks _ | .updateMaxTs _ => .isTrue trivial

/-- The commands on a key, of pessimistic transactions. -/
def KeyState.StepPessimistic [DecidableEq K] (key : K) (st : KeyState K) (op : Op K)
    (st' : KeyState K) : Prop :=
  st.Step key op st' ∧ op.IsPessimistic

/-- Every commit record is at or below the bound. -/
def CommitsUpTo (m : Versions Write) (bound : ℕ) : Prop :=
  ∀ e ∈ m.entries, e.2.writeType ≠ .rollback → e.1 ≤ bound

/-- The lock on the key bounds the commit records. -/
structure CommitsBounded (st : KeyState K) : Prop where
  recordsOk : RecordsOk st.write
  lock : ∀ l, st.lock = some l → CommitsUpTo st.write (max l.forUpdateTs l.ts)

/-- The key is locked by the pessimistic lock of the transaction `s`, if it is locked. -/
def LockedBy (s : ℕ) (st : KeyState K) : Prop :=
  ∀ l, st.lock = some l → l.ts = s ∧ CommitsUpTo st.write l.forUpdateTs

section

variable {key : K} {st st' : KeyState K} {op : Op K} {m m' : Versions Write} {s b b' : ℕ}

theorem PrewriteMutation.Prewritten.forUpdateTs_eq {p : PrewriteMutation K} {maxTs : ℕ}
    {l l₀ : Lock K} (hw : p.Prewritten (st.reader key s) maxTs l) (hl : st.lock = some l₀) :
    l.forUpdateTs = max p.props.forUpdateTs l₀.forUpdateTs := by
  rw [hw.forUpdateTs]
  exact congrArg (fun l => max _ ((Option.map Lock.forUpdateTs l).getD 0)) hl

theorem CommitsUpTo.mono (h : CommitsUpTo m b) (hle : b ≤ b') : CommitsUpTo m b' :=
  fun e he ht => (h e he ht).trans hle

theorem CommitsUpTo.rolledBackTo {isProt : Bool} (h : CommitsUpTo m b)
    (hw : RolledBackTo m s isProt m') : CommitsUpTo m' b := by
  intro e he ht
  obtain ⟨w, hw, hcore⟩ := hw.core_of_mem he ht
  exact h (e.1, w) hw (by rwa [Write.writeType_of_core hcore])

theorem LockAfterRollback.eq_some {isProt : Bool} {lock' : Option (Lock K)} {l : Lock K}
    (h : LockAfterRollback st s isProt lock') (hl : lock' = some l) :
    ∃ l₀, st.lock = some l₀ ∧ l.ts = l₀.ts ∧ l.forUpdateTs = l₀.forUpdateTs := by
  subst hl
  cases h with
  | kept hl | marked hl => exact ⟨_, hl, rfl, rfl⟩

theorem CommitsBounded.empty : CommitsBounded ({} : KeyState K) := by
  refine ⟨.empty, fun l hl => ?_⟩
  cases hl

/-- Commands of pessimistic transactions keep the commits below the lock. -/
theorem CommitsBounded.change (h : CommitsBounded st) (hc : Change key st op st')
    (hop : op.IsPessimistic) : CommitsBounded st' := by
  refine ⟨hc.writeChange.recordsOk h.recordsOk, fun l' hl' => ?_⟩
  cases hc with
  | keep => exact h.lock l' hl'
  | unlock | onePc | commit => cases hl'
  | @prewrite r l m _ hp hw =>
    cases hl'
    rcases hl : st.lock with - | l₀
    · -- The lock was missing: every record is below `start_ts`.
      intro e he _
      have hlt := hp.amend hl hop.2 e he
      rw [hw.ts]
      exact hlt.le.trans (le_max_right _ _)
    · refine (h.lock l₀ hl).mono ?_
      have hfut := hw.forUpdateTs_eq hl
      rw [hw.ts, (hp.lock l₀ hl).1]
      omega
  | acquire _ _ ha =>
    cases hl'
    intro e he _
    exact (ha.newest e he).trans (le_max_left _ _)
  | @relock a l m _ hl hts _ hlt =>
    cases hl'
    refine (h.lock l hl).mono (?_ : _ ≤ max a.forUpdateTs a.startTs)
    omega
  | rollback _ _ hlock hw =>
    obtain ⟨l₀, hl₀, hts, hfut⟩ := hlock.eq_some hl'
    rw [hts, hfut]
    exact (h.lock l₀ hl₀).rolledBackTo hw
  | push _ hl =>
    cases hl'
    have hup := h.lock _ hl
    exact hup

/-- As long as the key is locked, it is locked by the same transaction, above all commits. -/
theorem LockedBy.change (h : LockedBy s st) (hc : Change key st op st')
    (hlocked : st.lock.isSome = true) : LockedBy s st' := by
  intro l' hl'
  cases hc with
  | keep => exact h l' hl'
  | unlock | onePc | commit => cases hl'
  | @prewrite r l m _ hp hw =>
    cases hl'
    obtain ⟨l₀, hl₀⟩ := Option.isSome_iff_exists.mp hlocked
    obtain ⟨hts, hup⟩ := h l₀ hl₀
    refine ⟨hw.ts.trans ((hp.lock l₀ hl₀).1.symm.trans hts), hup.mono ?_⟩
    rw [hw.forUpdateTs_eq hl₀]
    exact le_max_right _ _
  | acquire _ hnone =>
    rw [hnone] at hlocked
    cases hlocked
  | relock _ hl hts _ hlt =>
    cases hl'
    obtain ⟨hs, hup⟩ := h _ hl
    exact ⟨hts.symm.trans hs, hup.mono hlt.le⟩
  | rollback _ _ hlock hw =>
    obtain ⟨l₀, hl₀, hts, hfut⟩ := hlock.eq_some hl'
    obtain ⟨hs, hup⟩ := h l₀ hl₀
    rw [hts, hfut]
    exact ⟨hs, hup.rolledBackTo hw⟩
  | push _ hl =>
    cases hl'
    have hby := h _ hl
    exact hby

/-- A commit above `for_update_ts` of its own lock is above every commit record. -/
theorem CommitsBounded.isNewCommit_lt {e e' : ℕ × Write} (h : CommitsBounded st)
    (hc : Change key st op st') (hop : op.IsPessimistic) (he : e ∈ st'.write.entries)
    (hnew : st.IsNewCommit e) (hfut : ∀ l, st.lock = some l → l.forUpdateTs < e.1)
    (he' : e' ∈ st.write.entries) (ht : e'.2.writeType ≠ .rollback) : e'.1 < e.1 := by
  -- A record that was there before is not a new one.
  have hold : ∀ w, (e.1, w) ∈ st.write.entries → w.core ≠ e.2.core :=
    fun w hw => hnew.2 (e.1, w) hw rfl
  have hkept : e ∉ st.write.entries := fun hmem => hold e.2 hmem rfl
  cases hc with
  | @onePc r l w c m _ hp hw _ hs hc =>
    rcases Versions.mem_insert.mp he with rfl | ⟨-, he⟩
    · rcases hl : st.lock with - | l₀
      · have hlt : e'.1 < r.props.startTs := hp.amend hl hop.2 e' he'
        omega
      · have hup := h.lock l₀ hl e' he' ht
        have hlt := hfut l₀ hl
        have hts := (hp.lock l₀ hl).1
        omega
    · exact absurd he hkept
  | @commit l w c hl hs =>
    rcases Versions.mem_insert.mp he with rfl | ⟨-, he⟩
    · have hup := h.lock l hl e' he' ht
      have hlt := hfut l hl
      omega
    · exact absurd he hkept
  | rollback _ _ _ hw =>
    obtain ⟨w, hw, hcore⟩ := hw.core_of_mem he hnew.1
    exact absurd hcore (hold w hw)
  | _ => exact absurd he hkept

/-- The lock that a request has acquired. -/
theorem LockedBy.of_acquire {a : AcquirePessimisticLock K}
    (hc : Change key st (.acquirePessimisticLock a) st') (hfree : st.lock = none) :
    LockedBy a.startTs st' := by
  intro l' hl'
  cases hc with
  | keep => cases hfree.symm.trans hl'
  | unlock => cases hl'
  | acquire _ _ ha =>
    cases hl'
    exact ⟨congrArg Lock.ts ha.lock, fun e he _ => ha.newest e he⟩
  | relock _ hl => cases hfree.symm.trans hl
  | rollback _ _ hlock =>
    obtain ⟨l₀, hl₀, -, -⟩ := hlock.eq_some hl'
    cases hfree.symm.trans hl₀

end

/-! ### Runs -/

section

variable [DecidableEq K] {key : K} {ops₁ ops₂ : List (Op K)} {st₁ st₂ st₃ : KeyState K}
  {a : AcquirePessimisticLock K}

/-- **A pessimistic lock is exclusive.** From the moment a request locks a free key, and as long
as the key stays locked, the lock is of that transaction, and every commit record on the key is
at or below the lock's `for_update_ts`. A commit above `for_update_ts` of its own lock is above
every commit record the key has. -/
theorem pessimisticLock_exclusive (h₁ : Exec (KeyState.StepPessimistic key) {} ops₁ st₁)
    (hfree : st₁.lock = none) (hacquire : st₁.Step key (.acquirePessimisticLock a) st₂)
    (h₂ : Exec (fun st op st' => st.StepPessimistic key op st' ∧ st.lock.isSome = true)
      st₂ ops₂ st₃) :
    (∀ l, st₃.lock = some l → l.ts = a.startTs ∧
      ∀ e ∈ st₃.write.entries, e.2.writeType ≠ .rollback → e.1 ≤ l.forUpdateTs) ∧
    ∀ op st₄, st₃.StepPessimistic key op st₄ →
      ∀ e ∈ st₄.write.entries, st₃.IsNewCommit e →
        (∀ l, st₃.lock = some l → l.forUpdateTs < e.1) →
        ∀ e' ∈ st₃.write.entries, e'.2.writeType ≠ .rollback → e'.1 < e.1 := by
  have hstep : ∀ st op st', CommitsBounded st → st.StepPessimistic key op st' →
      CommitsBounded st' := fun st op st' h hs => h.change (hs.1.change h.recordsOk) hs.2
  have hb₁ : CommitsBounded st₁ := h₁.invariant hstep .empty
  have hb₂ : CommitsBounded st₂ := hstep _ _ _ hb₁ ⟨hacquire, trivial⟩
  have hby₂ : LockedBy a.startTs st₂ := .of_acquire (hacquire.change hb₁.recordsOk) hfree
  obtain ⟨hb₃, hby₃⟩ := h₂.invariant (I := fun st => CommitsBounded st ∧ LockedBy a.startTs st)
    (fun st op st' h hs => ⟨hstep _ _ _ h.1 hs.1,
      h.2.change (hs.1.1.change h.1.recordsOk) hs.2⟩) ⟨hb₂, hby₂⟩
  refine ⟨hby₃, fun op st₄ hs e he hnew hfut e' he' ht => ?_⟩
  exact hb₃.isNewCommit_lt (hs.1.change hb₃.recordsOk) hs.2 he hnew hfut he' ht

end

/-- Transaction 1 locks the key, writes it and commits at 3. -/
private def lockAndCommit : List (Op ℕ) :=
  [.acquirePessimisticLock { startTs := 1, primary := 0, forUpdateTs := 1 },
   .prewrite { props := { startTs := 1, kind := .pessimistic 1, primary := 0 }
               mutation := .put [1] .none, pessimisticAction := .doPessimisticCheck },
   .commit 1 3]

/-- Transaction 2 asks for the lock with `for_update_ts` 2, in spite of the newer record. -/
private def lockAgain : AcquirePessimisticLock ℕ where
  startTs := 2
  primary := 0
  forUpdateTs := 2
  allowLockWithConflict := true

/-- The lock of transaction 2 bounds the commit record at 3. -/
theorem pessimisticLock_exclusive_withConflict :
    let st := ((KeyState.run 0 {} lockAndCommit).step 0 (.acquirePessimisticLock lockAgain)).2
    st.lock.isSome = true ∧ ∀ l, st.lock = some l → l.ts = 2 ∧
      ∀ e ∈ st.write.entries, e.2.writeType ≠ .rollback → e.1 ≤ l.forUpdateTs := by
  have hrun : Exec (KeyState.StepPessimistic 0) {} lockAndCommit
      (KeyState.run 0 {} lockAndCommit) :=
    Exec.of_along (C := fun _ op _ => Op.IsPessimistic op) (by decide)
  exact ⟨by decide, (pessimisticLock_exclusive hrun (by decide) rfl (.nil _)).1⟩

end Tikv
