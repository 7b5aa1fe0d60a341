import Tikv.Txn.Transition

/-!
# Protected rollbacks

A protected rollback of the transaction `s` is a record at `s`, where a commit record of another
transaction may be written as well. Four mechanisms together keep it:

* a commit on a timestamp that the lock remembers as a rollback (`rollback_ts`), and a rollback on
  the timestamp of a commit record, set the flag `has_overlapped_rollback`;
* only an unprotected rollback is collapsed;
* `max_ts` is at least `s` once the rollback is written, so a transaction that computes its
  commit timestamp later commits above `s`;
* a late request of `s` finds the record and fails, so that `s` gets no commit record.

**`RollbackKept`** is the invariant. `RollbackConditions` says what the steps have to satisfy
besides: a plain transaction does not commit at a start timestamp, no two transactions commit at
the same timestamp, whoever first writes the rollback has moved `max_ts`, and the late prewrites
of `s` look for the rollback (`PrewriteMutation.ChecksRollback`).
-/

namespace Tikv

open KeyState Write Versions

variable {K : Type}

/-- The prewrite notices a rollback of its transaction at `start_ts`. One that is told to skip the
constraint check does not. A retried one without a pessimistic lock stops at the first record at
or below `for_update_ts`, and the rollback may be below that. -/
def PrewriteMutation.ChecksRollback (p : PrewriteMutation K) (m : Versions Write) : Prop :=
  match p.props.kind, p.pessimisticAction with
  | .optimistic skip, _ => skip = false
  | .pessimistic _, .doPessimisticCheck => True
  | .pessimistic _, .doConstraintCheck => True
  | .pessimistic forUpdateTs, .skipPessimisticCheck => p.props.isRetryRequest = true ∧
      ∀ e ∈ m.entries, p.props.startTs < e.1 → forUpdateTs < e.1

/-- The conditions on a step under which a protected rollback of `s` is kept. -/
structure RollbackConditions (s : ℕ) (st : KeyState K) (op : Op K) (st' : KeyState K) : Prop where
  /-- Only an async-commit transaction may commit at `s`, and only if no other one has. -/
  commit : ∀ l, st.lock = some l → op = .commit l.ts s → l.useAsyncCommit = true ∧
    ∀ w, (s, w) ∈ st.write.entries → w.writeType = .rollback
  /-- The rollback is written under `max_ts`. -/
  maxTs : ProtectedRollback st'.write s → ProtectedRollback st.write s ∨ s ≤ st'.maxTs
  /-- A prewrite of the transaction that comes after the rollback looks for it. -/
  prewrite : ∀ r, op = .prewrite r → r.props.startTs = s → ProtectedRollback st.write s →
    r.ChecksRollback st.write

/-- The commands on a key that keep a protected rollback of `s`. -/
def KeyState.StepKeeping [DecidableEq K] (key : K) (s : ℕ) (st : KeyState K) (op : Op K)
    (st' : KeyState K) : Prop :=
  st.Step key op st' ∧ RollbackConditions s st op st'

/-! ### The invariant -/

/-- What is so once a protected rollback of `s` is on the key. -/
structure RollbackKept (s : ℕ) (st : KeyState K) : Prop where
  /-- The transaction has no commit record. -/
  record : ∀ e ∈ st.write.entries, e.2.startTs = s → e.2.writeType = .rollback
  /-- The transaction has no lock. -/
  lock : ∀ l, st.lock = some l → l.ts ≠ s
  maxTs : s ≤ st.maxTs
  /-- An async-commit transaction commits above `s`, or knows the rollback, or cannot commit
  at `s` because there is a commit record. -/
  async : ∀ l, st.lock = some l → l.useAsyncCommit = true → s < l.minCommitTs ∨
    s ∈ l.rollbackTs ∨ ∃ w, (s, w) ∈ st.write.entries ∧ w.writeType ≠ .rollback

/-- The invariant of a run that keeps the protected rollback of `s`. -/
structure RollbackInvariant (s : ℕ) (st : KeyState K) : Prop where
  recordsOk : RecordsOk st.write
  marked : ∀ l, st.lock = some l → s ∈ l.rollbackTs → ProtectedRollback st.write s
  kept : ProtectedRollback st.write s → RollbackKept s st

section

variable {m m' : Versions Write} {s s' c : ℕ} {w : Write} {isProt : Bool}

theorem Write.writeType_of_isProtected (h : w.isProtected = true) : w.writeType = .rollback := by
  rw [isProtected, Bool.and_eq_true] at h
  exact eq_of_beq h.1

theorem ProtectedRollback.selfRolledBack (h : ProtectedRollback m s) : SelfRolledBack m s := by
  obtain ⟨w, hw, hp⟩ := h
  exact ⟨w, hw, hp.imp_left writeType_of_isProtected⟩

theorem ProtectedRollback.insert_ne (hc : c ≠ s) :
    ProtectedRollback (m.insert c w) s ↔ ProtectedRollback m s := by
  refine exists_congr fun w' => and_congr_left fun _ => ?_
  rw [mem_insert]
  constructor
  · rintro (h | ⟨-, h⟩)
    · cases h
      exact absurd rfl hc
    · exact h
  · intro h
    exact Or.inr ⟨hc.symm, h⟩

/-- A commit record at `s` is a protected rollback only if it has the flag. -/
theorem ProtectedRollback.of_insert_self (ht : w.writeType ≠ .rollback)
    (h : ProtectedRollback (m.insert s w) s) : w.hasOverlappedRollback = true := by
  obtain ⟨w', hw', hp⟩ := h
  rcases mem_insert.mp hw' with h | ⟨h, -⟩
  · cases h
    exact hp.resolve_left fun hp => ht (writeType_of_isProtected hp)
  · exact absurd rfl h

theorem RolledBackTo.keeps (h : RolledBackTo m s' isProt m') (hok : RecordsOk m)
    (hp : ProtectedRollback m s) : ProtectedRollback m' s := by
  obtain ⟨w, hw, hp⟩ := hp
  have hstay : w.writeType ≠ .rollback ∨ w.isProtected = true := by
    by_cases ht : w.writeType = .rollback
    · refine Or.inr (hp.resolve_right ?_)
      rw [(hok.rollback _ hw ht).2.1]
      exact Bool.false_ne_true
    · exact Or.inl ht
  obtain ⟨w', hw', hcore, hflag, -⟩ := h.mem_core hw hstay
  exact ⟨w', hw', hp.imp (fun hp => by rwa [isProtected_of_core hcore]) hflag⟩

/-- A protected rollback was there before, or it is the one that was written. -/
theorem RolledBackTo.of_protectedRollback (h : RolledBackTo m s' isProt m')
    (hp : ProtectedRollback m' s) : ProtectedRollback m s ∨ s = s' ∧ isProt = true := by
  obtain ⟨w, hw, hp⟩ := hp
  rcases h.of_mem hw with hw | ⟨heq, -⟩ | ⟨w', fence, -, heq, hprot, -⟩
  · exact Or.inl ⟨w, hw, hp⟩
  · cases heq
    refine Or.inr ⟨rfl, ?_⟩
    rcases isProt with - | -
    · rcases hp with hp | hp <;> cases hp
    · rfl
  · cases heq
    exact Or.inr ⟨rfl, hprot⟩

end

section

variable {key : K} {st st' : KeyState K} {s : ℕ} {op : Op K}

/-- A late prewrite that looks for the rollback fails. -/
theorem RollbackKept.not_prewritable {p : PrewriteMutation K} (h : RollbackKept s st)
    (hp : ProtectedRollback st.write s) (hs : p.props.startTs = s)
    (hcheck : p.ChecksRollback st.write) :
    ¬ p.Prewritable (st.reader key p.props.startTs) := by
  intro hw
  have hself := hp.selfRolledBack
  have hnone : st.lock = none := by
    rcases hl : st.lock with - | l
    · rfl
    · exact absurd ((hw.lock l hl).1.trans hs) (h.lock l hl)
  have hnewer := hw.newer
  rw [PrewriteMutation.skipConstraintCheck, PrewriteMutation.NewerVersionChecked] at hnewer
  rw [PrewriteMutation.ChecksRollback] at hcheck
  rw [← hs] at hself
  rcases hk : p.props.kind with skip | forUpdateTs
  · rw [hk] at hcheck hnewer
    exact (hnewer hcheck).2 hself
  rcases ha : p.pessimisticAction with - | - | - <;> rw [hk, ha] at hcheck hnewer
  · -- A retried prewrite without a pessimistic lock.
    obtain ⟨e, he, hlt, hle⟩ := (hnewer (by simp [hcheck.1])).2.2 hself
    exact absurd hle (not_le.mpr (hcheck.2 e he hlt))
  · -- The pessimistic lock is missing, and the record at `s` forbids to amend it.
    obtain ⟨w, hrec, -⟩ := hself
    exact absurd (hw.amend hnone ha _ hrec) (Nat.lt_irrefl _)
  · obtain ⟨hall, -, hsome⟩ := hnewer rfl
    obtain ⟨e, he, hlt, -⟩ := hsome hself
    exact absurd (hall rfl e he) (not_le.mpr hlt)

/-- What a lock may be when a protected rollback of `s` is on the key, or not. -/
def LockKeeps (s : ℕ) (m : Versions Write) (l : Lock K) : Prop :=
  (s ∈ l.rollbackTs → ProtectedRollback m s) ∧ (ProtectedRollback m s → l.ts ≠ s ∧
    (l.useAsyncCommit = true → s < l.minCommitTs ∨ s ∈ l.rollbackTs ∨
      ∃ w, (s, w) ∈ m.entries ∧ w.writeType ≠ .rollback))

namespace RollbackInvariant

section

variable (h : RollbackInvariant s st)
include h

theorem lockKeeps {l : Lock K} (hl : st.lock = some l) :
    LockKeeps s st.write l :=
  ⟨h.marked l hl, fun hp => ⟨(h.kept hp).lock l hl, (h.kept hp).async l hl⟩⟩

omit h in
theorem empty : RollbackInvariant s ({} : KeyState K) := by
  refine ⟨.empty, nofun, fun hp => ?_⟩
  obtain ⟨w, hw, -⟩ := hp
  cases hw

/-- A step that writes no record. -/
theorem of_write_eq (hw : st'.write = st.write) (hm : st.maxTs ≤ st'.maxTs)
    (hlock : ∀ l, st'.lock = some l → LockKeeps s st.write l) :
    RollbackInvariant s st' := by
  rw [← hw] at hlock
  refine ⟨hw ▸ h.recordsOk, fun l hl => (hlock l hl).1, fun hp => ?_⟩
  have hkept := h.kept (hw ▸ hp)
  exact ⟨hw ▸ hkept.record, fun l hl => ((hlock l hl).2 hp).1, hkept.maxTs.trans hm,
    fun l hl => ((hlock l hl).2 hp).2⟩

variable {default' : Versions Value}

/-- A step that writes a commit record at `c`. -/
theorem of_commit {c m : ℕ} {w : Write} (hm : st.maxTs ≤ m) (ht : w.writeType ≠ .rollback)
    (hsc : w.startTs < c) (hf : w.gcFence = none)
    (hts : ProtectedRollback st.write s → w.startTs ≠ s)
    (hflag : c = s → (ProtectedRollback st.write s ↔ w.hasOverlappedRollback = true)) :
    (ProtectedRollback st.write s → ProtectedRollback (st.write.insert c w) s) ∧
      RollbackInvariant s (⟨none, st.write.insert c w, default', m⟩ : KeyState K) := by
  have hiff : ProtectedRollback (st.write.insert c w) s ↔ ProtectedRollback st.write s := by
    by_cases hc : c = s
    · subst hc
      rw [hflag rfl]
      exact ⟨ProtectedRollback.of_insert_self ht,
        fun hw => ⟨w, mem_insert.mpr (Or.inl rfl), Or.inr hw⟩⟩
    · exact ProtectedRollback.insert_ne hc
  refine ⟨hiff.mpr, (WriteChange.commit ht hsc hf).recordsOk h.recordsOk, nofun, fun hp => ?_⟩
  have hp := hiff.mp hp
  refine ⟨fun e he hes => ?_, nofun, (h.kept hp).maxTs.trans hm, nofun⟩
  rcases mem_insert.mp he with rfl | ⟨-, he⟩
  · exact absurd hes (hts hp)
  · exact (h.kept hp).record e he hes

/-- A step that rolls a transaction back. -/
theorem of_rollback {s' m : ℕ} {isProt : Bool} {lock' : Option (Lock K)} {write' : Versions Write}
    (hm : st.maxTs ≤ m) (hlock : LockAfterRollback st s' isProt lock')
    (hw : RolledBackTo st.write s' isProt write')
    (hmax : ProtectedRollback write' s → ProtectedRollback st.write s ∨ s ≤ m) :
    RollbackInvariant s (⟨lock', write', default', m⟩ : KeyState K) := by
  have hkeeps : ProtectedRollback st.write s → ProtectedRollback write' s :=
    hw.keeps h.recordsOk
  -- The rollback of `s` was there before, or this step writes it.
  have hcases : ProtectedRollback write' s → ProtectedRollback st.write s ∨
      ¬ ProtectedRollback st.write s ∧ s = s' ∧ isProt = true := by
    intro hp
    by_cases hold : ProtectedRollback st.write s
    · exact Or.inl hold
    · exact Or.inr ⟨hold, (hw.of_protectedRollback hp).resolve_left hold⟩
  have hcommit : ∀ w, (s, w) ∈ st.write.entries → w.writeType ≠ .rollback →
      ∃ w', (s, w') ∈ write'.entries ∧ w'.writeType ≠ .rollback := by
    intro w hmem ht
    obtain ⟨w', hw', hcore⟩ := hw.sameCommits.mem _ hmem ht
    exact ⟨w', hw', by rwa [writeType_of_core hcore]⟩
  -- What is true of the lock of another transaction before is true afterwards.
  have hlockOld : ∀ l : Lock K, st.lock = some l → ProtectedRollback st.write s → l.ts ≠ s ∧
      (l.useAsyncCommit = true → s < l.minCommitTs ∨ s ∈ l.rollbackTs ∨
        ∃ w, (s, w) ∈ write'.entries ∧ w.writeType ≠ .rollback) := by
    intro l hl hp
    obtain ⟨hts, hasync⟩ := (h.lockKeeps hl).2 hp
    refine ⟨hts, fun ha => (hasync ha).imp_right (Or.imp_right ?_)⟩
    rintro ⟨w, hmem, ht⟩
    exact hcommit w hmem ht
  have hlock' : ∀ l, lock' = some l → LockKeeps s write' l := by
    rintro l rfl
    rcases hlock with - | - | ⟨hl, hts, hsafe⟩ | ⟨hl, hts, hprot⟩
    · refine ⟨fun hs => hkeeps ((h.lockKeeps hl).1 hs), fun hp => ?_⟩
      rcases hcases hp with hp | ⟨-, rfl, hprot⟩
      · exact hlockOld l hl hp
      · refine ⟨hts, fun ha => ?_⟩
        rcases hsafe hprot with hlt | hna | ⟨w, hmem⟩
        · exact Or.inl hlt
        · rw [ha] at hna
          cases hna
        · -- A Rollback record at `s` would be the transaction's.
          refine Or.inr (Or.inr (hcommit w hmem fun ht => ?_))
          exact hw.noRecord _ hmem le_rfl (h.recordsOk.rollback _ hmem ht).1
    · rename_i l₀
      constructor
      · intro hs
        rcases List.mem_append.mp hs with hs | hs
        · exact hkeeps ((h.lockKeeps hl).1 hs)
        · rw [List.mem_singleton.mp hs]
          subst hprot
          exact hw.protectedRollback
      · intro hp
        rcases hcases hp with hp | ⟨-, rfl, -⟩
        · obtain ⟨hts, hasync⟩ := hlockOld l₀ hl hp
          refine ⟨hts, fun ha => (hasync ha).imp_right (Or.imp_left fun hs => ?_)⟩
          exact List.mem_append_left _ hs
        · exact ⟨hts, fun _ => Or.inr (Or.inl (by simp))⟩
  refine ⟨hw.recordsOk h.recordsOk, fun l hl => (hlock' l hl).1, fun hp => ?_⟩
  refine ⟨fun e he hes => ?_, fun l hl => ((hlock' l hl).2 hp).1, ?_,
    fun l hl => ((hlock' l hl).2 hp).2⟩
  · by_contra ht
    obtain ⟨w, hmem, hcore⟩ := hw.core_of_mem he ht
    have hts : w.startTs = s := (startTs_of_core hcore).trans hes
    rcases hcases hp with hp | ⟨-, rfl, -⟩
    · exact ht ((writeType_of_core hcore).symm.trans ((h.kept hp).record _ hmem hts))
    · exact hw.noRecord _ hmem (hts ▸ h.recordsOk.startTs_le hmem) hts
  · rcases hmax hp with hp | hle
    · exact (h.kept hp).maxTs.trans hm
    · exact hle

/-- Every command keeps the invariant and the protected rollback, under the conditions. -/
theorem change (hc : Change key st op st') (hcond : RollbackConditions s st op st') :
    (ProtectedRollback st.write s → ProtectedRollback st'.write s) ∧ RollbackInvariant s st' := by
  rcases hc with hm | ⟨hm, -, -⟩ | @⟨r, l, m, hm, hp, hw⟩ |
    @⟨r, l, w, c, m, hm, hp, hw, hmax, hs, hc, hrec⟩ | @⟨a, l, m, hm, -, ha⟩ |
    @⟨a, l, m, hm, hl, hts, -, -⟩ | @⟨l, w, c, hl, hs, hc, hrec⟩ | ⟨hm, -, hlock, hw, -⟩ |
    @⟨request, l, m', m, hm, hl, -, hle⟩
  · exact ⟨id, h.of_write_eq rfl hm fun l hl => h.lockKeeps hl⟩
  · exact ⟨id, h.of_write_eq rfl hm nofun⟩
  · refine ⟨id, h.of_write_eq rfl hm fun l' hl' => ?_⟩
    cases hl'
    refine ⟨by rw [hw.rollbackTs]; nofun, fun hprot => ⟨fun hts => ?_, fun ha => Or.inl ?_⟩⟩
    · have hr := hw.ts.symm.trans hts
      exact (h.kept hprot).not_prewritable hprot hr (hcond.prewrite r rfl hr hprot) hp
    · exact ((h.kept hprot).maxTs.trans hm).trans_lt (hw.minCommitTs ha)
  · obtain ⟨ht, hrec⟩ := Lock.commitRecord_eq_ok.mp hrec
    have hts : w.startTs = r.props.startTs := by rw [hrec]
    have hflag : w.hasOverlappedRollback = false := by rw [hrec]
    refine h.of_commit hm (WriteType.fromLockType_ne_rollback ht) (by omega) (by rw [hrec])
      (fun hprot hr => ?_) fun hcs => iff_of_false (fun hprot => ?_) (by rw [hflag]; nofun)
    · rw [hts] at hr
      exact (h.kept hprot).not_prewritable hprot hr (hcond.prewrite r rfl hr hprot) hp
    · -- The commit timestamp of one-phase commit is above `max_ts`.
      have hle := (h.kept hprot).maxTs
      omega
  · refine ⟨id, h.of_write_eq rfl hm fun l' hl' => ?_⟩
    cases hl'
    have hts : l.ts = a.startTs := congrArg Lock.ts ha.lock
    have hasync : l.useAsyncCommit = false := congrArg Lock.useAsyncCommit ha.lock
    have hmarks : l.rollbackTs = [] := congrArg Lock.rollbackTs ha.lock
    refine ⟨by rw [hmarks]; nofun, fun hprot => ⟨fun hl => ?_, by rw [hasync]; nofun⟩⟩
    exact ha.notRolledBack (hts ▸ hl ▸ hprot.selfRolledBack)
  · refine ⟨id, h.of_write_eq rfl hm fun l' hl' => ?_⟩
    cases hl'
    refine ⟨nofun, fun hprot => ⟨fun ha => ?_, nofun⟩⟩
    exact (h.kept hprot).lock l hl (hts.trans ha)
  · obtain ⟨ht, hts, -, hf⟩ := Lock.recordAt_spec (c := c) hrec
    have hflag : (l.recordAt w c).hasOverlappedRollback = true ↔ c ∈ l.rollbackTs := by
      rw [Lock.recordAt]
      split
      · rename_i hmark
        exact iff_of_true rfl hmark
      · rename_i hmark
        rw [(Lock.commitRecord_eq_ok.mp hrec).2]
        exact iff_of_false Bool.false_ne_true hmark
    refine h.of_commit le_rfl ht (hts ▸ hs) hf (fun hprot => hts ▸ (h.kept hprot).lock l hl) ?_
    rintro rfl
    rw [hflag]
    refine ⟨fun hprot => ?_, h.marked l hl⟩
    obtain ⟨hasync, hno⟩ := hcond.commit l hl rfl
    rcases (h.kept hprot).async l hl hasync with hlt | hmark | ⟨w', hw', ht'⟩
    · omega
    · exact hmark
    · exact absurd (hno w' hw') ht'
  · exact ⟨hw.keeps h.recordsOk, h.of_rollback hm hlock hw hcond.maxTs⟩
  · refine ⟨id, h.of_write_eq rfl hm fun l' hl' => ?_⟩
    cases hl'
    obtain ⟨hmark, hkeep⟩ := h.lockKeeps hl
    refine ⟨hmark, fun hprot => ⟨(hkeep hprot).1, fun ha => ?_⟩⟩
    exact ((hkeep hprot).2 ha).imp_left fun hlt => hlt.trans_le hle

/-- A protected rollback is found, as a record or as the mark of another one. -/
theorem getTxnCommitRecord_eq (hp : ProtectedRollback st.write s) :
    (∃ w, (st.reader key s).getTxnCommitRecord = .singleRecord s w ∧ w.writeType = .rollback) ∨
      (st.reader key s).getTxnCommitRecord = .overlappedRollback s := by
  have hspec := (st.reader key s).getTxnCommitRecord_spec
  obtain ⟨w, hw, hprot⟩ := hp
  rcases hrec : (st.reader key s).getTxnCommitRecord with (- | ov) | ⟨c, w'⟩ | c
  · rw [hrec] at hspec
    exact absurd hw (hspec.2 w)
  · -- Another transaction's record without the flag would be the one at `s`.
    rw [hrec] at hspec
    obtain ⟨hov, hflag, hno, -⟩ := hspec
    rcases hprot with hprot | hprot
    · have ht := writeType_of_isProtected hprot
      exact absurd (h.recordsOk.rollback _ hw ht).1 (hno _ hw le_rfl)
    · rw [mem_unique hw hov, hflag] at hprot
      cases hprot
  · rw [hrec] at hspec
    obtain ⟨hmem, hts, -⟩ := hspec
    have ht := (h.kept ⟨w, hw, hprot⟩).record _ hmem hts
    have hc : c = s := (h.recordsOk.rollback _ hmem ht).1.symm.trans hts
    subst hc
    exact Or.inl ⟨w', rfl, ht⟩
  · rw [hrec] at hspec
    obtain ⟨rfl, -, -⟩ := hspec
    exact Or.inr rfl

theorem run [DecidableEq K] {ops : List (Op K)}
    (hrun : Exec (KeyState.StepKeeping key s) st ops st') :
    (ProtectedRollback st.write s → ProtectedRollback st'.write s) ∧ RollbackInvariant s st' := by
  refine hrun.invariant (I := fun t =>
    (ProtectedRollback st.write s → ProtectedRollback t.write s) ∧ RollbackInvariant s t)
    (fun st₁ op st₂ hinv hstep => ?_) ⟨id, h⟩
  obtain ⟨hkeeps, hinv'⟩ := hinv.2.change (hstep.1.change hinv.2.recordsOk) hstep.2
  exact ⟨hkeeps ∘ hinv.1, hinv'⟩

end

end RollbackInvariant

end

/-! ### A protected rollback is not erased -/

section

variable [DecidableEq K] {key : K} {s : ℕ} {ops₁ ops₂ : List (Op K)} {st₁ st₂ : KeyState K}

/-- **A protected rollback is never erased.** Once it is on the key, the record of its transaction
is found to be a rollback in every later state, under the conditions on the steps. -/
theorem protectedRollback_found_of_run (h₁ : Exec (KeyState.StepKeeping key s) {} ops₁ st₁)
    (hp : ProtectedRollback st₁.write s) (h₂ : Exec (KeyState.StepKeeping key s) st₁ ops₂ st₂) :
    (∃ w, (st₂.reader key s).getTxnCommitRecord = .singleRecord s w ∧ w.writeType = .rollback) ∨
      (st₂.reader key s).getTxnCommitRecord = .overlappedRollback s := by
  obtain ⟨-, hinv₁⟩ := RollbackInvariant.empty.run h₁
  obtain ⟨hkeeps, hinv₂⟩ := hinv₁.run h₂
  exact hinv₂.getTxnCommitRecord_eq (hkeeps hp)

end

/-- A late optimistic prewrite of transaction 5, on key 0. -/
private def latePrewrite : Prewrite ℕ where
  props := { startTs := 5, kind := .optimistic false, primary := 0 }
  mutation := .put [1] .none

/-- A prewrite of the pessimistic transaction 5 on a key it has not locked, sent for the first
time. -/
private def unlockedPrewrite : Prewrite ℕ where
  props := { startTs := 5, kind := .pessimistic 5, primary := 0 }
  mutation := .put [1] .none

/-- The key after a cleanup of transaction 5. -/
private def cleanedUp : KeyState ℕ := (step 0 {} (.cleanup 5 0)).2

private theorem exec_cleanedUp : Exec (KeyState.StepKeeping 0 5) {} [.cleanup 5 0] cleanedUp := by
  refine .cons (t := cleanedUp) ⟨rfl, ?_, fun _ => Or.inr (by decide), ?_⟩ (.nil cleanedUp)
  · intro l hl
    cases hl
  · intro r hr
    cases hr

private theorem protectedRollback_cleanedUp : ProtectedRollback cleanedUp.write 5 :=
  ⟨newRollback 5 true, by decide, Or.inl rfl⟩

/-- The rollback that a cleanup has written is still found after a late prewrite. -/
theorem protectedRollback_found_cleanup :
    (∃ w, ((cleanedUp.step 0 (.prewrite latePrewrite)).2.reader 0 5).getTxnCommitRecord =
        .singleRecord 5 w ∧ w.writeType = .rollback) ∨
      ((cleanedUp.step 0 (.prewrite latePrewrite)).2.reader 0 5).getTxnCommitRecord =
        .overlappedRollback 5 := by
  refine protectedRollback_found_of_run exec_cleanedUp protectedRollback_cleanedUp
    (.cons (e := .prewrite latePrewrite)
      ⟨rfl, ?_, fun _ => Or.inl protectedRollback_cleanedUp, ?_⟩ (.nil _))
  · intro l hl
    cases hl
  · intro r hr _ _
    cases hr
    rfl

/-- A prewrite that skips the constraint check overlooks the rollback, and its transaction
commits. -/
theorem protectedRollback_lost_skipConstraintCheck : ∃ ops₁ ops₂ : List (Op ℕ), ∃ st₁ st₂,
    Exec (KeyState.Step 0) {} ops₁ st₁ ∧ ProtectedRollback st₁.write 5 ∧
    Exec (KeyState.Step 0) st₁ ops₂ st₂ ∧
    (∀ t c, .commit t c ∈ ops₁ ++ ops₂ → ∀ op ∈ ops₁ ++ ops₂, op.startTs ≠ some c) ∧
    ∃ c w, (st₂.reader 0 5).getTxnCommitRecord = .singleRecord c w ∧ w.writeType = .put := by
  refine ⟨[.cleanup 5 0], [.prewrite unlockedPrewrite, .commit 5 7], _, _,
    exec_run 0 {} _, ⟨newRollback 5 true, by decide, Or.inl rfl⟩,
    exec_run 0 _ _, ?_, 7, _, rfl, rfl⟩
  intro t c hc op hop
  simp only [List.cons_append, List.nil_append, List.mem_cons, Op.commit.injEq, reduceCtorEq,
    List.not_mem_nil, or_false, false_or] at hc hop
  obtain ⟨-, rfl⟩ := hc
  rcases hop with rfl | rfl | rfl <;> decide

/-! ### A rolled back transaction stays rolled back -/

/-- The command tells its caller that the transaction `s` is rolled back on the key: by
`CheckSecondaryLocks`, or by `CheckTxnStatus` on the primary key of the transaction. -/
inductive AnswersRolledBack [DecidableEq K] (key : K) (s : ℕ) (st : KeyState K) : Op K → Prop
  | secondary (h : (st.step key (.checkSecondaryLocks s)).1 = .ok (.secondaryLock .rolledBack)) :
    AnswersRolledBack key s st (.checkSecondaryLocks s)
  | primary (request : CheckTxnStatus) {status : TxnStatus K} (hs : request.lockTs = s)
      (hprimary : ∀ l, st.lock = some l → l.ts = s → l.primary = key)
      (h : (st.step key (.checkTxnStatus request)).1 = .ok (.txnStatus status))
      (hstatus : status.isRolledBack = true) : AnswersRolledBack key s st (.checkTxnStatus request)

section

variable {key : K} {s : ℕ} {st st' : KeyState K}

theorem KeyState.finish_eq_ok {α : Type} {reply : α → Reply K}
    {res : Res K (List (Modify K) × α)} {r : Reply K} (h : (st.finish reply res).1 = .ok r) :
    ∃ ms a, res = .ok (ms, a) ∧ r = reply a ∧ (st.finish reply res).2 = st.applyAll ms := by
  rcases res with fault | ⟨ms, a⟩
  · cases h
  · cases h
    exact ⟨ms, a, rfl, rfl, rfl⟩

/-- A rollback that is found or written is protected, unless an unprotected one was found. -/
theorem RolledBack.protectedRollback (h : RolledBack key st s true st') (hok : RecordsOk st.write)
    (hall : ∀ w, (s, w) ∈ st.write.entries → w.writeType = .rollback → w.isProtected = true) :
    ProtectedRollback st'.write s := by
  rcases h with hw | ⟨hrec, hw⟩
  · exact hw.protectedRollback
  rw [hw]
  have hspec := (st.reader key s).getTxnCommitRecord_spec
  rcases hr : (st.reader key s).getTxnCommitRecord with ov | ⟨c, w⟩ | c <;> rw [hr] at hrec hspec
  · cases hrec
  · obtain ⟨hmem, hts, -⟩ := hspec
    have ht : w.writeType = .rollback := congrArg Prod.snd (Option.some.inj hrec)
    have hc : c = s := (hok.rollback _ hmem ht).1.symm.trans hts
    subst hc
    exact ⟨w, hmem, Or.inl (hall w hmem ht)⟩
  · obtain ⟨rfl, -, w, hmem, hflag⟩ := hspec
    exact ⟨w, hmem, Or.inr hflag⟩

variable [DecidableEq K]

omit [DecidableEq K] in
theorem KeyState.lockTs_le_newMaxTs {request : CheckTxnStatus}
    (h : request.lockTs ≠ TimeStamp.max) :
    request.lockTs ≤ newMaxTs request ∧ newMaxTs request ≠ TimeStamp.max := by
  rw [newMaxTs]
  split_ifs <;> omega

/-- After the answer, the rollback is on the key, below `max_ts`. -/
theorem AnswersRolledBack.rolledBack {op : Op K} (h : AnswersRolledBack key s st op)
    (hok : RecordsOk st.write) (hs : s ≠ TimeStamp.max) :
    RolledBack key st s true (st.step key op).2 ∧ s ≤ (st.step key op).2.maxTs := by
  rcases h with h | ⟨request, rfl, hprimary, h, hstatus⟩
  · obtain ⟨ms, status, hres, hreply, hst⟩ := finish_eq_ok h
    cases hreply
    have hop : (Op.checkSecondaryLocks s : Op K).startTs = some s := rfl
    obtain ⟨-, hback⟩ := checkSecondaryLock_change hok (le_updateMaxTs st.maxTs s) hop hres
    rw [step, hst, maxTs_applyAll]
    exact ⟨hback rfl, ts_le_updateMaxTs hs⟩
  · obtain ⟨ms, status', hres, hreply, hst⟩ := finish_eq_ok h
    cases hreply
    obtain ⟨hle, hne⟩ := lockTs_le_newMaxTs hs
    obtain ⟨-, hback⟩ := checkTxnStatus_change hok (le_updateMaxTs st.maxTs _) hres
    rw [step, hst, maxTs_applyAll]
    exact ⟨hback ⟨hprimary, hstatus⟩, hle.trans (ts_le_updateMaxTs hne)⟩

variable {ops₁ ops₂ : List (Op K)} {st₁ st₂ : KeyState K} {op : Op K}

/-- **A determined rollback stays determined.** Once a resolver has been told that the transaction
`s` is rolled back on the key, no request of `s` leaves a lock on the key any more, under the
conditions on the steps, unless the answer was drawn from an unprotected Rollback record. -/
theorem no_lock_after_rolledBack (h₁ : Exec (KeyState.StepKeeping key s) {} ops₁ st₁)
    (hs : s ≠ TimeStamp.max) (hans : AnswersRolledBack key s st₁ op)
    (hall : ∀ w, (s, w) ∈ st₁.write.entries → w.writeType = .rollback → w.isProtected = true)
    (h₂ : Exec (KeyState.StepKeeping key s) (st₁.step key op).2 ops₂ st₂) :
    ∀ l, st₂.lock = some l → l.ts ≠ s := by
  obtain ⟨-, hinv₁⟩ := RollbackInvariant.empty.run h₁
  obtain ⟨hback, hmax⟩ := hans.rolledBack hinv₁.recordsOk hs
  have hprot := hback.protectedRollback hinv₁.recordsOk hall
  -- The resolver's own step meets the conditions.
  have hcond : RollbackConditions s st₁ op (st₁.step key op).2 := by
    refine ⟨fun l hl hop => ?_, fun _ => Or.inr hmax, fun r hr => ?_⟩
    · subst hop
      cases hans
    · subst hr
      cases hans
  obtain ⟨-, hinv⟩ := hinv₁.change (step_change hinv₁.recordsOk op) hcond
  obtain ⟨hkeeps, hinv₂⟩ := hinv.run h₂
  exact (hinv₂.kept (hkeeps hprot)).lock

end

/-- `CheckSecondaryLocks` on an empty key rolls transaction 5 back; a late prewrite leaves no
lock. -/
theorem no_lock_after_rolledBack_secondary :
    (step 0 ({} : KeyState ℕ) (.checkSecondaryLocks 5)).1 =
      .ok (.secondaryLock .rolledBack) ∧
    ∀ l, ((step 0 {} (.checkSecondaryLocks 5)).2.step 0 (.prewrite latePrewrite)).2.lock =
      some l → l.ts ≠ 5 := by
  have hprot : ProtectedRollback
      (step 0 ({} : KeyState ℕ) (.checkSecondaryLocks 5)).2.write 5 :=
    ⟨newRollback 5 true, by decide, Or.inl rfl⟩
  refine ⟨rfl, no_lock_after_rolledBack (.nil _) (by decide) (.secondary rfl)
    (by intro w hw; cases hw)
      (.cons (e := .prewrite latePrewrite) ⟨rfl, ?_, fun _ => Or.inl hprot, ?_⟩ (.nil _))⟩
  · intro l hl
    cases hl
  · intro r hr _ _
    cases hr
    rfl

/-- A prewrite that skips the constraint check leaves a lock of a transaction that
`CheckSecondaryLocks` has rolled back. -/
theorem lock_after_rolledBack_skipConstraintCheck : ∃ st : KeyState ℕ,
    (step 0 ({} : KeyState ℕ) (.checkSecondaryLocks 5)).1 =
      .ok (.secondaryLock .rolledBack) ∧
    KeyState.Step 0 (step 0 {} (.checkSecondaryLocks 5)).2
      (.prewrite unlockedPrewrite) st ∧
    ∃ l, st.lock = some l ∧ l.ts = 5 :=
  ⟨_, rfl, rfl, _, rfl, rfl⟩

end Tikv
