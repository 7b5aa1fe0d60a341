import Tikv.Txn.Prewriter

/-!
# One-phase commit

A prewrite request with `try_one_pc` commits its keys at once: the locks of the mutations are kept
aside while the keys are prewritten one after the other, and at the end they become commit records
at the largest `min_commit_ts`. If the commit timestamp turns out to be too large at some key, the
request falls back to two-phase commit: the locks kept aside are written after all, and the keys
that are left are prewritten as for two phases.

The loop has two phases (`Queueing`, `FallenBack`), and the step to the second one takes along what
the first has collected. So the modifications commit every mutation or lock every mutation
(**`one_pc_all_or_nothing`**), or, where the commit record of the transaction is found already,
nothing is written.

The locks kept aside have what async commit has put into them, so with secondary keys they are not
all locks of a two-phase commit after the fall back.
-/

namespace Tikv

open List Option PrewriteMutation MvccTxn

variable {K : Type}

/-! ### What the prewrite of a mutation leaves -/

theorem Mutation.exists_lockType {mutation : Mutation} (h : mutation.shouldNotWrite = false) :
    ∃ t, mutation.lockType = some t := by
  cases mutation with
  | checkNotExists a => cases h
  | put | delete | lock | insert => exact ⟨_, rfl⟩

namespace PrewriteMutation

variable {p : PrewriteMutation K} {reader : SnapshotReader K} {maxTs : ℕ} {fields : PrewriteFields}
  {status : LockStatus} {buffer : PrewriteBuffer K} {answer : PrewriteAnswer K} {old : OldValue}

/-- The key has no lock of the transaction but a pessimistic one. -/
def NotPrewritten (p : PrewriteMutation K) (reader : SnapshotReader K) : Prop :=
  ∀ l, reader.lock = some l → l.ts = p.props.startTs → l.isPessimisticLock = true

/-- A mutation that writes gets as far as `write_lock`. -/
theorem prewriteUnlocked_writes {amended : Bool} (hw : p.mutation.shouldNotWrite = false)
    (h : p.prewriteUnlocked maxTs reader fields status amended = .ok (buffer, answer, old)) :
    ∃ fields', p.writeLock maxTs fields' status = .ok (buffer, answer) := by
  obtain ⟨⟨prevWrite, lc⟩, -, h⟩ := bind_eq_ok.mp h
  obtain ⟨reloaded, -, h⟩ := bind_eq_ok.mp h
  dsimp only at h
  rw [hw] at h
  obtain ⟨old', -, h⟩ := bind_eq_ok.mp h
  obtain ⟨⟨buffer', answer'⟩, hwrite, h⟩ := bind_eq_ok.mp h
  cases h
  exact ⟨_, hwrite⟩

/-- A mutation that only checks writes nothing; its timestamp is beyond the start of the
transaction. -/
theorem prewriteUnlocked_checks {amended : Bool} (hw : p.mutation.shouldNotWrite = true)
    (h : p.prewriteUnlocked maxTs reader fields status amended = .ok (buffer, answer, old)) :
    buffer = {} ∧ ∃ ts, answer = .ok ts ∧ (p.needMinCommitTs = true → p.props.startTs < ts) := by
  obtain ⟨⟨prevWrite, lc⟩, -, h⟩ := bind_eq_ok.mp h
  obtain ⟨reloaded, -, h⟩ := bind_eq_ok.mp h
  dsimp only at h
  rw [hw, if_pos rfl] at h
  split at h
  · obtain ⟨next, hnext, h⟩ := bind_eq_ok.mp h
    cases h
    have hlt : p.props.startTs < next := by
      rw [TimeStamp.next] at hnext
      split at hnext <;> cases hnext
      exact Nat.lt_succ_self _
    exact ⟨rfl, _, rfl, fun _ => Nat.lt_of_lt_of_le hlt (Nat.le_max_right _ _)⟩
  · next hneed =>
    cases h
    exact ⟨rfl, _, rfl, fun h => absurd h hneed⟩

/-- A successful prewrite that is not a duplicate has found no lock or the pessimistic lock of the
transaction. -/
theorem prewrite_cases (hown : p.NotPrewritten reader)
    (h : p.prewrite maxTs reader = .ok (buffer, answer, old)) :
    ∃ fields status amended,
      p.prewriteUnlocked maxTs reader fields status amended = .ok (buffer, answer, old) ∧
      status.hasPessimisticLock = reader.lock.isSome ∧
      (reader.lock.isSome = true → p.props.isPessimistic = true) := by
  rw [prewrite] at h
  cases hlock : reader.lock with rw [hlock] at h
  | none =>
    dsimp only at h
    split at h
    · obtain ⟨lc, -, h⟩ := bind_eq_ok.mp h
      exact ⟨_, _, _, h, rfl, fun h => absurd h Bool.false_ne_true⟩
    · exact ⟨_, _, _, h, rfl, fun h => absurd h Bool.false_ne_true⟩
  | some lock =>
    obtain ⟨⟨status, fields⟩, hcheck, h⟩ := bind_eq_ok.mp h
    rcases checkLock_spec hcheck with ⟨ts, rfl⟩ | ⟨-, -, hp, rfl, -⟩
    · -- A duplicated request finds its own lock, which is not pessimistic.
      rw [checkLock] at hcheck
      split at hcheck
      · split at hcheck <;> cases hcheck
      · next hts =>
        rw [if_pos (hown lock hlock (not_not.mp hts))] at hcheck
        split at hcheck
        · cases hcheck
        · split at hcheck <;> cases hcheck
    · exact ⟨_, _, _, h, rfl, fun _ => hp⟩

/-- In one-phase mode the lock is kept aside, or written as for two phases when the commit timestamp
is too large. -/
theorem writeLock_onePc {maxCommitTs : ℕ} (hkind : p.props.commitKind = .onePc maxCommitTs)
    (hw : p.mutation.shouldNotWrite = false)
    (h : p.writeLock maxTs fields status = .ok (buffer, answer)) :
    (∃ lock, buffer = ⟨p.values, some (lock, status.hasPessimisticLock)⟩ ∧
      answer = .ok lock.minCommitTs ∧ p.props.startTs < lock.minCommitTs ∧
      (p.mutation.lockType = some lock.lockType ∧ lock.ts = p.props.startTs) ∧
      lock.useAsyncCommit = p.secondaryKeys.isSome) ∨
    ∃ lock e, buffer = ⟨p.values ++ [.putLock lock], none⟩ ∧ answer = .error e ∧
      (p.mutation.lockType = some lock.lockType ∧ lock.ts = p.props.startTs) ∧
      lock.useOnePc = false ∧ lock.useAsyncCommit = false := by
  obtain ⟨t, ht⟩ := Mutation.exists_lockType hw
  have htry : p.tryOnePc = true := by rw [tryOnePc, hkind]
  rw [writeLock, ht] at h
  dsimp only at h
  rw [htry, Bool.or_true] at h
  obtain ⟨max', -, h⟩ := bind_eq_ok.mp h
  split at h
  · next l hts =>
    obtain ⟨m, rfl, -, -, hstart, -⟩ := asyncCommitTimestamps_spec hts
    cases h
    exact .inl ⟨_, rfl, rfl, hstart, ⟨ht, rfl⟩, rfl⟩
  · cases h
    exact .inr ⟨_, _, rfl, rfl, ⟨ht, rfl⟩, rfl, rfl⟩
  · cases h

theorem writeLock_twoPc (hkind : p.props.commitKind = .twoPc)
    (hsecondary : p.secondaryKeys = none) (hw : p.mutation.shouldNotWrite = false)
    (h : p.writeLock maxTs fields status = .ok (buffer, answer)) :
    ∃ lock, buffer = ⟨p.values ++ [.putLock lock], none⟩ ∧ answer = .ok 0 ∧
      (p.mutation.lockType = some lock.lockType ∧ lock.ts = p.props.startTs) ∧
      lock.useOnePc = false ∧ lock.useAsyncCommit = false := by
  obtain ⟨t, ht⟩ := Mutation.exists_lockType hw
  have htry : p.tryOnePc = false := by rw [tryOnePc, hkind]
  have hasync : (p.newLock fields status t).useAsyncCommit = false := by
    change p.secondaryKeys.isSome = false
    rw [hsecondary]
    rfl
  rw [writeLock, ht] at h
  dsimp only at h
  rw [htry, Bool.or_false, hasync] at h
  cases h
  refine ⟨_, rfl, rfl, ⟨ht, rfl⟩, ?_, hasync⟩
  change (p.secondaryKeys.isNone && p.tryOnePc) = false
  rw [htry, Bool.and_false]

end PrewriteMutation

/-! ### The loop -/

/-- No key is locked by another transaction, and no assertion has failed. -/
def PrewriterState.Clean (s : PrewriterState K) : Prop :=
  s.locks = [] ∧ s.assertionFailure = none

namespace Prewriter

variable [DecidableEq K] {r : Prewriter K} {snapshot : K → KeyState K} {s s' : PrewriterState K}
  {done : List (KeyMutation K)} {m : KeyMutation K}

/-- How the loop goes on to the next mutation. -/
theorem prewriteKey_next (h : r.prewriteKey snapshot s m = .ok (.next s')) :
    (∃ buffer ts old, (r.prewriteMutation s m).prewrite (snapshot m.key).maxTs
        (r.reader snapshot m.key) = .ok (buffer, .ok ts, old) ∧
      ¬ (r.props.isPessimistic = true ∧ m.mutation.shouldNotWrite = true) ∧
      ((needMinCommitTs s m = true ∧ ts = 0) ∨
        ¬ (needMinCommitTs s m = true ∧ ts = 0) ∧
          s' = { s with
            txn := s.txn.push m.key buffer
            finalMinCommitTs :=
              if needMinCommitTs s m = true ∧ s.finalMinCommitTs < ts then ts
              else s.finalMinCommitTs })) ∨
    (∃ buffer e old, (r.prewriteMutation s m).prewrite (snapshot m.key).maxTs
        (r.reader snapshot m.key) = .ok (buffer, .error e, old) ∧
      s' = { s with txn := s.txn.push m.key buffer }.fallBack) ∨
    ∃ locks failure, s' = { s with locks, assertionFailure := failure } ∧ ¬ s'.Clean := by
  rw [prewriteKey] at h
  split_ifs at h with hkind
  split at h
  · next buffer ts old hprewrite =>
    refine .inl ⟨buffer, ts, old, hprewrite, hkind, ?_⟩
    split at h
    · next hzero => exact .inl hzero
    · next hzero =>
      cases h
      exact .inr ⟨hzero, rfl⟩
  · next buffer e old hprewrite =>
    refine .inr (.inl ⟨buffer, e, old, hprewrite, ?_⟩)
    split at h
    · cases h
    · cases h
      rfl
  · next e hprewrite =>
    refine .inr (.inr ?_)
    split at h
    · cases h
    split at h
    · cases h
      refine ⟨_, _, rfl, fun hclean => ?_⟩
      exact append_ne_nil_of_right_ne_nil _ (cons_ne_nil _ _) hclean.1
    · cases h
      refine ⟨_, _, rfl, fun hclean => ?_⟩
      have hnone := hclean.2
      cases hfailure : s.assertionFailure <;> rw [hfailure] at hnone <;> cases hnone
    · cases h
  · cases h

/-- The loop returns early where the commit record of the transaction is found. -/
theorem prewriteKey_done (h : r.prewriteKey snapshot s m = .ok (.done s')) :
    ∃ commitTs, checkCommittedRecordOnErr (r.reader snapshot m.key) = some commitTs ∧
      s' = s.committed commitTs := by
  rw [prewriteKey] at h
  split_ifs at h
  split at h
  · split at h <;> cases h
  · split at h
    · next commitTs hrecord =>
      cases h
      exact ⟨commitTs, hrecord, rfl⟩
    · cases h
  · split at h
    · next commitTs hrecord =>
      cases h
      split_ifs at hrecord
      exact ⟨commitTs, hrecord, rfl⟩
    · split at h <;> cases h
  · cases h

/-- The lock is the one of the mutation. -/
def LockOf (r : Prewriter K) (m : KeyMutation K) (lock : Lock K) : Prop :=
  m.mutation.lockType = some lock.lockType ∧ lock.ts = r.props.startTs

/-- The loop as long as the request may commit in one phase: the locks are kept aside. -/
structure Queueing (r : Prewriter K) (snapshot : K → KeyState K) (s : PrewriterState K)
    (done : List (KeyMutation K)) : Prop where
  tryOnePc : s.tryOnePc = true
  commitKind : s.commitKind = .onePc r.maxCommitTs
  secondaryKeys : s.secondaryKeys = r.secondaryKeys
  values : ∀ x ∈ s.txn.modifies, ∃ ts v, x.2 = .putValue ts v
  queued : ∀ q ∈ s.txn.locksFor1pc, (∃ m : KeyMutation K, r.LockOf m q.2.1) ∧
    (r.secondaryKeys = none → q.2.1.useAsyncCommit = false)
  complete : s.Clean → ∀ m ∈ done,
    m.mutation.shouldNotWrite = true ∧ (snapshot m.key).lock = none ∨
    ∃ lock, (m.key, lock, (snapshot m.key).lock.isSome) ∈ s.txn.locksFor1pc ∧ r.LockOf m lock
  finalMinCommitTs : s.Clean → done ≠ [] → r.props.startTs < s.finalMinCommitTs
  guards : s.txn.guards = s.txn.locksFor1pc.map Prod.fst

/-- The lock that is written for the mutation after a fall back. -/
def LocksMutation (r : Prewriter K) (modifies : List (K × Modify K)) (m : KeyMutation K) : Prop :=
  ∃ lock, (m.key, .putLock lock) ∈ modifies ∧ r.LockOf m lock ∧ lock.useOnePc = false ∧
    (r.secondaryKeys = none → lock.useAsyncCommit = false)

/-- The loop after the fall back: the locks are written. -/
structure FallenBack (r : Prewriter K) (s : PrewriterState K) (done : List (KeyMutation K)) :
    Prop where
  tryOnePc : s.tryOnePc = false
  commitKind : s.commitKind = .twoPc
  secondaryKeys : s.secondaryKeys = none
  locksFor1pc : s.txn.locksFor1pc = []
  guards : s.txn.guards = []
  noCommit : ∀ x ∈ s.txn.modifies, ∀ ts w, x.2 ≠ .putWrite ts w
  complete : s.Clean → ∀ m ∈ done, m.mutation.shouldNotWrite = false →
    r.LocksMutation s.txn.modifies m

/-- What the prewrite of the next mutation has done, by whether it writes. -/
theorem prewriteMutation_cases {buffer : PrewriteBuffer K} {answer : PrewriteAnswer K}
    {old : OldValue}
    (hown : (r.prewriteMutation s m).NotPrewritten (r.reader snapshot m.key))
    (h : (r.prewriteMutation s m).prewrite (snapshot m.key).maxTs (r.reader snapshot m.key) =
      .ok (buffer, answer, old)) :
    (m.mutation.shouldNotWrite = false ∧ ∃ fields status,
      (r.prewriteMutation s m).writeLock (snapshot m.key).maxTs fields status =
        .ok (buffer, answer) ∧
      status.hasPessimisticLock = (snapshot m.key).lock.isSome) ∨
    m.mutation.shouldNotWrite = true ∧ buffer = {} ∧
      (r.props.isPessimistic = false → (snapshot m.key).lock = none) ∧
      ∃ ts, answer = .ok ts ∧
        ((r.prewriteMutation s m).needMinCommitTs = true → r.props.startTs < ts) := by
  obtain ⟨fields, status, amended, hunlocked, hpess, hkind⟩ :=
    prewrite_cases hown h
  cases hw : m.mutation.shouldNotWrite with
  | false =>
    obtain ⟨fields', hwrite⟩ := prewriteUnlocked_writes hw hunlocked
    exact .inl ⟨rfl, fields', status, hwrite, hpess⟩
  | true =>
    obtain ⟨hbuffer, ts, hts⟩ := prewriteUnlocked_checks hw hunlocked
    refine .inr ⟨rfl, hbuffer, fun hopt => ?_, ts, hts⟩
    refine not_isSome_iff_eq_none.mp fun hsome => ?_
    exact absurd (hkind hsome) (by rw [show (r.prewriteMutation s m).props.isPessimistic =
      r.props.isPessimistic from rfl, hopt]; exact Bool.false_ne_true)

omit [DecidableEq K] in
theorem mem_values {p : PrewriteMutation K} {key : K} {x : K × Modify K}
    (h : x ∈ p.values.map fun y => (key, y)) : ∃ ts v, x.2 = .putValue ts v := by
  obtain ⟨y, hy, rfl⟩ := mem_map.mp h
  obtain ⟨v, -, rfl⟩ := map_eq_some_iff.mp (mem_toList.mp hy)
  exact ⟨_, _, rfl⟩

omit [DecidableEq K] in
theorem ne_putWrite_of_mem {p : PrewriteMutation K} {key : K} {lock : Lock K} {x : K × Modify K}
    (h : x ∈ (p.values ++ [Modify.putLock lock]).map fun y => (key, y)) (ts : ℕ) (w : Write) :
    x.2 ≠ .putWrite ts w := by
  rw [map_append] at h
  rcases mem_append.mp h with h | h
  · obtain ⟨ts', v, hv⟩ := mem_values h
    rw [hv]
    nofun
  · rw [mem_singleton.mp h]
    nofun

section

variable (h : r.Queueing snapshot s done)
include h

variable {finalMinCommitTs : ℕ} {lock : Lock K}

/-- The lock of the next mutation is kept aside. -/
theorem Queueing.push (hlock : r.LockOf m lock)
    (hasync : r.secondaryKeys = none → lock.useAsyncCommit = false)
    (hts : r.props.startTs < finalMinCommitTs) :
    r.Queueing snapshot { s with
      txn := s.txn.push m.key
        ⟨(r.prewriteMutation s m).values, some (lock, (snapshot m.key).lock.isSome)⟩
      finalMinCommitTs } (done ++ [m]) where
  tryOnePc := h.tryOnePc
  commitKind := h.commitKind
  secondaryKeys := h.secondaryKeys
  values := forall_mem_append.mpr ⟨h.values, fun _ => mem_values⟩
  queued := forall_mem_append.mpr ⟨h.queued, forall_mem_singleton.mpr ⟨⟨m, hlock⟩, hasync⟩⟩
  complete := by
    intro hclean
    refine forall_mem_append.mpr ⟨fun m' hm' => ?_, forall_mem_singleton.mpr (.inr ?_)⟩
    · refine (h.complete hclean m' hm').imp_right fun ⟨lock', hmem, hof⟩ => ?_
      exact ⟨lock', mem_append_left _ hmem, hof⟩
    · exact ⟨lock, mem_append_right _ mem_cons_self, hlock⟩
  finalMinCommitTs := fun _ _ => hts
  guards := by
    change s.txn.guards ++ [m.key] =
      (s.txn.locksFor1pc ++ [(m.key, lock, (snapshot m.key).lock.isSome)]).map Prod.fst
    rw [h.guards, map_append]
    rfl

omit [DecidableEq K] in
/-- The next mutation is only a check. -/
theorem Queueing.check (hw : m.mutation.shouldNotWrite = true)
    (hlock : (snapshot m.key).lock = none) (hts : r.props.startTs < finalMinCommitTs) :
    r.Queueing snapshot { s with finalMinCommitTs } (done ++ [m]) :=
  { h with
    complete := fun hclean =>
      forall_mem_append.mpr ⟨h.complete hclean, forall_mem_singleton.mpr (.inl ⟨hw, hlock⟩)⟩
    finalMinCommitTs := fun _ _ => hts }

/-- The fall back: the lock of the next mutation is written, and then the locks that were kept
aside. -/
theorem Queueing.fallBack (hlock : r.LockOf m lock) (hone : lock.useOnePc = false)
    (hasync : lock.useAsyncCommit = false) :
    r.FallenBack ({ s with
      txn := s.txn.push m.key ⟨(r.prewriteMutation s m).values ++ [.putLock lock], none⟩
      } : PrewriterState K).fallBack (done ++ [m]) where
  tryOnePc := rfl
  commitKind := rfl
  secondaryKeys := rfl
  locksFor1pc := rfl
  guards := rfl
  noCommit := by
    refine forall_mem_append.mpr ⟨forall_mem_append.mpr
      ⟨fun x hx ts w heq => ?_, fun _ => ne_putWrite_of_mem⟩,
      forall_mem_map.mpr fun _ _ _ _ heq => nomatch heq⟩
    obtain ⟨ts', v, hv⟩ := h.values x hx
    exact nomatch heq.symm.trans hv
  complete := by
    intro hclean
    refine forall_mem_append.mpr ⟨fun m' hm' hw => ?_, forall_mem_singleton.mpr fun _ => ?_⟩
    · rcases h.complete hclean m' hm' with ⟨hw', -⟩ | ⟨lock', hmem, hof⟩
      · exact nomatch hw'.symm.trans hw
      · refine ⟨{ lock' with useOnePc := false }, mem_append_right _ ?_, hof, rfl,
          (h.queued _ hmem).2⟩
        exact mem_map.mpr
          ⟨(m'.key, lock', (snapshot m'.key).lock.isSome), mem_append_left _ hmem, rfl⟩
    · refine ⟨lock, mem_append_left _ (mem_append_right _ ?_), hlock, hone,
        fun _ => hasync⟩
      exact mem_map.mpr ⟨_, mem_append_right _ mem_cons_self, rfl⟩

omit h in
/-- A mutation after the fall back is locked. -/
theorem FallenBack.push (h : r.FallenBack s done) (hlock : r.LockOf m lock)
    (hone : lock.useOnePc = false) (hasync : lock.useAsyncCommit = false) :
    r.FallenBack { s with
      txn := s.txn.push m.key ⟨(r.prewriteMutation s m).values ++ [.putLock lock], none⟩
      finalMinCommitTs } (done ++ [m]) where
  tryOnePc := h.tryOnePc
  commitKind := h.commitKind
  secondaryKeys := h.secondaryKeys
  locksFor1pc := by
    change s.txn.locksFor1pc ++ [] = []
    rw [h.locksFor1pc, append_nil]
  guards := by
    have hguard : (⟨(r.prewriteMutation s m).values ++ [.putLock lock], none⟩ :
        PrewriteBuffer K).isGuarded = false := by
      rw [PrewriteBuffer.isGuarded, any_append, Bool.or_eq_false_iff,
        Bool.or_eq_false_iff]
      refine ⟨rfl, ?_, ?_⟩
      · refine any_eq_false.mpr fun x hx => ?_
        obtain ⟨v, -, rfl⟩ := map_eq_some_iff.mp (mem_toList.mp hx)
        exact Bool.false_ne_true
      · rw [any_cons, any_nil, Bool.or_false]
        exact hasync
    change (if _ then s.txn.guards ++ [m.key] else s.txn.guards) = []
    rw [hguard, if_neg Bool.false_ne_true, h.guards]
  noCommit := forall_mem_append.mpr ⟨h.noCommit, fun _ => ne_putWrite_of_mem⟩
  complete := by
    intro hclean
    refine forall_mem_append.mpr ⟨fun m' hm' hw => ?_, forall_mem_singleton.mpr fun _ => ?_⟩
    · obtain ⟨lock', hmem, hrest⟩ := h.complete hclean m' hm' hw
      exact ⟨lock', mem_append_left _ hmem, hrest⟩
    · refine ⟨lock, mem_append_right _ ?_, hlock, hone, fun _ => hasync⟩
      exact mem_map.mpr ⟨_, mem_append_right _ mem_cons_self, rfl⟩

/-- One mutation, as long as the request may commit in one phase. -/
theorem Queueing.step (hown : (r.prewriteMutation s m).NotPrewritten (r.reader snapshot m.key))
    (hnext : r.prewriteKey snapshot s m = .ok (.next s')) :
    r.Queueing snapshot s' (done ++ [m]) ∨ r.FallenBack s' (done ++ [m]) := by
  have hneed : needMinCommitTs s m = true := by
    rw [needMinCommitTs, h.tryOnePc, Bool.or_true]
  have hkind : (r.prewriteMutation s m).props.commitKind = .onePc r.maxCommitTs := h.commitKind
  rcases prewriteKey_next hnext with ⟨buffer, ts, old, hprewrite, hcheck, hrest⟩ |
    ⟨buffer, e, old, hprewrite, rfl⟩ | ⟨locks, failure, rfl, hdirty⟩
  · have hlt : r.props.startTs < ts → r.props.startTs <
        if needMinCommitTs s m = true ∧ s.finalMinCommitTs < ts then ts
        else s.finalMinCommitTs := by
      simp only [hneed, true_and]
      split <;> omega
    rcases prewriteMutation_cases hown hprewrite with ⟨hw, fields, status, hwrite, hpess⟩ |
      ⟨hw, rfl, hlock, ts', hts, hstart⟩
    · rcases PrewriteMutation.writeLock_onePc hkind hw hwrite with
        ⟨lock, rfl, hanswer, hstart, hof, hasync⟩ | ⟨lock, e, -, hanswer, -⟩
      · obtain rfl := Except.ok.inj hanswer
        rcases hrest with ⟨-, hzero⟩ | ⟨-, rfl⟩
        · omega
        rw [hpess]
        refine .inl (h.push hof (fun hnone => ?_) (hlt hstart))
        have hsecondary : secondaries s m.key = none := by
          rw [secondaries, h.secondaryKeys, hnone]
          exact ite_self _
        rw [hasync]
        exact congrArg Option.isSome hsecondary
      · cases hanswer
    · obtain rfl := Except.ok.inj hts
      have hstart := hstart (by rw [PrewriteMutation.needMinCommitTs, hkind])
      rcases hrest with ⟨-, hzero⟩ | ⟨-, rfl⟩
      · omega
      rw [push_empty]
      refine .inl (h.check hw (hlock ?_) (hlt hstart))
      exact Bool.eq_false_iff.mpr fun hpess => hcheck ⟨hpess, hw⟩
  · rcases prewriteMutation_cases hown hprewrite with ⟨hw, fields, status, hwrite, -⟩ |
      ⟨-, -, -, ts, hts, -⟩
    · rcases PrewriteMutation.writeLock_onePc hkind hw hwrite with
        ⟨lock, -, hanswer, -⟩ | ⟨lock, e, rfl, -, hof, hone, hasync⟩
      · cases hanswer
      · exact .inr (h.fallBack hof hone hasync)
    · cases hts
  · exact .inl { h with
      complete := fun hclean => absurd hclean hdirty
      finalMinCommitTs := fun hclean => absurd hclean hdirty }

end

/-- One mutation after the fall back. -/
theorem FallenBack.step (h : r.FallenBack s done)
    (hown : (r.prewriteMutation s m).NotPrewritten (r.reader snapshot m.key))
    (hnext : r.prewriteKey snapshot s m = .ok (.next s')) : r.FallenBack s' (done ++ [m]) := by
  have hsecondary : secondaries s m.key = none := by
    rw [secondaries, h.secondaryKeys]
    exact ite_self _
  have hneed : needMinCommitTs s m = false := by
    rw [needMinCommitTs, h.tryOnePc, hsecondary]
    rfl
  rcases prewriteKey_next hnext with ⟨buffer, ts, old, hprewrite, -, hrest⟩ |
    ⟨buffer, e, old, hprewrite, rfl⟩ | ⟨locks, failure, rfl, hdirty⟩
  · rcases hrest with ⟨hyes, -⟩ | ⟨-, rfl⟩
    · exact nomatch hyes.symm.trans hneed
    rcases prewriteMutation_cases hown hprewrite with ⟨hw, fields, status, hwrite, -⟩ |
      ⟨hw, rfl, -⟩
    · obtain ⟨lock, rfl, -, hof, hone, hasync⟩ :=
        writeLock_twoPc h.commitKind hsecondary hw hwrite
      exact h.push hof hone hasync
    · rw [push_empty]
      exact { h with
        complete := fun hclean => forall_mem_append.mpr ⟨h.complete hclean,
          forall_mem_singleton.mpr fun hw' => nomatch hw.symm.trans hw'⟩ }
  · rcases prewriteMutation_cases hown hprewrite with ⟨hw, fields, status, hwrite, -⟩ |
      ⟨-, -, -, ts, hts, -⟩
    · obtain ⟨lock, -, hanswer, -⟩ :=
        writeLock_twoPc h.commitKind hsecondary hw hwrite
      cases hanswer
    · cases hts
  · exact { h with complete := fun hclean => absurd hclean hdirty }

/-- The commit record of the transaction is found on a key of the request, and nothing is
written. -/
def FoundCommitted (r : Prewriter K) (snapshot : K → KeyState K) (s : PrewriterState K) : Prop :=
  ∃ m ∈ r.mutations, ∃ commitTs,
    checkCommittedRecordOnErr (r.reader snapshot m.key) = some commitTs ∧
    s.finalMinCommitTs = commitTs ∧ s.locks = [] ∧ s.txn = {}

/-- The whole loop. -/
theorem prewriteLoop_spec {ms : List (KeyMutation K)} (hsub : ∀ m ∈ ms, m ∈ r.mutations)
    (hown : ∀ m ∈ r.mutations, ∀ l, (snapshot m.key).lock = some l → l.ts = r.props.startTs →
      l.isPessimisticLock = true)
    (h : r.Queueing snapshot s done ∨ r.FallenBack s done)
    (hloop : r.prewriteLoop snapshot ms s = .ok s') :
    r.FoundCommitted snapshot s' ∨
      s'.assertionFailure = none ∧
        (r.Queueing snapshot s' (done ++ ms) ∨ r.FallenBack s' (done ++ ms)) := by
  induction ms generalizing s done with
  | nil =>
    rw [prewriteLoop] at hloop
    split at hloop
    · cases hloop
    · next hfailure =>
      obtain rfl := Except.ok.inj hloop
      rw [append_nil]
      exact .inr ⟨hfailure, h⟩
  | cons m ms ih =>
    have hm := hsub m mem_cons_self
    obtain ⟨step, hstep, hloop⟩ := bind_eq_ok.mp hloop
    cases step with
    | next s₁ =>
      rw [append_cons]
      refine ih (fun m' hm' => hsub m' (mem_cons_of_mem _ hm')) ?_ hloop
      rcases h with h | h
      · exact h.step (hown m hm) hstep
      · exact .inr (h.step (hown m hm) hstep)
    | done s₁ =>
      obtain rfl := Except.ok.inj hloop
      obtain ⟨commitTs, hrecord, rfl⟩ := prewriteKey_done hstep
      exact .inl ⟨m, hm, commitTs, hrecord, rfl, rfl, rfl⟩

/-! ### The end of the request -/

omit [DecidableEq K] in
/-- Every lock that was kept aside is written as a commit record. -/
theorem commit1pcLocks_spec {startTs commitTs : ℕ} {locks : List (K × Lock K × Bool)}
    (h : ∀ q ∈ locks, q.2.1.lockType ≠ .pessimistic) :
    ∃ modifies released, commit1pcLocks startTs commitTs locks = .ok (modifies, released) ∧
      (∀ q ∈ locks, (∃ write, q.2.1.commitRecord startTs = .ok write ∧
          (q.1, .putWrite commitTs write) ∈ modifies) ∧
        (q.2.2 = true → (q.1, .deleteLock) ∈ modifies)) ∧
      ∀ x ∈ modifies, x.2 = .deleteLock ∨ ∃ write, x.2 = .putWrite commitTs write := by
  induction locks with
  | nil => exact ⟨[], [], rfl, nofun, nofun⟩
  | cons q locks ih =>
    obtain ⟨key, lock, delete⟩ := q
    obtain ⟨modifies, released, hrest, hall, honly⟩ := ih fun q hq =>
      h q (mem_cons_of_mem _ hq)
    obtain ⟨write, hwrite⟩ : ∃ write, lock.commitRecord startTs = .ok write := by
      have hne := h _ mem_cons_self
      rw [Lock.commitRecord]
      cases hlock : lock.lockType with
      | pessimistic => exact absurd hlock hne
      | put | delete | lock => exact ⟨_, rfl⟩
    rw [commit1pcLocks, hwrite, hrest]
    -- What is committed later stays among the modifications.
    have hmono : ∀ {more : List (K × Modify K)}, modifies ⊆ more → ∀ q ∈ locks,
        (∃ write, q.2.1.commitRecord startTs = .ok write ∧
          (q.1, .putWrite commitTs write) ∈ more) ∧
        (q.2.2 = true → (q.1, .deleteLock) ∈ more) := by
      intro more hsub q hq
      obtain ⟨⟨write, hw, hmem⟩, hdelete⟩ := hall q hq
      exact ⟨⟨write, hw, hsub hmem⟩, fun htrue => hsub (hdelete htrue)⟩
    cases delete with
    | true =>
      refine ⟨_, _, rfl, forall_mem_cons.mpr ⟨?_, hmono fun x hx => ?_⟩,
        forall_mem_cons.mpr ⟨.inr ⟨write, rfl⟩, forall_mem_cons.mpr ⟨.inl rfl, honly⟩⟩⟩
      · exact ⟨⟨write, hwrite, mem_cons_self⟩, fun _ => mem_cons_of_mem _ mem_cons_self⟩
      · exact mem_cons_of_mem _ (mem_cons_of_mem _ hx)
    | false =>
      refine ⟨_, _, rfl, forall_mem_cons.mpr ⟨?_, hmono (subset_cons_self _ _)⟩,
        forall_mem_cons.mpr ⟨.inr ⟨write, rfl⟩, honly⟩⟩
      exact ⟨⟨write, hwrite, mem_cons_self⟩, nofun⟩

/-- The modifications commit every mutation at one timestamp: there is a commit record of each
mutation that writes, no commit record at another timestamp and no lock, and the pessimistic locks
of the transaction are deleted. -/
structure CommitsAll (r : Prewriter K) (snapshot : K → KeyState K) (commitTs : ℕ)
    (modifies : List (K × Modify K)) : Prop where
  committed : ∀ m ∈ r.mutations, m.mutation.shouldNotWrite = false →
    ∃ write, (m.key, .putWrite commitTs write) ∈ modifies ∧ write.startTs = r.props.startTs ∧
      m.mutation.lockType.bind WriteType.fromLockType = some write.writeType
  only : ∀ key ts write, (key, .putWrite ts write) ∈ modifies → ts = commitTs
  noLock : ∀ key lock, (key, .putLock lock) ∉ modifies
  unlocked : ∀ m ∈ r.mutations, ∀ l, (snapshot m.key).lock = some l → l.ts = r.props.startTs →
    (m.key, .deleteLock) ∈ modifies

/-- The modifications lock every mutation that writes, and commit nothing. -/
structure LocksAll (r : Prewriter K) (modifies : List (K × Modify K)) : Prop where
  locked : ∀ m ∈ r.mutations, m.mutation.shouldNotWrite = false → r.LocksMutation modifies m
  noCommit : ∀ key ts write, (key, .putWrite ts write) ∉ modifies

omit [DecidableEq K] in
/-- The end of a request that may commit in one phase. -/
theorem Queueing.writeResult (h : r.Queueing snapshot s r.mutations) (hclean : s.Clean)
    (hne : r.mutations ≠ []) :
    ∃ res, r.writeResult s = .ok res ∧ res.locks = [] ∧ res.onePcCommitTs = s.finalMinCommitTs ∧
      r.props.startTs < s.finalMinCommitTs ∧
      (∀ m ∈ r.mutations, m.mutation.shouldNotWrite = false → m.key ∈ res.lockGuards) ∧
      r.CommitsAll snapshot s.finalMinCommitTs res.modifies := by
  have hlt := h.finalMinCommitTs hclean hne
  obtain ⟨modifies, released, hcommit, hall, honly⟩ :=
    @commit1pcLocks_spec K r.props.startTs s.finalMinCommitTs s.txn.locksFor1pc (by
      intro q hq hpess
      obtain ⟨⟨m, htype, -⟩, -⟩ := h.queued q hq
      exact m.mutation.lockType_ne_pessimistic (htype.trans (congrArg some hpess)))
  have hwritten : ∀ x ∈ s.txn.modifies ++ modifies, (∃ ts v, x.2 = .putValue ts v) ∨
      x.2 = .deleteLock ∨ ∃ write, x.2 = .putWrite s.finalMinCommitTs write := fun x hx =>
    (mem_append.mp hx).imp (h.values x) (honly x)
  refine ⟨⟨[], if s.secondaryKeys.isSome then s.finalMinCommitTs else 0, s.finalMinCommitTs,
    s.txn.modifies ++ modifies, released, s.txn.guards⟩, ?_, rfl, rfl, hlt, ?_, ?_, ?_, ?_, ?_⟩
  · rw [Prewriter.writeResult, hclean.1]
    rw [if_pos (show ([] : List (ErrorInner K)).isEmpty = true from rfl), onePcCommit,
      h.tryOnePc, if_pos rfl, if_neg (by omega), handle1pcLocks, hcommit]
    rfl
  · intro m hm hw
    rcases h.complete hclean m hm with ⟨hw', -⟩ | ⟨lock, hmem, -⟩
    · exact nomatch hw'.symm.trans hw
    · exact h.guards.symm ▸ mem_map.mpr ⟨_, hmem, rfl⟩
  · intro m hm hw
    rcases h.complete hclean m hm with ⟨hw', -⟩ | ⟨lock, hmem, htype, -⟩
    · exact nomatch hw'.symm.trans hw
    obtain ⟨⟨write, hwrite, hput⟩, -⟩ := hall _ hmem
    refine ⟨write, mem_append_right _ hput, ?_⟩
    rw [htype]
    rw [Lock.commitRecord] at hwrite
    split at hwrite
    · next writeType hfrom =>
      obtain rfl := Except.ok.inj hwrite
      exact ⟨rfl, hfrom⟩
    · cases hwrite
  · intro key ts write hmem
    rcases hwritten _ hmem with ⟨_, _, heq⟩ | heq | ⟨_, heq⟩ <;> cases heq
    rfl
  · intro key lock hmem
    rcases hwritten _ hmem with ⟨_, _, heq⟩ | heq | ⟨_, heq⟩ <;> cases heq
  · intro m hm l hl _
    rcases h.complete hclean m hm with ⟨-, hnone⟩ | ⟨lock, hmem, -⟩
    · exact nomatch hl.symm.trans hnone
    · exact mem_append_right _ ((hall _ hmem).2 (by rw [hl]; rfl))

omit [DecidableEq K] in
/-- The end of a request that has fallen back. -/
theorem FallenBack.writeResult (h : r.FallenBack s r.mutations) (hclean : s.Clean) :
    ∃ res, r.writeResult s = .ok res ∧ res.locks = [] ∧ res.onePcCommitTs = 0 ∧
      res.minCommitTs = 0 ∧ res.lockGuards = [] ∧ r.LocksAll res.modifies := by
  refine ⟨⟨[], 0, 0, s.txn.modifies, [], s.txn.guards⟩, ?_, rfl, rfl, rfl, h.guards,
    h.complete hclean, fun key ts write hmem => h.noCommit _ hmem ts write rfl⟩
  rw [Prewriter.writeResult, hclean.1, h.secondaryKeys]
  dsimp only
  rw [if_pos (show ([] : List (ErrorInner K)).isEmpty = true from rfl), onePcCommit,
    h.tryOnePc, if_neg Bool.false_ne_true, h.locksFor1pc, if_pos (show ([] : List (K × Lock K ×
      Bool)).isEmpty = true from rfl), ok_bind]
  rw [intoModifies, h.locksFor1pc]
  rfl

/-- **All or nothing.** A request for one-phase commit, on keys that the transaction has not
prewritten, ends without locked keys in one of three ways: it commits every mutation at
`final_min_commit_ts`; it locks every mutation and reports no timestamp; or it finds the transaction
committed, and writes nothing. The assertions on the way hold. -/
theorem one_pc_all_or_nothing (r : Prewriter K) (snapshot : K → KeyState K)
    (htry : r.tryOnePc = true) (hne : r.mutations ≠ [])
    (hown : ∀ m ∈ r.mutations, ∀ l, (snapshot m.key).lock = some l → l.ts = r.props.startTs →
      l.isPessimisticLock = true)
    (s : PrewriterState K) (hprewrite : r.prewrite snapshot = .ok s) (hlocks : s.locks = []) :
    (r.FoundCommitted snapshot s ∧ (s.finalMinCommitTs ≠ 0 →
      ∃ res, r.writeResult s = .ok res ∧ res.locks = [] ∧ res.modifies = [])) ∨
    ∃ res, r.writeResult s = .ok res ∧ res.locks = [] ∧
      ((res.onePcCommitTs = s.finalMinCommitTs ∧ r.props.startTs < s.finalMinCommitTs ∧
        (∀ m ∈ r.mutations, m.mutation.shouldNotWrite = false → m.key ∈ res.lockGuards) ∧
        r.CommitsAll snapshot s.finalMinCommitTs res.modifies) ∨
      (res.onePcCommitTs = 0 ∧ res.minCommitTs = 0 ∧ res.lockGuards = [] ∧
        r.LocksAll res.modifies)) := by
  have hstart : r.Queueing snapshot r.start [] := by
    refine ⟨htry, ?_, rfl, nofun, nofun, nofun, fun _ h => absurd rfl h, rfl⟩
    rw [start, htry]
  rcases prewriteLoop_spec (fun _ => id) hown (.inl hstart) hprewrite with hfound | ⟨hfailure, h⟩
  · refine .inl ⟨hfound, fun hts => ?_⟩
    obtain ⟨-, -, -, -, -, -, htxn⟩ := hfound
    rw [writeResult, hlocks, htxn]
    cases s.tryOnePc with
    | true =>
      rw [onePcCommit, if_neg hts]
      exact ⟨_, rfl, rfl, rfl⟩
    | false => exact ⟨_, rfl, rfl, rfl⟩
  · refine .inr ?_
    rcases h with h | h
    · obtain ⟨res, hres, hnone, hrest⟩ := h.writeResult ⟨hlocks, hfailure⟩ hne
      exact ⟨res, hres, hnone, .inl hrest⟩
    · obtain ⟨res, hres, hnone, hrest⟩ := h.writeResult ⟨hlocks, hfailure⟩
      exact ⟨res, hres, hnone, .inr hrest⟩

/-- Two keys are put by an optimistic transaction, with 50 as the largest commit timestamp. -/
def twoPuts : Prewriter ℕ where
  props := { startTs := 5, kind := .optimistic false, primary := 1 }
  mutations := [{ key := 1, mutation := .put [1] .none }, { key := 2, mutation := .put [2] .none }]
  maxCommitTs := 50
  tryOnePc := true

/-- The keys have no versions, and `max_ts` is 100 by the time the second one is prewritten. -/
def maxTsGrows (key : ℕ) : KeyState ℕ :=
  { maxTs := if key = 1 then 0 else 100 }

/-- The second key makes the request fall back. -/
theorem one_pc_all_or_nothing_fall_back :
    ∃ s, twoPuts.prewrite maxTsGrows = .ok s ∧ s.tryOnePc = false ∧
      ((twoPuts.FoundCommitted maxTsGrows s ∧ (s.finalMinCommitTs ≠ 0 →
        ∃ res, twoPuts.writeResult s = .ok res ∧ res.locks = [] ∧ res.modifies = [])) ∨
      ∃ res, twoPuts.writeResult s = .ok res ∧ res.locks = [] ∧
        ((res.onePcCommitTs = s.finalMinCommitTs ∧ 5 < s.finalMinCommitTs ∧
          (∀ m ∈ twoPuts.mutations, m.mutation.shouldNotWrite = false → m.key ∈ res.lockGuards) ∧
          twoPuts.CommitsAll maxTsGrows s.finalMinCommitTs res.modifies) ∨
        (res.onePcCommitTs = 0 ∧ res.minCommitTs = 0 ∧ res.lockGuards = [] ∧
          twoPuts.LocksAll res.modifies))) :=
  ⟨_, rfl, rfl, one_pc_all_or_nothing twoPuts maxTsGrows rfl (cons_ne_nil _ _)
    (fun _ _ _ h => nomatch h) _ rfl rfl⟩

/-- The first key has a commit record of the transaction. -/
def firstCommitted (key : ℕ) : KeyState ℕ :=
  if key = 1 then
    { write := (∅ : Versions Write).insert 10 { writeType := .put, startTs := 5 } }
  else {}

/-- A retry of a request that has committed: no key is locked and no error is reported, and there is
neither a commit record nor a lock among the modifications. -/
theorem one_pc_retry_writes_nothing :
    ∃ s res, twoPuts.prewrite firstCommitted = .ok s ∧ twoPuts.writeResult s = .ok res ∧
      res.locks = [] ∧ res.onePcCommitTs = 10 ∧ res.modifies = [] :=
  ⟨_, _, rfl, rfl, rfl, rfl, rfl⟩

end Prewriter

end Tikv
