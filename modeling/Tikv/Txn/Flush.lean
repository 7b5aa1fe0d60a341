import Tikv.Txn.Transition

/-!
# Flush

A pipelined transaction does not keep its mutations in memory until it commits: it flushes them in
batches, each as a prewrite of a generation of its own. A key can be flushed more than once, and
the lock of a larger generation replaces the one before.

The prewrites of the other commands have generation zero; `prewriteWithGeneration` is the same
function for every generation.
-/

namespace Tikv

variable {K : Type}

/-- `Lock::with_generation`, for the locks among the modifications. -/
def Modify.withGeneration (generation : ℕ) : Modify K → Modify K
  | .putLock lock => .putLock { lock with generation := generation }
  | modify => modify

namespace PrewriteMutation

variable (p : PrewriteMutation K) (generation : ℕ)

/-- `PrewriteMutation::check_lock`. A mutation of an older generation comes too late. -/
def checkLockAt (key : K) (fields : PrewriteFields) (lock : Lock K) :
    Res K (LockStatus × PrewriteFields) :=
  if lock.ts = p.props.startTs ∧ !lock.isPessimisticLock ∧ 0 < generation ∧
      generation ≤ lock.generation then
    .error (.error (.generationOutOfOrder generation key lock))
  else p.checkLock key fields lock

/-- `prewrite_with_generation`, after `from_mutation` and the update of `max_ts`. -/
def prewriteWithGeneration (maxTs : ℕ) (reader : SnapshotReader K) :
    Res K (PrewriteBuffer K × PrewriteAnswer K × OldValue) := do
  let fields : PrewriteFields := { minCommitTs := p.props.minCommitTs, lockTtl := p.props.lockTtl }
  let write (fields : PrewriteFields) (lockStatus : LockStatus) (skipAssertion : Bool) :
      Res K (PrewriteBuffer K × PrewriteAnswer K × OldValue) := do
    let (buffer, answer, oldValue) ←
      p.prewriteUnlocked maxTs reader fields lockStatus skipAssertion
    return (⟨buffer.modifies.map (.withGeneration generation), buffer.lockFor1pc.map fun l =>
      ({ l.1 with generation := generation }, l.2)⟩, answer, oldValue)
  match reader.lock with
  | some lock =>
    match ← p.checkLockAt generation reader.key fields lock with
    | (.locked ts, fields) =>
      -- A key can be flushed again; only the assertion of the first flush counts.
      if generation = 0 then return ({}, .ok ts, .unspecified)
      else write fields (.locked ts) true
    | (lockStatus, fields) => write fields lockStatus false
  | none =>
    if p.pessimisticAction = .doPessimisticCheck then
      if generation ≠ 0 then .error (.panic .assertion)
      else
        let lastChange ← p.amendPessimisticLock reader
        write { fields with lastChange } .none true
    else write fields .none false

end PrewriteMutation

/-- The flush of the key within a request. -/
structure Flush (K : Type) where
  startTs : ℕ
  primary : K
  mutation : Mutation
  generation : ℕ
  lockTtl : ℕ := 0
  assertionLevel : AssertionLevel := .off
  needOldValue : Bool := false
  isRetryRequest : Bool := false
  txnSource : ℕ := 0
  env : Env := {}
  /-- The error of another mutation of the request, with which the whole request fails. -/
  otherError : Option (ErrorInner K) := none

namespace Flush

variable (f : Flush K)

/-- The properties `Flush::flush` prewrites with. -/
def props : Res K (TransactionProperties K) := do
  -- With `min_commit_ts` zero readers could not push it.
  let minCommitTs ← liftPanic (TimeStamp.next f.startTs)
  return {
    startTs := f.startTs
    kind := .optimistic false
    commitKind := .twoPc
    primary := f.primary
    txnSize := 2 ^ 64 - 1
    lockTtl := f.lockTtl
    minCommitTs := minCommitTs
    needOldValue := f.needOldValue
    isRetryRequest := f.isRetryRequest
    assertionLevel := f.assertionLevel
    txnSource := f.txnSource }

/-- What `Flush::flush` makes of an error: an error of the request, or one it reports for the
key. -/
def onError (reader : SnapshotReader K) (e : ErrorInner K) : Res K (Option (ErrorInner K)) :=
  match e with
  | .writeConflict startTs _ conflictCommitTs .. =>
    if startTs < conflictCommitTs ∧ (checkCommittedRecordOnErr reader).isSome then .ok none
    else .error (.error e)
  | .pessimisticLockNotFound .. | .commitTsTooLarge .. => .error (.panic .unreachable)
  | .keyIsLocked _ =>
    if (checkCommittedRecordOnErr reader).isSome then .ok none else .ok (some e)
  -- The mutation has been overtaken by a later flush.
  | .generationOutOfOrder .. => .ok none
  | e => .error (.error e)

/-- `Flush::process_write`, seen from the key. -/
def processWrite (key : K) (st : KeyState K) : Res K (Option (ErrorInner K)) × KeyState K :=
  if f.generation = 0 then (.error (.error .flushGenerationZero), st)
  else match f.props with
    | .error fault => (.error fault, st)
    | .ok props =>
      let p : PrewriteMutation K := { props, mutation := f.mutation, env := f.env }
      let st := if f.mutation.shouldNotExist then st.updateMaxTs f.startTs else st
      let reader := st.reader key f.startTs
      match p.prewriteWithGeneration f.generation st.maxTs reader with
      | .ok (buffer, _, _) =>
        match f.otherError with
        | none => (.ok none, st.applyAll buffer.modifies)
        | some e => (.error (.error e), st)
      | .error (.error e) => (onError reader e, st)
      | .error fault => (.error fault, st)

end Flush

/-! ### The locks a prewrite writes -/

/-- Every lock in the buffer has the property. -/
def PrewriteBuffer.Locks (buffer : PrewriteBuffer K) (P : Lock K → Prop) : Prop :=
  (∀ l, .putLock l ∈ buffer.modifies → P l) ∧ ∀ l b, buffer.lockFor1pc = some (l, b) → P l

theorem PrewriteBuffer.Locks.empty {P : Lock K → Prop} : ({} : PrewriteBuffer K).Locks P :=
  ⟨nofun, nofun⟩

theorem PrewriteBuffer.Locks.mono {buffer : PrewriteBuffer K} {P Q : Lock K → Prop}
    (h : buffer.Locks P) (hle : ∀ l, P l → Q l) : buffer.Locks Q :=
  ⟨fun l hl => hle l (h.1 l hl), fun l b hl => hle l (h.2 l b hl)⟩

/-- The lock of a prewrite with these fields. -/
structure PrewriteMutation.LockOf (p : PrewriteMutation K) (fields : PrewriteFields)
    (l : Lock K) : Prop where
  ts : l.ts = p.props.startTs
  ttl : l.ttl = fields.lockTtl
  minCommitTs : fields.minCommitTs ≤ l.minCommitTs
  generation : l.generation = 0

namespace PrewriteMutation

variable {p : PrewriteMutation K} {reader : SnapshotReader K} {maxTs : ℕ} {fields : PrewriteFields}
  {buffer : PrewriteBuffer K} {answer : PrewriteAnswer K} {old : OldValue}

variable {status : LockStatus}

/-- What `write_lock` leaves in the buffer: the value, if it is long, and the lock. -/
theorem writeLock_buffer (h : p.writeLock maxTs fields status = .ok (buffer, answer)) :
    ∃ l, p.LockOf fields l ∧
      (buffer = ⟨p.values ++ [.putLock l], none⟩ ∨ ∃ b, buffer = ⟨p.values, some (l, b)⟩) := by
  rw [writeLock] at h
  split at h
  · cases h
  rename_i lockType ht
  dsimp only at h
  split at h
  · obtain ⟨maxCommitTs, -, h⟩ := bind_eq_ok.mp h
    split at h
    · rename_i l hts
      obtain ⟨m, rfl, hle, -⟩ := asyncCommitTimestamps_spec hts
      have hl : p.LockOf fields { p.newLock fields status lockType with minCommitTs := m } :=
        ⟨rfl, rfl, hle, rfl⟩
      split at h <;> cases h
      · exact ⟨_, hl, Or.inr ⟨_, rfl⟩⟩
      · exact ⟨_, hl, Or.inl rfl⟩
    · cases h
      exact ⟨_, ⟨rfl, rfl, le_rfl, rfl⟩, Or.inl rfl⟩
    · cases h
  · cases h
    exact ⟨_, ⟨rfl, rfl, le_rfl, rfl⟩, Or.inl rfl⟩

theorem mem_values {m : Modify K} (h : m ∈ p.values) : ∃ v, m = .putValue p.props.startTs v := by
  obtain ⟨v, -, hv⟩ := Option.map_eq_some_iff.mp (Option.mem_toList.mp h)
  exact ⟨v, hv.symm⟩

/-- The buffer of a prewrite has the long value and locks of the prewrite. -/
theorem prewriteUnlocked_modifies {skip : Bool} {m : Modify K}
    (h : p.prewriteUnlocked maxTs reader fields status skip = .ok (buffer, answer, old))
    (hm : m ∈ buffer.modifies) :
    (∃ v, m = .putValue p.props.startTs v) ∨ ∃ l, m = .putLock l ∧ p.LockOf fields l := by
  rcases prewriteUnlocked_spec h with rfl | ⟨-, lc, -, hw⟩
  · cases hm
  · obtain ⟨l, hl, rfl | ⟨b, rfl⟩⟩ := writeLock_buffer hw
    · rcases List.mem_append.mp hm with hm | hm
      · exact Or.inl (mem_values hm)
      · exact Or.inr ⟨l, List.mem_singleton.mp hm, hl.ts, hl.ttl, hl.minCommitTs, hl.generation⟩
    · exact Or.inl (mem_values hm)

theorem prewriteUnlocked_locks {skip : Bool}
    (h : p.prewriteUnlocked maxTs reader fields status skip = .ok (buffer, answer, old)) :
    buffer.Locks (p.LockOf fields) := by
  refine ⟨fun l hl => ?_, fun l b hl => ?_⟩
  · obtain ⟨v, hv⟩ | ⟨l', hl', hof⟩ := prewriteUnlocked_modifies h hl
    · cases hv
    · cases hl'
      exact hof
  · rcases prewriteUnlocked_spec h with rfl | ⟨-, lc, -, hw⟩
    · cases hl
    · obtain ⟨l', hof, rfl | ⟨b', rfl⟩⟩ := writeLock_buffer hw
      · cases hl
      · cases hl
        exact ⟨hof.ts, hof.ttl, hof.minCommitTs, hof.generation⟩

/-- What a modification of a later flush is: the long value, or the lock with its generation. -/
def FlushModify (p : PrewriteMutation K) : Modify K → Prop
  | .putValue _ _ => True
  | .putLock l => l.ts = p.props.startTs ∧ l.ttl = p.props.lockTtl ∧
      p.props.minCommitTs ≤ l.minCommitTs
  | _ => False

/-- What a prewrite of a later generation has found and does. -/
theorem prewriteWithGeneration_spec {generation : ℕ} (hopt : p.props.isPessimistic = false)
    (hg : generation ≠ 0)
    (h : p.prewriteWithGeneration generation maxTs reader = .ok (buffer, answer, old)) :
    (∀ l, reader.lock = some l → l.ts = p.props.startTs ∧ l.generation < generation) ∧
      ∀ m ∈ buffer.modifies, p.FlushModify m := by
  unfold prewriteWithGeneration at h
  extract_lets fields₀ write at h
  -- The modifications are those of the prewrite, the lock with its generation.
  have hwrite : ∀ {fields status skip}, fields.lockTtl = p.props.lockTtl →
      fields.minCommitTs = p.props.minCommitTs → write fields status skip =
        .ok (buffer, answer, old) → ∀ m ∈ buffer.modifies, p.FlushModify m := by
    intro fields status skip httl hmin h m hm
    obtain ⟨⟨b, a, o⟩, hunlocked, h⟩ := bind_eq_ok.mp h
    cases h
    obtain ⟨m', hm', rfl⟩ := List.mem_map.mp hm
    obtain ⟨v, rfl⟩ | ⟨l, rfl, hlock⟩ := prewriteUnlocked_modifies hunlocked hm'
    · trivial
    · exact ⟨hlock.ts, hlock.ttl.trans httl, hmin ▸ hlock.minCommitTs⟩
  rcases hl : reader.lock with _ | lock <;> rw [hl] at h <;> dsimp only at h
  · refine ⟨nofun, ?_⟩
    split_ifs at h
    exact hwrite rfl rfl h
  · obtain ⟨⟨status, fields⟩, hcheck, h⟩ := bind_eq_ok.mp h
    rw [checkLockAt] at hcheck
    split_ifs at hcheck with hgen
    rw [checkLock] at hcheck
    split at hcheck
    · split at hcheck <;> cases hcheck
    rename_i hts
    split at hcheck
    · rw [hopt] at hcheck
      cases hcheck
    rename_i hpess
    split at hcheck
    · cases hcheck
    cases hcheck
    refine ⟨fun l hl => ?_, ?_⟩
    · cases hl
      refine ⟨not_not.mp hts, ?_⟩
      by_contra hge
      exact hgen ⟨not_not.mp hts, by simpa using hpess, Nat.pos_of_ne_zero hg, not_lt.mp hge⟩
    · dsimp only at h
      rw [if_neg hg] at h
      exact hwrite rfl rfl h

theorem FlushModify.write_applyAll {ms : List (Modify K)} (h : ∀ m ∈ ms, p.FlushModify m)
    (st : KeyState K) : (st.applyAll ms).write = st.write := by
  induction ms generalizing st with
  | nil => rfl
  | cons m ms ih =>
    have hm := h m List.mem_cons_self
    rw [KeyState.applyAll_cons, ih fun m hm => h m (List.mem_cons_of_mem _ hm)]
    cases m with
    | putLock | putValue => rfl
    | deleteLock | deleteValue | putWrite | deleteWrite => cases hm

end PrewriteMutation

theorem KeyState.lock_applyAll {st : KeyState K} {ms : List (Modify K)} {l : Lock K}
    (h : (st.applyAll ms).lock = some l) : st.lock = some l ∨ .putLock l ∈ ms := by
  induction ms generalizing st with
  | nil => exact Or.inl h
  | cons m ms ih =>
    rcases ih h with h | h
    · cases m with
      | putLock l' =>
        cases h
        exact Or.inr List.mem_cons_self
      | deleteLock => cases h
      | putValue | deleteValue | putWrite | deleteWrite => exact Or.inl h
    · exact Or.inr (List.mem_cons_of_mem _ h)

/-- What a flush does: nothing but a change of `max_ts`, or it replaces the lock of an older
generation by one with `min_commit_ts` right after the start of the transaction. -/
theorem Flush.processWrite_spec (f : Flush K) (key : K) (st : KeyState K) :
    (f.processWrite key st).2.write = st.write ∧ ∀ l', (f.processWrite key st).2.lock = some l' →
      st.lock = some l' ∨
        (∀ l, st.lock = some l → l.ts = f.startTs ∧ l.generation < f.generation) ∧
          l'.ts = f.startTs ∧ l'.ttl = f.lockTtl ∧ f.startTs + 1 ≤ l'.minCommitTs := by
  rw [processWrite]
  split
  · exact ⟨rfl, fun _ => Or.inl⟩
  rename_i hg
  split
  · exact ⟨rfl, fun _ => Or.inl⟩
  rename_i props hprops
  obtain ⟨next, hnext, hprops⟩ := bind_eq_ok.mp hprops
  obtain ⟨-, rfl⟩ := TimeStamp.next_eq_ok.mp (liftPanic_eq_ok.mp hnext)
  cases hprops
  obtain ⟨m, hst⟩ : ∃ m, (if f.mutation.shouldNotExist then st.updateMaxTs f.startTs else st) =
      { st with maxTs := m } := by
    split <;> exact ⟨_, rfl⟩
  rw [hst]
  dsimp only
  split
  · rename_i buffer answer old hok
    obtain ⟨hfound, hput⟩ := PrewriteMutation.prewriteWithGeneration_spec rfl hg hok
    split
    · refine ⟨PrewriteMutation.FlushModify.write_applyAll hput _, fun l' h => ?_⟩
      rcases KeyState.lock_applyAll h with h | h
      · exact Or.inl h
      · exact Or.inr ⟨hfound, hput _ h⟩
    · exact ⟨rfl, fun _ => Or.inl⟩
  · exact ⟨rfl, fun _ => Or.inl⟩
  · exact ⟨rfl, fun _ => Or.inl⟩

end Tikv
