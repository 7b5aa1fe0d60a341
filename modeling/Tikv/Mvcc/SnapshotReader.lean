import Tikv.Kv.Cursor
import Tikv.Mvcc.Visibility

/-!
# The reader of a transaction, on one key

A transaction action reads one key through a `SnapshotReader`: the lock of the key, its write
records and its long values, all of one snapshot. Here the versions of the key are given as a
finite map, `seek_write` is the search in it, and a loop that seeks below the record it has
just read is a recursion on the records that are left. A seek from `TimeStamp::max()` is
`Versions.newest`.

* **`getWriteLoop_eq`**: on sound contents the search for the visible Put finds it.
* **`getTxnCommitRecord_spec`**: what each answer of `get_txn_commit_record` says about the
  records of the key.
-/

namespace Tikv

open Option

variable {K : Type}

/-- The value a key had before, for change data capture. -/
inductive OldValue
  | value (value : Value)
  | valueTimeStamp (startTs : ℕ)
  | none
  | unspecified
  deriving DecidableEq

/-- Another transaction's record at the start timestamp of the reader, with the timestamp of
the next Put or Delete. -/
structure OverlappedWrite where
  write : Write
  gcFence : ℕ
  deriving DecidableEq

/-- What the write CF tells about the fate of a transaction. -/
inductive TxnCommitRecord
  /-- No record of the transaction; maybe another one's at its start timestamp. -/
  | none (overlappedWrite : Option OverlappedWrite)
  | singleRecord (commitTs : ℕ) (write : Write)
  /-- Rolled back, as a flag of another transaction's record says. -/
  | overlappedRollback (commitTs : ℕ)
  deriving DecidableEq

/-- `TxnCommitRecord::info`. -/
def TxnCommitRecord.info : TxnCommitRecord → Option (ℕ × WriteType)
  | .none _ => Option.none
  | .singleRecord commitTs write => some (commitTs, write.writeType)
  | .overlappedRollback commitTs => some (commitTs, .rollback)

/-- A reader of `key` at `startTs`. -/
structure SnapshotReader (K : Type) where
  key : K
  startTs : ℕ
  lock : Option (Lock K)
  write : Versions Write
  default : Versions Value

namespace SnapshotReader

/-- Whether a read bounded by `gcFenceLimit` finds the fence of the record in force. -/
def isFenced (gcFenceLimit : Option ℕ) (write : Write) : Bool :=
  gcFenceLimit.any fun limit => !write.checkGcFenceAsLatestVersion limit

/-- The answer of `get_write_with_commit_ts` at a Put or Delete. -/
def answerChange (gcFenceLimit : Option ℕ) (commitTs : ℕ) (write : Write) :
    Option (Write × ℕ) :=
  if isFenced gcFenceLimit write then none
  else if write.writeType = .put then some (write, commitTs)
  else none

/-- Go on below `commitTs` with the loop; the checked `commit_ts.prev()` panics at zero. -/
def seekBelow (loop : ℕ → Res K (Option (Write × ℕ))) (ts commitTs : ℕ) :
    Res K (Option (Write × ℕ)) := do
  if ts = 0 then return none
  let ts ← liftPanic (TimeStamp.prev commitTs)
  loop ts

/-- The loop of `get_write_with_commit_ts`, on the records still to be read. -/
def getWriteLoop (m : Versions Write) (gcFenceLimit : Option ℕ) :
    ℕ → List (ℕ × Write) → Res K (Option (Write × ℕ))
  | _, [] => .ok none
  | ts, (commitTs, write) :: rest =>
    if isFenced gcFenceLimit write then .ok none
    else match write.writeType with
      | .put => .ok (some (write, commitTs))
      | .delete => .ok none
      | .lock | .rollback =>
        match write.lastChange with
        | .notExist => .ok none
        | .exist lastChangeTs estimated =>
          if seekBound ≤ estimated then
            match m.get lastChangeTs with
            | none => .ok none
            | some write =>
              if write.isChange then .ok (answerChange gcFenceLimit lastChangeTs write)
              else .error (.panic .lastChangeTarget)
          else seekBelow (getWriteLoop m gcFenceLimit · rest) ts commitTs
        | .unknown => seekBelow (getWriteLoop m gcFenceLimit · rest) ts commitTs

variable (r : SnapshotReader K)

/-- `MvccReader::get_write_with_commit_ts`. -/
def getWriteUpTo (ts : ℕ) (gcFenceLimit : Option ℕ) : Res K (Option (Write × ℕ)) :=
  getWriteLoop r.write gcFenceLimit ts (r.write.entries.dropWhile fun e => ts < e.1)

/-- `SnapshotReader::get_write_with_commit_ts`: fences count up to the start timestamp. -/
def getWriteWithCommitTs (ts : ℕ) : Res K (Option (Write × ℕ)) :=
  r.getWriteUpTo ts (some r.startTs)

/-- `SnapshotReader::get_write`. -/
def getWrite (ts : ℕ) : Res K (Option Write) := do
  return (← r.getWriteWithCommitTs ts).map Prod.fst

/-- `MvccReader::load_data`. -/
def loadData (write : Write) : Res K Value :=
  if write.writeType ≠ .put then .error (.panic .assertion)
  else match write.shortValue with
    | some value => .ok value
    | none =>
      match r.default.get write.startTs with
      | some value => .ok value
      | none => .error (.error (.defaultNotFound r.key write.startTs))

/-- `SnapshotReader::get`. -/
def get (ts : ℕ) : Res K (Option Value) := do
  match ← r.getWrite ts with
  | some write => return some (← r.loadData write)
  | none => return none

/-- The old value a Put record stands for. -/
def oldValueOfPut (write : Write) : OldValue :=
  match write.shortValue with
  | some value => .value value
  | none => .valueTimeStamp write.startTs

/-- `MvccReader::get_old_value`. -/
def getOldValue (ts : ℕ) (prevWriteLoaded : Bool) (prevWrite : Option Write) :
    Res K OldValue := do
  let found : Res K OldValue := do
    match ← r.getWriteUpTo ts (some ts) with
    | some (write, _) => return oldValueOfPut write
    | none => return .none
  match prevWrite with
  | none => if prevWriteLoaded then return .none else found
  | some prevWrite =>
    if !prevWrite.checkGcFenceAsLatestVersion ts then return .none
    match prevWrite.writeType with
    | .put => return oldValueOfPut prevWrite
    | .delete => return .none
    -- There may be an older Put.
    | .rollback | .lock => found

/-- The loop of `get_txn_commit_record`, on the records still to be read. -/
def commitRecordLoop (startTs : ℕ) : ℕ → List (ℕ × Write) → TxnCommitRecord
  | _, [] => .none none
  | gcFence, (commitTs, write) :: rest =>
    if write.startTs = startTs then .singleRecord commitTs write
    else if commitTs = startTs then
      if write.hasOverlappedRollback then .overlappedRollback commitTs
      else .none (some ⟨write, gcFence⟩)
    else if commitTs < startTs then .none none
    else commitRecordLoop startTs (if write.isChange then commitTs else gcFence) rest

/-- `MvccReader::get_txn_commit_record`. -/
def getTxnCommitRecord : TxnCommitRecord := commitRecordLoop r.startTs 0 r.write.entries

/-! ### The visible Put -/

/-- The answer of `get_write_with_commit_ts`: the visible Put with its commit timestamp. -/
def visibleVersion (m : Versions Write) (ts : ℕ) : Option (Write × ℕ) :=
  (latestChange m ts).bind fun e => (e.2.asLatest ts).map fun w => (w, e.1)

section

variable {m : Versions Write} {ts T c : ℕ} {w : Write} {l : List (ℕ × Write)}

theorem visibleVersion_of_none (h : visibleWrite m ts = none) : visibleVersion m ts = none := by
  rw [visibleWrite] at h
  rw [visibleVersion]
  rcases hl : latestChange m ts with - | e
  · rw [bind_none]
  · rw [hl, bind_some] at h
    rw [bind_some, h, map_none]

theorem map_fst_visibleVersion (m : Versions Write) (ts : ℕ) :
    (visibleVersion m ts).map Prod.fst = visibleWrite m ts := by
  rw [visibleVersion, visibleWrite]
  rcases latestChange m ts with - | e
  · rfl
  · simp only [bind_some, map_map, Function.comp_def, map_id']

@[simp] theorem isFenced_some (T : ℕ) (w : Write) :
    isFenced (some T) w = !w.checkGcFenceAsLatestVersion T := rfl

theorem answerChange_latest (hl : latestChange m T = some (c, w)) :
    answerChange (some T) c w = visibleVersion m T := by
  rw [visibleVersion, hl, bind_some, answerChange, Write.asLatest]
  by_cases hf : w.checkGcFenceAsLatestVersion T = true
  · by_cases hp : w.writeType = .put <;> simp [hf]
  · simp [hf]

/-- What an iteration does with a Put or Delete. -/
theorem getWriteLoop_change {lim : Option ℕ} (hw : w.isChange = true) :
    (getWriteLoop m lim ts ((c, w) :: l) : Res K _) = .ok (answerChange lim c w) := by
  rw [getWriteLoop, answerChange]
  by_cases hf : isFenced lim w = true
  · simp only [hf, if_true]
  · rcases Write.isChange_iff.mp hw with ht | ht <;> simp [hf, ht]

/-- What an iteration does with a Lock or Rollback record whose fence is not in force. -/
theorem getWriteLoop_skip {lim : Option ℕ} (hw : w.isChange = false)
    (hf : isFenced lim w = false) :
    (getWriteLoop m lim ts ((c, w) :: l) : Res K _) =
      match w.lastChange with
      | .notExist => .ok none
      | .exist lastChangeTs estimated =>
        if seekBound ≤ estimated then
          match m.get lastChangeTs with
          | none => .ok none
          | some write =>
            if write.isChange then .ok (answerChange lim lastChangeTs write)
            else .error (.panic .lastChangeTarget)
        else seekBelow (getWriteLoop m lim · l) ts c
      | .unknown => seekBelow (getWriteLoop m lim · l) ts c := by
  rw [getWriteLoop]
  rcases Write.not_isChange_iff.mp hw with ht | ht <;> simp only [hf, ht] <;> rfl

/-- One iteration is right if going on below the record is. -/
theorem getWriteLoop_step (hs : SoundAt m T) (hu : Unread m T ((c, w) :: l))
    (hnext : w.isChange = false →
      (seekBelow (getWriteLoop m (some T) · l) ts c : Res K _) = .ok (visibleVersion m T)) :
    (getWriteLoop m (some T) ts ((c, w) :: l) : Res K _) = .ok (visibleVersion m T) := by
  by_cases hw : w.isChange = true
  · rw [getWriteLoop_change hw, answerChange_latest (hu.change hw)]
  have hw : w.isChange = false := by simpa using hw
  by_cases hf : w.checkGcFenceAsLatestVersion T = true
  · rw [getWriteLoop_skip hw (by simp [hf])]
    rcases hlc : w.lastChange with - | ⟨t, estimated⟩ | -
    · exact hnext hw
    · dsimp only
      split
      · obtain ⟨-, ⟨w', hl, hget⟩ | ⟨hvis, hget, -⟩⟩ := hu.exist hs hw hlc
        · simp only [hget, (mem_of_latest hl).2.2, if_true, answerChange_latest hl]
        · simp only [hget, visibleVersion_of_none hvis]
      · exact hnext hw
    · rw [visibleVersion_of_none (hu.notExist hs hw hlc)]
  · rw [getWriteLoop, isFenced_some, if_pos (by simpa using hf),
      visibleVersion_of_none (hu.fence hs hw (by simpa using hf))]

/-- The loop over the records finds the visible Put. -/
theorem getWriteLoop_eq (hs : SoundAt m T) (hpos : CommitTsPos m) (hu : Unread m T l)
    (hts : ∀ e ∈ l, e.1 ≤ ts) :
    (getWriteLoop m (some T) ts l : Res K _) = .ok (visibleVersion m T) := by
  -- Induction on the records left to read; each Lock or Rollback that is passed takes one.
  induction l generalizing ts with
  | nil => rw [getWriteLoop, visibleVersion_of_none hu.nil]
  | cons e l ih =>
    obtain ⟨c, w⟩ := e
    refine getWriteLoop_step hs hu fun hw => ?_
    have hc : 0 < c := hpos _ hu.mem_head.1
    have hcts : c ≤ ts := hts _ List.mem_cons_self
    rw [seekBelow, if_neg (by omega), TimeStamp.prev, if_pos hc]
    refine ih (hu.tail hw) fun e he => ?_
    have := hu.lt_head he
    omega

end

/-! ### The fate of a transaction -/

section

variable {m : Versions Write} {s : ℕ}

/-- No record at or above `s` belongs to the transaction `s`. -/
def NoRecordOf (m : Versions Write) (s : ℕ) : Prop :=
  ∀ e ∈ m.entries, s ≤ e.1 → e.2.startTs ≠ s

/-- What an answer of `get_txn_commit_record` for the transaction `s` says. -/
def CommitRecordSpec (m : Versions Write) (s : ℕ) : TxnCommitRecord → Prop
  | .singleRecord c w => (c, w) ∈ m.entries ∧ w.startTs = s ∧
      ∀ e ∈ m.entries, c < e.1 → s < e.1 ∧ e.2.startTs ≠ s
  | .overlappedRollback c => c = s ∧ NoRecordOf m s ∧
      ∃ w, (s, w) ∈ m.entries ∧ w.hasOverlappedRollback = true
  | .none (some ov) => (s, ov.write) ∈ m.entries ∧ ov.write.hasOverlappedRollback = false ∧
      NoRecordOf m s ∧ (ov.gcFence ≠ 0 → s < ov.gcFence ∧
        ∃ w, (ov.gcFence, w) ∈ m.entries ∧ w.isChange = true)
  | .none none => NoRecordOf m s ∧ ∀ w, (s, w) ∉ m.entries

/-- The loop has passed records above `s` that are not the transaction's. -/
theorem commitRecordLoop_spec {passed l : List (ℕ × Write)} {gcFence : ℕ}
    (hm : m.entries = passed ++ l) (hpassed : ∀ e ∈ passed, s < e.1 ∧ e.2.startTs ≠ s)
    (hfence : gcFence ≠ 0 → ∃ w, (gcFence, w) ∈ passed ∧ w.isChange = true) :
    CommitRecordSpec m s (commitRecordLoop s gcFence l) := by
  induction l generalizing passed gcFence with
  | nil =>
    rw [List.append_nil] at hm
    refine ⟨fun e he _ => (hpassed e (hm ▸ he)).2, fun w hw => ?_⟩
    exact absurd (hpassed _ (hm ▸ hw)).1 (Nat.lt_irrefl s)
  | cons x l ih =>
    obtain ⟨c, w⟩ := x
    have hmem : (c, w) ∈ m.entries := by simp [hm]
    rw [commitRecordLoop]
    by_cases hw : w.startTs = s
    · rw [if_pos hw]
      refine ⟨hmem, hw, fun e he hlt => ?_⟩
      rcases Versions.mem_cases hm he with ⟨h, -⟩ | rfl | ⟨-, h⟩
      · exact hpassed e h
      · exact absurd hlt (Nat.lt_irrefl _)
      · omega
    rw [if_neg hw]
    by_cases hc : c = s
    · subst hc
      have hno : NoRecordOf m c := fun e he hle => by
        rcases Versions.mem_cases hm he with ⟨h, -⟩ | rfl | ⟨-, h⟩
        · exact (hpassed e h).2
        · exact hw
        · omega
      rw [if_pos rfl]
      split
      · rename_i ho
        exact ⟨rfl, hno, w, hmem, ho⟩
      · rename_i ho
        refine ⟨hmem, by simpa using ho, hno, fun h0 => ?_⟩
        obtain ⟨w', hw', hch⟩ := hfence h0
        exact ⟨(hpassed _ hw').1, w', by rw [hm]; exact List.mem_append_left _ hw', hch⟩
    rw [if_neg hc]
    by_cases hlt : c < s
    · rw [if_pos hlt]
      refine ⟨fun e he hle => ?_, fun w' hw' => ?_⟩
      · rcases Versions.mem_cases hm he with ⟨h, -⟩ | rfl | ⟨-, h⟩
        · exact (hpassed e h).2
        · exact hw
        · omega
      · rcases Versions.mem_cases hm hw' with ⟨h, -⟩ | h | ⟨-, h⟩
        · exact absurd (hpassed _ h).1 (Nat.lt_irrefl s)
        · exact hc (Prod.mk.inj h).1.symm
        · simp only at h
          omega
    · rw [if_neg hlt]
      have hm' : m.entries = (passed ++ [(c, w)]) ++ l := by simp [hm]
      refine ih hm' (List.forall_mem_append.mpr ⟨hpassed, List.forall_mem_singleton.mpr
        ⟨by omega, hw⟩⟩) fun h0 => ?_
      split at h0
      · rename_i hch
        rw [if_pos hch]
        exact ⟨w, by simp, hch⟩
      · rename_i hch
        rw [if_neg hch]
        obtain ⟨w', hw', hch'⟩ := hfence h0
        exact ⟨w', List.mem_append_left _ hw', hch'⟩

/-- The answer of `get_txn_commit_record`. -/
theorem getTxnCommitRecord_spec (r : SnapshotReader K) :
    CommitRecordSpec r.write r.startTs r.getTxnCommitRecord :=
  commitRecordLoop_spec (List.nil_append _).symm (by simp) (by simp)

end

end SnapshotReader

end Tikv
