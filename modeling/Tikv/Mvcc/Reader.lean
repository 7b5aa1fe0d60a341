import Tikv.Mvcc.PointGetter
import Tikv.Mvcc.SnapshotReader

/-!
# The MVCC reader

`MvccReader` is the reader of the transaction layer. Without a scan mode it works on one user
key at a time and its write cursor is in prefix-seek mode; with a scan mode the cursor runs
over the whole write CF. Either way `seekWrite` returns the newest version at or below a
timestamp (`New.seekWrite`).

`getWriteWithCommitTs` walks down the versions by repeated `seekWrite` calls. On any contents
it computes what `SnapshotReader.getWriteLoop` does on the versions of the key
(`New.getWriteWithCommitTs`). Its checked `commit_ts.prev()` panics on a record at timestamp
zero; on sound contents without such a record it finds the visible Put
(`getWriteWithCommitTs_eq`).
-/

namespace Tikv

open List Option SnapshotReader

variable {K : Type} [LinearOrder K]

/-- A reader over a snapshot, with the cursors it has created so far. -/
structure MvccReader (K : Type) [LinearOrder K] where
  snapshot : Snapshot K
  /-- `none` for operations on a single user key. -/
  scanMode : Option ScanMode := none
  /-- The key the prefix-seek cursor was created for. -/
  currentKey : Option K := none
  writeCursor : Option (Cursor (MvccKey K) Write) := none
  dataCursor : Option (Cursor (MvccKey K) Value) := none

namespace MvccReader

variable (r : MvccReader K)

/-- `MvccReader::create_data_cursor`. -/
def createDataCursor : MvccReader K :=
  match r.dataCursor with
  | some _ => r
  | none => { r with dataCursor := some (r.snapshot.default.cursor (getScanMode r.scanMode) false) }

variable (key : K)

/-- The cursor `MvccReader::create_write_cursor` makes for operations on `key`. -/
def newWriteCursor : Cursor (MvccKey K) Write :=
  if r.scanMode.isNone then
    (r.snapshot.write.restrict fun k => k.user = key).cursor (getScanMode r.scanMode) true
  else r.snapshot.write.cursor (getScanMode r.scanMode) false

/-- `MvccReader::get_value`. -/
def getValue (startTs : ℕ) : Res K (Option Value × MvccReader K) := do
  let r := if r.scanMode.isSome then r.createDataCursor else r
  match r.dataCursor with
  | some cursor =>
    let (value, cursor) ← liftPanic (cursor.get ⟨key, startTs⟩)
    return (value, { r with dataCursor := some cursor })
  | none => return (r.snapshot.default.get ⟨key, startTs⟩, r)

/-- `MvccReader::load_data`. -/
def loadData (write : Write) : Res K (Value × MvccReader K) := do
  if write.writeType ≠ .put then .error (.panic .assertion)
  else match write.shortValue with
    | some value => return (value, r)
    | none =>
      match ← r.getValue key write.startTs with
      | (some value, r) => return (value, r)
      | (none, _) => .error (.error (.defaultNotFound key write.startTs))

/-- `MvccReader::seek_write`. -/
def seekWrite (ts : ℕ) : Res K (Option (ℕ × Write) × MvccReader K) := do
  -- A prefix-seek cursor is dropped when the reader switches to another key.
  let r := if r.scanMode.isNone ∧ r.currentKey ≠ some key then
      { r with currentKey := some key, writeCursor := none } else r
  let (found, cursor) ← liftPanic
    ((r.writeCursor.getD (r.newWriteCursor key)).nearSeek ⟨key, ts⟩)
  let r := { r with writeCursor := some cursor }
  if !found then return (none, r)
  let writeKey ← cursor.key
  if writeKey.user ≠ key then return (none, r)
  let write ← cursor.value
  return (some (writeKey.ts, write), r)

/-- Continue the loop of `get_write_with_commit_ts` below `commitTs`. -/
def seekBelow (loop : MvccReader K → ℕ → Option (ℕ × Write) →
    Res K (Option (Write × ℕ) × MvccReader K)) (r : MvccReader K) (key : K) (ts commitTs : ℕ) :
    Res K (Option (Write × ℕ) × MvccReader K) := do
  if ts = 0 then return (none, r)
  let ts ← liftPanic (TimeStamp.prev commitTs)
  let (res, r) ← r.seekWrite key ts
  loop r ts res

/-- The loop of `MvccReader::get_write_with_commit_ts`. -/
def getWriteLoop (key : K) (gcFenceLimit : Option ℕ) :
    ℕ → MvccReader K → ℕ → Option (ℕ × Write) → Res K (Option (Write × ℕ) × MvccReader K)
  | 0, _, _, _ => .error .outOfFuel
  | _ + 1, r, _, none => .ok (none, r)
  | n + 1, r, ts, some (commitTs, write) =>
    if gcFenceLimit.any fun limit => !write.checkGcFenceAsLatestVersion limit then .ok (none, r)
    else match write.writeType with
      | .put => .ok (some (write, commitTs), r)
      | .delete => .ok (none, r)
      | .lock | .rollback =>
        match write.lastChange with
        | .notExist => .ok (none, r)
        | .exist lastChangeTs estimated =>
          if seekBound ≤ estimated then
            match r.snapshot.write.get ⟨key, lastChangeTs⟩ with
            | none => .ok (none, r)
            | some write =>
              if write.isChange then getWriteLoop key gcFenceLimit n r ts
                (some (lastChangeTs, write))
              else .error (.panic .lastChangeTarget)
          else seekBelow (getWriteLoop key gcFenceLimit n) r key ts commitTs
        | .unknown => seekBelow (getWriteLoop key gcFenceLimit n) r key ts commitTs

/-- `MvccReader::get_write_with_commit_ts`. -/
def getWriteWithCommitTs (ts : ℕ) (gcFenceLimit : Option ℕ) :
    Res K (Option (Write × ℕ) × MvccReader K) := do
  let (res, r) ← r.seekWrite key ts
  getWriteLoop key gcFenceLimit (r.snapshot.write.data.length + 2) r ts res

/-- `MvccReader::get`: the visible Put and then its value. -/
def get (ts : ℕ) (gcFenceLimit : Option ℕ) : Res K (Option Value × MvccReader K) := do
  match ← r.getWriteWithCommitTs key ts gcFenceLimit with
  | (some (write, _), r) =>
    let (value, r) ← r.loadData key write
    return (some value, r)
  | (none, r) => return (none, r)

/-! ### Correctness -/

section

variable {S : Snapshot K} {r : MvccReader K} {key : K} {ts c : ℕ} {w : Write}
  {l : List (ℕ × Write)}

/-- The reader has still the versions `l` of `key` to read. -/
structure At (r : MvccReader K) (S : Snapshot K) (key : K) (l : List (ℕ × Write)) : Prop where
  snapshot : r.snapshot = S
  mode : r.scanMode ≠ some .backward
  dataCursor : r.dataCursor = none
  currentKey : r.scanMode.isNone → r.currentKey = some key
  cursor : ∃ c D C, r.writeCursor = some c ∧ c.Reads D (tag key l ++ C) ∧
    ∀ e ∈ C, key < e.1.user

/-- `seek_write` returns the version under its cursor, if it is one of the key. -/
theorem seekWrite_of_nearSeek {r' : MvccReader K} {D C : List (MvccKey K × Write)}
    {cursor : Cursor (MvccKey K) Write}
    (hr' : r' = if r.scanMode.isNone ∧ r.currentKey ≠ some key then
      { r with currentKey := some key, writeCursor := none } else r)
    (hn : (r'.writeCursor.getD (r'.newWriteCursor key)).nearSeek ⟨key, ts⟩ =
      .ok (cursor.valid, cursor))
    (hr : cursor.Reads D (tag key l ++ C)) (hC : ∀ e ∈ C, key < e.1.user) :
    r.seekWrite key ts = .ok (l.head?, { r' with writeCursor := some cursor }) := by
  rw [seekWrite, ← hr']
  simp only [hn, liftPanic_ok]
  cases l with
  | nil =>
    cases C with
    | nil =>
      have hv : cursor.valid = false := by
        rw [← Bool.not_eq_true, hr.valid_iff]
        simp
      simp only [hv]
      rfl
    | cons e C =>
      have hv : cursor.valid = true := hr.valid_iff.mpr (by simp)
      have hk : (cursor.key : Res K (MvccKey K)) = .ok e.1 := by
        rw [Cursor.key, hr.current]
        rfl
      have hne : e.1.user ≠ key := (hC e mem_cons_self).ne'
      simp only [hv, hk, ok_bind, if_pos hne]
      rfl
  | cons e l =>
    have hv : cursor.valid = true := hr.valid_iff.mpr (by simp)
    have hk : (cursor.key : Res K (MvccKey K)) = .ok ⟨key, e.1⟩ := by
      rw [Cursor.key, hr.current]
      rfl
    have hval : (cursor.value : Res K Write) = .ok e.2 := by
      rw [Cursor.value, hr.current]
      rfl
    simp only [hv, hk, hval, ok_bind, Bool.not_true, Bool.false_eq_true, if_false,
      if_neg (not_not.mpr (rfl : key = key))]
    rfl

/-- The reader goes on to older versions. -/
theorem At.seekWrite (h : r.At S key ((c, w) :: l)) {t : ℕ} (ht : t ≤ c) :
    ∃ r', r.seekWrite key t =
        .ok ((((c, w) :: l).dropWhile fun e => t < e.1).head?, r') ∧
      r'.At S key (((c, w) :: l).dropWhile fun e => t < e.1) := by
  obtain ⟨cursor, D, C, hcur, hr, hC⟩ := h.cursor
  have hkeep : r = if r.scanMode.isNone ∧ r.currentKey ≠ some key then
      { r with currentKey := some key, writeCursor := none } else r := by
    rw [if_neg fun hn => hn.2 (h.currentKey hn.1)]
  obtain ⟨cursor', hn, hr'⟩ := hr.nearSeek (k := ⟨key, t⟩) (MvccKey.mk_le_mk.mpr ht)
  change cursor'.Reads D ((tag key ((c, w) :: l) ++ C).dropWhile _) at hr'
  rw [dropWhile_tag_append hC] at hr'
  refine ⟨_, seekWrite_of_nearSeek hkeep (by rw [hcur]; exact hn) hr' hC, ?_⟩
  exact ⟨h.snapshot, h.mode, h.dataCursor, h.currentKey, cursor', D, C, rfl, hr', hC⟩

/-- A reader that has not been used. -/
structure New (r : MvccReader K) (S : Snapshot K) : Prop where
  snapshot : r.snapshot = S
  mode : r.scanMode ≠ some .backward
  dataCursor : r.dataCursor = none
  writeCursor : r.writeCursor = none

theorem New.fresh (h : r.New S) (key : K) : ∃ A C, (r.newWriteCursor key).Fresh
    (A ++ (tag key (S.versions key).entries ++ C)) ∧ (∀ e ∈ A, e.1.user < key) ∧
      ∀ e ∈ C, key < e.1.user := by
  have hm := getScanMode_ne_backward h.mode
  rw [newWriteCursor, h.snapshot]
  split
  · refine ⟨[], [], ⟨?_, hm, rfl, rfl⟩, by simp, by simp⟩
    rw [append_nil]
    exact Snapshot.filter_user_eq
  · refine ⟨S.write.data.filter fun e => e.1.user < key,
      S.write.data.filter fun e => key < e.1.user, ⟨?_, hm, rfl, rfl⟩, by simp, by simp⟩
    rw [← append_assoc, ← Snapshot.filter_user_eq]
    exact split_at_user S.write.sorted key

/-- A new reader finds the newest version at or below the timestamp. -/
theorem New.seekWrite (h : r.New S) (key : K) (ts : ℕ) :
    ∃ r', r.seekWrite key ts =
        .ok (((S.versions key).entries.dropWhile fun e => ts < e.1).head?, r') ∧
      r'.At S key ((S.versions key).entries.dropWhile fun e => ts < e.1) := by
  obtain ⟨r₁, hr₁⟩ : ∃ r₁, r₁ = if r.scanMode.isNone ∧ r.currentKey ≠ some key then
      { r with currentKey := some key, writeCursor := none } else r := ⟨_, rfl⟩
  have hnew : r₁.New S ∧ (r₁.scanMode.isNone → r₁.currentKey = some key) := by
    rw [hr₁]
    split
    · exact ⟨⟨h.snapshot, h.mode, h.dataCursor, rfl⟩, fun _ => rfl⟩
    · rename_i hn
      exact ⟨h, fun hs => not_not.mp fun hk => hn ⟨hs, hk⟩⟩
  obtain ⟨A, C, hfresh, hA, hC⟩ := hnew.1.fresh key
  obtain ⟨cursor, hn, hr⟩ := hfresh.nearSeek (k := ⟨key, ts⟩)
  rw [dropWhile_append_of_pos fun e he => by
    simpa using MvccKey.lt_iff.mpr (Or.inl (hA e he)), dropWhile_tag_append hC] at hr
  refine ⟨_, seekWrite_of_nearSeek hr₁ (by rw [hnew.1.writeCursor]; exact hn) hr hC, ?_⟩
  exact ⟨hnew.1.snapshot, hnew.1.mode, hnew.1.dataCursor, hnew.2, cursor, _, C, rfl, hr, hC⟩

/-- The reader computes `res` and can still load data. -/
def Answers (S : Snapshot K) (res : Res K (Option (Write × ℕ) × MvccReader K))
    (answer : Res K (Option (Write × ℕ))) : Prop :=
  ∃ r', res = (fun x => (x, r')) <$> answer ∧ r'.snapshot = S ∧
    r'.scanMode ≠ some .backward ∧ r'.dataCursor = none

theorem At.answers (h : r.At S key l) (answer : Option (Write × ℕ)) :
    Answers S (.ok (answer, r)) (.ok answer) :=
  ⟨r, rfl, h.snapshot, h.mode, h.dataCursor⟩

theorem At.answers_error (h : r.At S key l) (f : Fault K) :
    Answers S (.error f) (.error f) :=
  ⟨r, rfl, h.snapshot, h.mode, h.dataCursor⟩

variable {lim : Option ℕ} {n : ℕ}

/-- An iteration settles a Put or Delete. -/
theorem At.answers_change (h : r.At S key l) (hw : w.isChange = true) :
    Answers S (getWriteLoop key lim (n + 1) r ts (some (c, w)))
      (.ok (answerChange lim c w)) := by
  rw [getWriteLoop, answerChange, isFenced]
  split
  · exact h.answers none
  · rcases Write.isChange_iff.mp hw with ht | ht <;> simp only [ht]
    · exact h.answers _
    · exact h.answers none

/-- One iteration agrees with the loop over the versions if going on below the record does. -/
theorem At.answers_step (h : r.At S key ((c, w) :: l))
    (hnext :
      Answers S (seekBelow (getWriteLoop key lim (n + 1)) r key ts c)
        (SnapshotReader.seekBelow (SnapshotReader.getWriteLoop (S.versions key) lim · l) ts c)) :
    Answers S (getWriteLoop key lim (n + 2) r ts (some (c, w)))
      (SnapshotReader.getWriteLoop (S.versions key) lim ts ((c, w) :: l)) := by
  by_cases hw : w.isChange = true
  · rw [SnapshotReader.getWriteLoop_change hw]
    exact h.answers_change hw
  rw [SnapshotReader.getWriteLoop, getWriteLoop, isFenced]
  split
  · exact h.answers none
  -- A Lock and a Rollback record are passed in the same way.
  rcases Write.not_isChange_iff.mp (by simpa using hw) with ht | ht
  all_goals
    rw [ht, h.snapshot]
    rcases w.lastChange with - | ⟨t, estimated⟩ | - <;> dsimp only
    · exact hnext
    · split
      · rw [Snapshot.get_write]
        rcases (S.versions key).get t with - | w' <;> dsimp only
        · exact h.answers none
        · split
          · rename_i hch
            exact h.answers_change hch
          · exact h.answers_error _
      · exact hnext
    · exact h.answers none

/-- The loop of the reader, with enough fuel, is the loop over the versions left to read. -/
theorem At.answers_loop (h : r.At S key l) (hl : l.Pairwise fun a b => b.1 < a.1)
    (hn : l.length ≤ n) :
    Answers S (getWriteLoop key lim (n + 2) r ts l.head?)
      (SnapshotReader.getWriteLoop (S.versions key) lim ts l) := by
  -- Induction on the versions left to read; each Lock or Rollback that is passed takes one.
  induction l generalizing r ts n with
  | nil => exact h.answers none
  | cons e l ih =>
    obtain ⟨c, w⟩ := e
    rw [pairwise_cons] at hl
    obtain ⟨n, rfl⟩ : ∃ k, n = k + 1 := ⟨n - 1, by simp at hn; omega⟩
    refine h.answers_step ?_
    rw [seekBelow, SnapshotReader.seekBelow]
    by_cases hts : ts = 0
    · rw [if_pos hts, if_pos hts]
      exact h.answers none
    rw [if_neg hts, if_neg hts, TimeStamp.prev]
    by_cases hc : 0 < c
    · -- Below `c` nothing is skipped: the versions are in descending order.
      have hdrop : ((c, w) :: l).dropWhile (fun e => c - 1 < e.1) = l := by
        rw [dropWhile_cons_of_pos (by simp; omega)]
        rcases l with - | ⟨e, l⟩
        · rfl
        · have := hl.1 e mem_cons_self
          rw [dropWhile_cons_of_neg (by simp; omega)]
      obtain ⟨r', hseek, hat⟩ := h.seekWrite (t := c - 1) (by omega)
      rw [hdrop] at hseek hat
      simp only [if_pos hc, liftPanic_ok, ok_bind, hseek]
      exact ih hat hl.2 (by simpa using hn)
    · rw [if_neg hc]
      exact h.answers_error _

/-- A new reader searches the versions of the key. -/
theorem New.getWriteWithCommitTs (h : r.New S) (key : K) (ts : ℕ) (lim : Option ℕ) :
    Answers S (r.getWriteWithCommitTs key ts lim)
      (SnapshotReader.getWriteLoop (S.versions key) lim ts
        ((S.versions key).entries.dropWhile fun e => ts < e.1)) := by
  obtain ⟨r', hseek, hat⟩ := h.seekWrite key ts
  rw [MvccReader.getWriteWithCommitTs, hseek]
  refine hat.answers_loop ((S.versions key).desc.sublist (dropWhile_sublist _)) ?_
  have h₁ : ((S.versions key).entries.dropWhile fun e => ts < e.1).length ≤
      (S.versions key).entries.length := (dropWhile_sublist _).length_le
  have h₂ : (S.versions key).entries.length ≤ S.write.data.length := by
    rw [Snapshot.versions, length_map]
    exact length_filter_le _ _
  rw [hat.snapshot]
  omega

/-- On sound contents without a version at timestamp zero, a new reader finds the visible
Put. -/
theorem getWriteWithCommitTs_eq (h : r.New S) (hs : SoundAt (S.versions key) ts)
    (hpos : CommitTsPos (S.versions key)) :
    Answers S (r.getWriteWithCommitTs key ts (some ts))
      (.ok (SnapshotReader.visibleVersion (S.versions key) ts)) := by
  have hu := unread_dropWhile (S.versions key) ts
  have hle : ∀ e ∈ (S.versions key).entries.dropWhile fun e => ts < e.1, e.1 ≤ ts := by
    obtain ⟨-, -, -, hle⟩ := hu
    exact hle
  have hans := h.getWriteWithCommitTs key ts (some ts)
  rwa [SnapshotReader.getWriteLoop_eq hs hpos hu hle] at hans

/-- Looking up one key in a new cursor. -/
theorem fresh_get {α : Type} (cf : Cf (MvccKey K) α) {mode : ScanMode} (hm : mode ≠ .backward)
    (k : MvccKey K) : ∃ cursor, (cf.cursor mode false).get k = .ok (cf.get k, cursor) := by
  have hf : (cf.cursor mode false).Fresh cf.data := ⟨rfl, hm, rfl, rfl⟩
  obtain ⟨c', hn, hr⟩ := hf.nearSeek (k := k)
  refine ⟨c', ?_⟩
  rw [Cursor.get, if_pos hf.mode, hn, ok_bind]
  simp only [hr.current]
  cases hget : cf.get k with
  | some a =>
    obtain ⟨l, hl⟩ := Cursor.dropWhile_lt_of_mem cf.sorted (Cf.get_eq_some_iff.mp hget)
    have hv : c'.valid = true := hr.valid_iff.mpr (by simp [hl])
    simp only [hl, head?_cons, hv]
    rfl
  | none =>
    cases hd : cf.data.dropWhile fun x => x.1 < k with
    | nil => rfl
    | cons e l =>
      have hmem : e ∈ cf.data := (dropWhile_sublist _).subset (by rw [hd]; simp)
      have hk : e.1 ≠ k := fun hk => by
        rw [Cf.get_eq_some_iff.mpr (show (k, e.2) ∈ cf.data by rw [← hk]; exact hmem)] at hget
        cases hget
      simp only [head?_cons, hk, and_false]
      rfl

/-- The value of a Put is loaded from the record or from the default CF. -/
theorem loadData_eq (hS : r.snapshot = S) (hm : r.scanMode ≠ some .backward)
    (hd : r.dataCursor = none) (hp : w.writeType = .put) {v : Value}
    (hv : S.value key w = some v) : ∃ r', r.loadData key w = .ok (v, r') := by
  rw [loadData, if_neg (not_not.mpr hp)]
  rw [Snapshot.value] at hv
  cases hsv : w.shortValue with
  | some value =>
    rw [hsv, some_or] at hv
    exact ⟨r, by rw [hv]; rfl⟩
  | none =>
    rw [hsv, none_or] at hv
    rw [getValue]
    by_cases hsm : r.scanMode.isSome = true
    · have hr : r.createDataCursor.dataCursor =
          some (S.default.cursor (getScanMode r.scanMode) false) := by
        simp only [createDataCursor, hd, hS]
      obtain ⟨cursor, hget⟩ := fresh_get S.default (getScanMode_ne_backward hm)
        ⟨key, w.startTs⟩
      simp only [hsm, if_true, hr, hget, hv]
      exact ⟨_, rfl⟩
    · simp only [hsm, Bool.false_eq_true, if_false, hd, hS, hv]
      exact ⟨_, rfl⟩

/-- On sound contents without a version at timestamp zero, a new reader returns the visible
value. -/
theorem get_eq (h : r.New S) (hs : SoundAt (S.versions key) ts)
    (hpos : CommitTsPos (S.versions key)) (hv : S.HasValues key) :
    ∃ r', r.get key ts (some ts) = .ok (S.visible key ts, r') := by
  obtain ⟨r₁, hget, hS, hm, hd⟩ := getWriteWithCommitTs_eq h hs hpos
  have hfst := map_fst_visibleVersion (S.versions key) ts
  rw [MvccReader.get, hget]
  rcases hvv : visibleVersion (S.versions key) ts with - | ⟨w, c⟩
  · rw [hvv] at hfst
    exact ⟨r₁, by rw [Snapshot.visible, ← hfst]; rfl⟩
  · rw [hvv, map_some] at hfst
    obtain ⟨v, hval⟩ := isSome_iff_exists.mp (hv.isSome_value hfst.symm)
    have hput : w.writeType = .put := by
      obtain ⟨e, -, he⟩ := bind_eq_some_iff.mp hfst.symm
      rw [Write.asLatest] at he
      split_ifs at he with hp
      cases he
      exact hp.1
    obtain ⟨r₂, hload⟩ := loadData_eq hS hm hd hput hval
    refine ⟨r₂, ?_⟩
    rw [Snapshot.visible, ← hfst, bind_some, hval]
    change ((r₁.loadData key w) >>= fun p => pure (some p.1, p.2)) = _
    rw [hload]
    rfl

end

end MvccReader

end Tikv
