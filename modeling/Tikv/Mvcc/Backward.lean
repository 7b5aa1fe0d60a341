import Tikv.Mvcc.Forward

/-!
# The backward scanner

`BackwardKvScanner` steps the two cursors towards smaller keys, so it meets the versions of a
key **oldest first**. `reverseGet` tries a bounded number of `prev` calls, remembering the
newest Put or Delete so far (`reverseLoop`). If the bound is used up below the read timestamp
it seeks to the timestamp and reads down to where it had come up (`reverseSeekLoop`).

The specifications follow the write cursor: reading backward it has `tag userKey newer ++ A`
in front of it, where `newer` are the versions of the current key it has not met, in ascending
order, and `A` belongs to smaller keys.
-/

namespace Tikv

open List Option Cursor MvccKey TimeStamp

variable {K : Type} [LinearOrder K]

/-- `REVERSE_SEEK_BOUND`. -/
def reverseSeekBound : ℕ := 16

/-- A backward scan in progress. -/
structure BackwardKvScanner (K : Type) [LinearOrder K] where
  lockCursor : Option (Cursor K (Lock K))
  writeCursor : Cursor (MvccKey K) Write
  /-- Created when it is first needed. -/
  defaultCursor : Option (Cursor (MvccKey K) Value) := none
  isStarted : Bool := false
  metNewerTsData : NewerTsCheckState

/-- How the loop over `prev` ends. -/
inductive ReverseOutcome (K : Type)
  /-- All versions at or below the read timestamp have been met. -/
  | done (metPrevUserKey : Bool) (lastVersion : Option Write)
  | fail (e : ErrorInner K)
  /-- The bound is used up. -/
  | exhausted (lastVersion : Option Write) (lastCheckedCommitTs : ℕ)

/-- The loop of `reverse_get` over `prev`, with the number of positions still to try. -/
def reverseLoop (cfg : ScannerConfig K) (userKey : K) :
    ℕ → Cursor (MvccKey K) Write → Option Write → ℕ → NewerTsCheckState →
      ReverseOutcome K × Cursor (MvccKey K) Write × NewerTsCheckState
  | 0, cursor, lastVersion, lastCheckedCommitTs, newer =>
    (.exhausted lastVersion lastCheckedCommitTs, cursor, newer)
  | n + 1, cursor, lastVersion, _, newer =>
    match cursor.current with
    | none => (.done false lastVersion, cursor, newer)
    | some (key, write) =>
      if key.user ≠ userKey then (.done true lastVersion, cursor, newer)
      else if cfg.ts < key.ts then
        if cfg.isolationLevel = .rcCheckTs then
          (.fail (.writeConflict cfg.ts 0 key.ts userKey none .rcCheckTs), cursor, newer.meet)
        else (.done false lastVersion, cursor, newer.meet)
      else
        reverseLoop cfg userKey n (if n = 0 then cursor else cursor.prev)
          (if write.isChange then some write else lastVersion) key.ts newer

/-- `move_write_cursor_to_prev_user_key`, with the number of positions still to try before a
seek. -/
def moveWriteCursorToPrevUserKey (currentUserKey : K) :
    ℕ → Cursor (MvccKey K) Write → Cursor (MvccKey K) Write
  | 0, cursor => cursor.internalSeekForPrev (.ofUser currentUserKey)
  | n + 1, cursor =>
    match cursor.current with
    | none => cursor
    | some e =>
      if e.1.user ≠ currentUserKey then cursor
      else if n = 0 then cursor.internalSeekForPrev (.ofUser currentUserKey)
      else moveWriteCursorToPrevUserKey currentUserKey n cursor.prev

namespace BackwardKvScanner

variable (S : Snapshot K) (cfg : ScannerConfig K) (s : BackwardKvScanner K) (userKey : K)

/-- Load a value from the default CF. -/
def loadDefault (startTs : ℕ) : Res K Value × BackwardKvScanner K :=
  let (value, cursor) := nearReverseLoadDataByWrite (cfg.loadDataHint userKey)
    (s.defaultCursor.getD (cfg.createDefaultCursor S .mixed)) userKey startTs
  (value, { s with defaultCursor := some cursor })

/-- `reverse_load_data_by_write`. -/
def reverseLoadDataByWrite (write : Write) (userKey : K) : Res K Value × BackwardKvScanner K :=
  if cfg.omitValue then (.ok [], s)
  else match write.shortValue with
    | some value => (.ok value, s)
    | none => s.loadDefault S cfg userKey write.startTs

/-- Return the value of a Put. -/
def returnPut (write : Write) (userKey : K) : Res K (Option Value) × BackwardKvScanner K :=
  let (value, s) := s.reverseLoadDataByWrite S cfg write userKey
  (some <$> value, s)

/-- `handle_last_version`. -/
def handleLastVersion (someWrite : Option Write) (userKey : K) :
    Res K (Option Value) × BackwardKvScanner K :=
  match someWrite with
  | none => (.ok none, s)
  | some write =>
    if !write.checkGcFenceAsLatestVersion cfg.ts then (.ok none, s)
    else match write.writeType with
      | .put => s.returnPut S cfg write userKey
      | .delete => (.ok none, s)
      | .lock | .rollback => (.error (.panic .unreachable), s)

/-- The loop of `reverse_get` after the seek, down to `lastCheckedCommitTs`. -/
def reverseSeekLoop (userKey : K) (lastVersion : Option Write) (lastCheckedCommitTs : ℕ) :
    ℕ → BackwardKvScanner K → Res K (Option Value) × BackwardKvScanner K
  | 0, s => (.error .outOfFuel, s)
  | n + 1, s =>
    match s.writeCursor.current with
    | none => (.error (.panic .cursorInvalid), s)
    | some (key, write) =>
      if key.ts ≤ lastCheckedCommitTs then s.handleLastVersion S cfg lastVersion userKey
      else if !write.checkGcFenceAsLatestVersion cfg.ts then (.ok none, s)
      else match write.writeType with
        | .put => s.returnPut S cfg write userKey
        | .delete => (.ok none, s)
        | .lock | .rollback =>
          reverseSeekLoop userKey lastVersion lastCheckedCommitTs n
            { s with writeCursor := s.writeCursor.next }

/-- The part of `reverse_get` that seeks to the read timestamp: with the check for newer data
it seeks to the newest version first. -/
def reverseSeekToTs : Res K (BackwardKvScanner K) := do
  if s.metNewerTsData = .notMetYet then
    let cursor := s.writeCursor.internalSeek ⟨userKey, max⟩
    let key ← cursor.key
    let newer := if cfg.ts < key.ts then NewerTsCheckState.met else s.metNewerTsData
    let (_, cursor) ← liftPanic (cursor.nearSeek ⟨userKey, cfg.ts⟩)
    return { s with writeCursor := cursor, metNewerTsData := newer }
  else
    return { s with writeCursor := s.writeCursor.internalSeek ⟨userKey, cfg.ts⟩ }

/-- When the last version met is exactly at the read timestamp: look for a newer one if that
is asked for. Returns whether the previous user key was met. -/
def lookForNewer : Bool × BackwardKvScanner K :=
  if s.metNewerTsData = .notMetYet then
    let s := { s with writeCursor := s.writeCursor.prev }
    match s.writeCursor.current with
    | none => (false, s)
    | some e =>
      if e.1.user = userKey then (false, { s with metNewerTsData := .met }) else (true, s)
  else (false, s)

/-- `BackwardKvScanner::reverse_get`: the value, whether the previous user key was met, and the
scanner. -/
def reverseGet : (Res K (Option Value) × BackwardKvScanner K) × Bool :=
  if !s.writeCursor.valid then ((.error (.panic .cursorInvalid), s), false)
  else
    let (outcome, cursor, newer) :=
      reverseLoop cfg userKey reverseSeekBound s.writeCursor none 0 s.metNewerTsData
    let s := { s with writeCursor := cursor, metNewerTsData := newer }
    match outcome with
    | .done metPrevUserKey lastVersion =>
      (s.handleLastVersion S cfg lastVersion userKey, metPrevUserKey)
    | .fail e => ((.error (.error e), s), false)
    | .exhausted lastVersion lastCheckedCommitTs =>
      if lastCheckedCommitTs = cfg.ts then
        let (metPrevUserKey, s) := s.lookForNewer userKey
        (s.handleLastVersion S cfg lastVersion userKey, metPrevUserKey)
      else if cfg.ts ≤ lastCheckedCommitTs then
        ((.error (.panic .lastCheckedCommitTs), s), false)
      else match s.reverseSeekToTs cfg userKey with
        | .error e => ((.error e, s), false)
        | .ok s =>
          (reverseSeekLoop S cfg userKey lastVersion lastCheckedCommitTs
            (s.writeCursor.data.length + 1) s, false)

/-! ### Reading the previous key -/

/-- `BackwardKvScanner::new` as `ScannerBuilder::build` calls it. -/
def build : BackwardKvScanner K where
  lockCursor := if needCheckLocks cfg.isolationLevel then
    some (cfg.createLockCursor S .mixed) else none
  writeCursor := cfg.createWriteCursor S .mixed
  metNewerTsData := .start cfg.checkHasNewerTsData

/-- The first positioning of the cursors. -/
def start : Except Panic (BackwardKvScanner K) := do
  if s.isStarted then return s
  match cfg.upperBound with
  | some upper =>
    let (_, write) ← s.writeCursor.reverseSeek (.ofUser upper)
    let lock ← match s.lockCursor with
      | some lock => do
        let (_, lock) ← lock.reverseSeek upper
        pure (some lock)
      | none => pure none
    return { s with writeCursor := write, lockCursor := lock, isStarted := true }
  | none =>
    return { s with
      writeCursor := s.writeCursor.seekToLast
      lockCursor := s.lockCursor.map seekToLast
      isStarted := true }

/-- The user key to deal with: the larger of the keys under the two cursors, with whether it
has a write and whether it has a lock. -/
def currentUserKey (wKey lKey : Option K) : Option (K × Bool × Bool) :=
  match wKey, lKey with
  | none, none => none
  | none, some k => some (k, false, true)
  | some k, none => some (k, true, false)
  | some wk, some lk =>
    if wk < lk then some (lk, false, true)
    else if lk < wk then some (wk, true, false)
    else some (wk, true, true)

/-- The lock half of an iteration of `read_next`: the result so far, and whether the writes of
the key are still to be read. -/
def handleLock (hasWrite : Bool) : Res K (Option Value) × Bool × BackwardKvScanner K :=
  if !needCheckLocks cfg.isolationLevel then
    (.ok none, hasWrite, { s with lockCursor := s.lockCursor.map prev })
  else match s.lockCursor.bind current with
    | none => (.error (.panic .cursorInvalid), hasWrite, s)
    | some (_, lock) =>
      let s := { s with metNewerTsData := s.metNewerTsData.meet }
      match lock.checkTsConflict userKey cfg.ts cfg.bypassLocks cfg.isolationLevel with
      | .ok () => (.ok none, hasWrite, { s with lockCursor := s.lockCursor.map prev })
      | .error e =>
        if lock.ts ∈ cfg.accessLocks then
          let cursor := s.defaultCursor.getD (cfg.createDefaultCursor S .mixed)
          let (result, cursor) := loadDataByLock cfg
            (nearReverseLoadDataByWrite (cfg.loadDataHint userKey) cursor) cursor userKey lock
          let s := { s with defaultCursor := some cursor }
          let s := if hasWrite then { s with
            writeCursor := moveWriteCursorToPrevUserKey userKey seekBound s.writeCursor } else s
          (result, false, { s with lockCursor := s.lockCursor.map prev })
        else
          (.error (.error e), hasWrite, { s with lockCursor := s.lockCursor.map prev })

/-- An iteration of `read_next` on the user key `userKey`. -/
def readKey (hasWrite hasLock : Bool) : Res K (Option Value) × BackwardKvScanner K :=
  let (result, hasWrite, s) :=
    if hasLock then s.handleLock S cfg userKey hasWrite else (.ok none, hasWrite, s)
  if hasWrite then
    let ((result, s), metPrevUserKey) := match result with
      | .ok _ => s.reverseGet S cfg userKey
      | .error e => ((.error e, s), false)
    if metPrevUserKey then (result, s)
    else (result, { s with
      writeCursor := moveWriteCursorToPrevUserKey userKey seekBound s.writeCursor })
  else (result, s)

/-- The loop of `BackwardKvScanner::read_next`. -/
def readLoop : ℕ → BackwardKvScanner K → Res K (Option (K × Value)) × BackwardKvScanner K
  | 0, s => (.error .outOfFuel, s)
  | n + 1, s =>
    let wKey := s.writeCursor.current.map fun e => e.1.user
    let lKey := (s.lockCursor.bind current).map Prod.fst
    match currentUserKey wKey lKey with
    | none => (.ok none, s)
    | some (userKey, hasWrite, hasLock) =>
      match s.readKey S cfg userKey hasWrite hasLock with
      | (.ok none, s) => readLoop n s
      | (.ok (some value), s) => (.ok (some (userKey, value)), s)
      | (.error e, s) => (.error e, s)

/-- `BackwardKvScanner::read_next`. -/
def readNext : Res K (Option (K × Value)) × BackwardKvScanner K :=
  match s.start cfg with
  | .error p => (.error (.panic p), s)
  | .ok s => s.readLoop S cfg (S.write.data.length + S.lock.data.length + 1)

end BackwardKvScanner

/-! ### Specifications -/

section Spec

variable {S : Snapshot K} {cfg : ScannerConfig K} {userKey : K} {D A C : List (MvccKey K × Write)}
  {cursor : Cursor (MvccKey K) Write} {m : Versions Write}

/-- The newest Put or Delete of a list of versions, newest first. -/
def newestChange (l : List (ℕ × Write)) : Option Write :=
  (l.find? fun e => e.2.isChange).map Prod.snd

theorem newestChange_cons (e : ℕ × Write) (l : List (ℕ × Write)) :
    newestChange (e :: l) = if e.2.isChange then some e.2 else newestChange l := by
  rw [newestChange, find?_cons]
  cases e.2.isChange <;> rfl

/-- The two ways the loop over `prev` ends: all versions up to the read timestamp have been
met, or the bound is used up at a version `e` that is not newer than the read. -/
def ReverseLooped (cfg : ScannerConfig K) (userKey : K) (m : Versions Write)
    (D A : List (MvccKey K × Write))
    (res : ReverseOutcome K × Cursor (MvccKey K) Write × NewerTsCheckState) : Prop :=
  (∃ metPrev older newer cursor state,
    res = (.done metPrev (newestChange older), cursor, state) ∧ Unread m cfg.ts older ∧
      cursor.ReadsBack D (tag userKey newer ++ A) ∧ (metPrev = true → newer = [])) ∨
  ∃ e older newer cursor state,
    res = (.exhausted (newestChange (e :: older)) e.1, cursor, state) ∧
      m.entries = newer.reverse ++ e :: older ∧ e.1 ≤ cfg.ts ∧
      cursor.ReadsBack D (tag userKey (e :: newer) ++ A)

variable {n lastTs : ℕ}

section

variable (state : NewerTsCheckState)
include state

/-- The versions of the key have all been met. -/
theorem reverseLoop_nil {older : List (ℕ × Write)} (hm : m.entries = older)
    (ho : ∀ e ∈ older, e.1 ≤ cfg.ts) (hr : cursor.ReadsBack D A)
    (hA : ∀ e ∈ A, e.1.user < userKey) :
    ReverseLooped cfg userKey m D A
      (reverseLoop cfg userKey (n + 1) cursor (newestChange older) lastTs state) := by
  have hu : Unread m cfg.ts older := ⟨[], hm, by simp, ho⟩
  rw [reverseLoop, hr.current]
  cases A with
  | nil => exact Or.inl ⟨false, older, [], cursor, state, rfl, hu, hr, fun _ => rfl⟩
  | cons e A =>
    simp only [head?_cons]
    rw [if_pos (hA e mem_cons_self).ne]
    exact Or.inl ⟨true, older, [], cursor, state, rfl, hu, hr, fun _ => rfl⟩

variable {newer older : List (ℕ × Write)}

/-- An iteration on a version of the key. -/
theorem reverseLoop_cons {e : ℕ × Write} (hi : cfg.isolationLevel.Accepts cfg.ts (e :: newer))
    (hr : cursor.ReadsBack D (tag userKey (e :: newer) ++ A)) :
    reverseLoop cfg userKey (n + 1) cursor (newestChange older) lastTs state =
      if cfg.ts < e.1 then (.done false (newestChange older), cursor, state.meet)
      else reverseLoop cfg userKey n (if n = 0 then cursor else cursor.prev)
        (newestChange (e :: older)) e.1 state := by
  rw [reverseLoop, hr.current]
  simp only [tag_cons, cons_append, head?_cons, ne_eq, not_true_eq_false, if_false,
    newestChange_cons]
  by_cases he : cfg.ts < e.1
  · rw [if_pos he, if_pos he, if_neg fun h => absurd (hi h e mem_cons_self) (not_le.mpr he)]
  · rw [if_neg he, if_neg he]

/-- The loop stops at a version newer than the read. -/
theorem reverseLooped_of_newer {e : ℕ × Write} (hm : m.entries = (e :: newer).reverse ++ older)
    (ho : ∀ e ∈ older, e.1 ≤ cfg.ts) (he : cfg.ts < e.1)
    (hr : cursor.ReadsBack D (tag userKey (e :: newer) ++ A)) :
    ReverseLooped cfg userKey m D A (.done false (newestChange older), cursor, state) := by
  refine Or.inl ⟨false, older, e :: newer, cursor, state, rfl, ⟨_, hm, fun x hx hle => ?_, ho⟩, hr,
    by simp⟩
  -- Everything at or above `e` is newer than the read.
  have hdesc := m.desc
  rw [hm, reverse_cons, append_assoc, pairwise_append] at hdesc
  rcases mem_cons.mp (mem_reverse.mp hx) with rfl | hx'
  · omega
  · have := hdesc.2.2 x (mem_reverse.mpr hx') e (by simp)
    omega

/-- The loop keeps the newest version up to `ts`, as far as it comes. -/
theorem reverseLoop_spec (hi : cfg.isolationLevel.Accepts cfg.ts newer)
    (hm : m.entries = newer.reverse ++ older) (ho : ∀ e ∈ older, e.1 ≤ cfg.ts)
    (hr : cursor.ReadsBack D (tag userKey newer ++ A)) (hA : ∀ e ∈ A, e.1.user < userKey) :
    ReverseLooped cfg userKey m D A
      (reverseLoop cfg userKey (n + 1) cursor (newestChange older) lastTs state) := by
  -- Induction on the versions that have not been met.
  induction newer generalizing n older cursor lastTs with
  | nil => exact reverseLoop_nil state hm ho hr hA
  | cons e newer ih =>
    rw [reverseLoop_cons state hi hr]
    split
    · exact reverseLooped_of_newer state.meet hm ho ‹_› hr
    have he : e.1 ≤ cfg.ts := not_lt.mp ‹_›
    have hm' : m.entries = newer.reverse ++ e :: older := by simpa using hm
    cases n with
    | zero => exact Or.inr ⟨e, older, newer, cursor, state, rfl, hm', he, hr⟩
    | succ n =>
      exact ih hi.tail hm' (forall_mem_cons.mpr ⟨he, ho⟩) hr.prev

end

/-! The default cursor -/

/-- The default cursor, if there is one, can load any value of the range. -/
def DefaultReadyBack (S : Snapshot K) (cfg : ScannerConfig K)
    (default : Option (Cursor (MvccKey K) Value)) : Prop :=
  ∀ cursor ∈ default, cursor.data = (cfg.createDefaultCursor S .mixed).data ∧
    cursor.scanMode = .mixed ∧ cursor.minKey = none

/-- A value that is there is found, with either hint. -/
theorem nearReverseLoadDataByWrite_spec {c : Cursor (MvccKey K) Value} {t : ℕ} {v : Value}
    (hint : LoadDataHint) (hm : c.scanMode = .mixed) (hk : c.minKey = none)
    (hv : (⟨userKey, t⟩, v) ∈ c.data) :
    nearReverseLoadDataByWrite hint c userKey t =
      (.ok v, c.internalSeekForPrev ⟨userKey, t⟩) := by
  have ho : c.OpenBelow ⟨userKey, t⟩ := by simp [Cursor.OpenBelow, hk]
  obtain ⟨l, hl⟩ := back_internalSeekForPrev_of_mem hv
  have hval : (c.internalSeekForPrev ⟨userKey, t⟩).valid = true :=
    valid_iff_back_ne_nil.mpr (by simp [hl])
  have hfin : (c.internalSeekForPrev ⟨userKey, t⟩).finishSeekForPrev ⟨userKey, t⟩ =
      .ok (true, c.internalSeekForPrev ⟨userKey, t⟩) := by
    rw [finishSeekForPrev, if_pos hval]
  have hat : valueAt (c.internalSeekForPrev ⟨userKey, t⟩) userKey t = .ok v := by
    rw [valueAt, current_eq_head?_back, hl]
    simp
  cases hint with
  | nearSeek =>
    simp only [nearReverseLoadDataByWrite, nearSeekForPrev_eq hm ho, hfin, hat]
  | seek => simp only [nearReverseLoadDataByWrite, seekForPrev_eq hm ho, hfin, hat]

/-- Loading the value of a key in range keeps the default cursor ready. -/
theorem reverseLoadData_spec {d : Option (Cursor (MvccKey K) Value)} {t : ℕ} {v : Value}
    (hint : LoadDataHint) (hd : DefaultReadyBack S cfg d) (hin : cfg.inRange userKey = true)
    (hv : S.default.get ⟨userKey, t⟩ = some v) :
    ∃ cursor, nearReverseLoadDataByWrite hint (d.getD (cfg.createDefaultCursor S .mixed))
        userKey t = (.ok v, cursor) ∧ DefaultReadyBack S cfg (some cursor) := by
  have hmem : (⟨userKey, t⟩, v) ∈ (cfg.createDefaultCursor S .mixed).data :=
    mem_filter.mpr ⟨Cf.get_eq_some_iff.mp hv, hin⟩
  obtain ⟨hdata, hm, hk⟩ : (d.getD (cfg.createDefaultCursor S .mixed)).data =
      (cfg.createDefaultCursor S .mixed).data ∧
      (d.getD (cfg.createDefaultCursor S .mixed)).scanMode = .mixed ∧
      (d.getD (cfg.createDefaultCursor S .mixed)).minKey = none := by
    cases d with
    | none => exact ⟨rfl, rfl, rfl⟩
    | some c => exact hd c rfl
  refine ⟨_, nearReverseLoadDataByWrite_spec hint hm hk (hdata ▸ hmem), fun cursor hc => ?_⟩
  cases hc
  exact ⟨hdata, hm, hk⟩

/-! Leaving a key -/

/-- The write CF around the block of `userKey`: `A` has the smaller keys, in descending order,
and `C` the larger ones. -/
structure Block (S : Snapshot K) (userKey : K) (D A C : List (MvccKey K × Write)) : Prop where
  data : D = A.reverse ++ (tag userKey (S.versions userKey).entries ++ C)
  below : ∀ e ∈ A, e.1.user < userKey
  above : ∀ e ∈ C, userKey < e.1.user

theorem Block.dropWhile (h : Block S userKey D A C) (ts : ℕ) :
    D.dropWhile (fun e => e.1 < (⟨userKey, ts⟩ : MvccKey K)) =
      tag userKey ((S.versions userKey).entries.dropWhile fun e => ts < e.1) ++ C := by
  rw [h.data, dropWhile_append_of_pos fun e he => ?_, dropWhile_tag_append h.above]
  simpa using lt_iff.mpr (Or.inl (h.below e (mem_reverse.mp he)))

theorem takeWhile_of_above {k : MvccKey K} (h : ∀ e ∈ C, k.user < e.1.user) :
    C.takeWhile (fun e => e.1 ≤ k) = [] := by
  cases C with
  | nil => rfl
  | cons e C =>
    refine takeWhile_cons_of_neg fun hle => ?_
    rcases le_iff.mp (of_decide_eq_true hle) with hlt | heq
    · exact lt_asymm hlt (h e mem_cons_self)
    · exact (h e mem_cons_self).ne' heq.1

/-- What is at or below the bare key are the smaller keys. -/
theorem Block.takeWhile (h : Block S userKey D A C) :
    D.takeWhile (fun e => e.1 ≤ ofUser userKey) = A.reverse := by
  rw [h.data, takeWhile_append_of_pos fun e he => ?_]
  · have hnil : (tag userKey (S.versions userKey).entries ++ C).takeWhile
        (fun e => e.1 ≤ ofUser userKey) = [] := by
      cases hE : (S.versions userKey).entries with
      | nil => exact takeWhile_of_above h.above
      | cons e l =>
        have := Snapshot.le_max_of_mem_versions (S := S) (k := userKey) (e := e) (by simp [hE])
        exact takeWhile_cons_of_neg fun hle => by
          have := mk_le_mk.mp (of_decide_eq_true hle)
          omega
    rw [hnil, append_nil]
  · simpa using le_iff.mpr (Or.inl (h.below e (mem_reverse.mp he)))

theorem Block.takeWhile_zero (h : Block S userKey D A C) :
    (D.takeWhile fun e => e.1 ≤ (⟨userKey, 0⟩ : MvccKey K)).reverse =
      tag userKey (S.versions userKey).entries.reverse ++ A := by
  rw [h.data, takeWhile_append_of_pos fun e he => ?_,
    takeWhile_append_of_pos fun e he => ?_, takeWhile_of_above h.above, append_nil, reverse_append,
    reverse_reverse, reverse_tag]
  · obtain ⟨x, -, rfl⟩ := mem_map.mp he
    simp
  · simpa using le_iff.mpr (Or.inl (h.below e (mem_reverse.mp he)))

theorem movePrev_of_other {n : ℕ} (hr : cursor.ReadsBack D A)
    (hA : ∀ e ∈ A, e.1.user < userKey) :
    (moveWriteCursorToPrevUserKey userKey (n + 1) cursor).ReadsBack D A := by
  rw [moveWriteCursorToPrevUserKey, hr.current]
  cases A with
  | nil => exact hr
  | cons e A =>
    simp only [head?_cons]
    rw [if_pos (hA e mem_cons_self).ne]
    exact hr

/-- The rest of a key's versions is skipped. -/
theorem moveWriteCursorToPrevUserKey_spec (hb : Block S userKey D A C) {n : ℕ}
    {newer : List (ℕ × Write)} (hr : cursor.ReadsBack D (tag userKey newer ++ A)) :
    (moveWriteCursorToPrevUserKey userKey (n + 1) cursor).ReadsBack D A := by
  induction newer generalizing n cursor with
  | nil => exact movePrev_of_other hr hb.below
  | cons e newer ih =>
    rw [moveWriteCursorToPrevUserKey, hr.current]
    simp only [tag_cons, cons_append, head?_cons, ne_eq]
    cases n with
    | zero =>
      have h := hr.internalSeekForPrev (ofUser userKey)
      rwa [hb.takeWhile, reverse_reverse] at h
    | succ n => exact ih hr.prev

namespace BackwardKvScanner

variable {s : BackwardKvScanner K}

/-- The visible value was returned; only the default cursor may have changed. -/
def Loaded (S : Snapshot K) (cfg : ScannerConfig K) (userKey : K) (s : BackwardKvScanner K)
    (res : Res K (Option Value) × BackwardKvScanner K) : Prop :=
  ∃ d, res = (.ok (S.visible userKey cfg.ts), { s with defaultCursor := d }) ∧
    DefaultReadyBack S cfg d

theorem loaded_none (hd : DefaultReadyBack S cfg s.defaultCursor)
    (hv : visibleWrite (S.versions userKey) cfg.ts = none) :
    Loaded S cfg userKey s (.ok none, s) :=
  ⟨s.defaultCursor, by rw [Snapshot.visible, hv]; rfl, hd⟩

section

variable (ho : cfg.omitValue = false) (hv : S.HasValues userKey)
  (hin : cfg.inRange userKey = true) (hd : DefaultReadyBack S cfg s.defaultCursor)
include ho hv hin hd

/-- The value of the visible Put is loaded. -/
theorem returnPut_spec {w : Write}
    (hw : visibleWrite (S.versions userKey) cfg.ts = some w) :
    Loaded S cfg userKey s (s.returnPut S cfg w userKey) := by
  obtain ⟨v, hval⟩ := isSome_iff_exists.mp (hv.isSome_value hw)
  have hvis : S.visible userKey cfg.ts = some v := by
    rw [Snapshot.visible, hw, bind_some, hval]
  rw [Snapshot.value] at hval
  simp only [returnPut, reverseLoadDataByWrite, ho]
  cases hsv : w.shortValue with
  | some value =>
    rw [hsv, some_or] at hval
    exact ⟨s.defaultCursor, by rw [hvis, hval]; rfl, hd⟩
  | none =>
    rw [hsv] at hval
    obtain ⟨cursor, hload, hready⟩ :=
      reverseLoadData_spec (cfg.loadDataHint userKey) hd hin hval
    simp only [loadDefault, hload]
    exact ⟨some cursor, by rw [hvis]; rfl, hready⟩

/-- A record that is the newest Put or Delete is returned if it is visible. -/
theorem loaded_latest {c : ℕ} {w : Write}
    (hl : latestChange (S.versions userKey) cfg.ts = some (c, w)) :
    Loaded S cfg userKey s (if !w.checkGcFenceAsLatestVersion cfg.ts then (.ok none, s)
      else match w.writeType with
        | .put => s.returnPut S cfg w userKey
        | .delete => (.ok none, s)
        | .lock | .rollback => (.error (.panic .unreachable), s)) := by
  have hvis := visibleWrite_of_latest hl
  cases hf : w.checkGcFenceAsLatestVersion cfg.ts with
  | false => exact loaded_none hd (by rw [hvis, Write.asLatest_of_fence hf])
  | true =>
    rcases Write.isChange_iff.mp (mem_of_latest hl).2.2 with ht | ht
    · simp only [ht]
      exact returnPut_spec ho hv hin hd (by rw [hvis, Write.asLatest_put ht hf])
    · simp only [ht]
      exact loaded_none hd (by rw [hvis, Write.asLatest_delete ht])

/-- The newest Put or Delete that was met decides, once everything newer has been read. -/
theorem handleLastVersion_spec {older : List (ℕ × Write)}
    (hu : Unread (S.versions userKey) cfg.ts older) :
    Loaded S cfg userKey s (s.handleLastVersion S cfg (newestChange older) userKey) := by
  have hl := hu.latestChange_eq
  rw [newestChange, ← hl]
  cases hlc : latestChange (S.versions userKey) cfg.ts with
  | none => exact loaded_none hd (visibleWrite_of_none hlc)
  | some e => exact loaded_latest ho hv hin hd hlc

variable {e : ℕ × Write}

/-- Reading down from the read timestamp to where the loop over `prev` had come up. -/
theorem reverseSeekLoop_spec (hs : SoundAt (S.versions userKey) cfg.ts)
    {l older : List (ℕ × Write)} {n : ℕ}
    (hr : s.writeCursor.Reads D (tag userKey (l ++ e :: older) ++ C))
    (hu : Unread (S.versions userKey) cfg.ts (l ++ e :: older)) (hl : ∀ x ∈ l, e.1 < x.1)
    (hn : l.length ≤ n) :
    ∃ l' cursor d, reverseSeekLoop S cfg userKey (newestChange (e :: older)) e.1 (n + 1) s =
        (.ok (S.visible userKey cfg.ts),
          { s with writeCursor := cursor, defaultCursor := d }) ∧
      cursor.Reads D (tag userKey (l' ++ e :: older) ++ C) ∧ l' <:+ l ∧
      cursor.scanMode = s.writeCursor.scanMode ∧ DefaultReadyBack S cfg d := by
  -- Induction on the versions between the read timestamp and the last version met.
  induction l generalizing s n with
  | nil =>
    have hcur : s.writeCursor.current = some (⟨userKey, e.1⟩, e.2) := hr.current
    obtain ⟨d, hres, hready⟩ := handleLastVersion_spec ho hv hin hd hu
    rw [reverseSeekLoop, hcur]
    simp only [le_refl]
    exact ⟨[], s.writeCursor, d, hres, hr, suffix_rfl, rfl, hready⟩
  | cons x l ih =>
    obtain ⟨c, w⟩ := x
    have hcur : s.writeCursor.current = some (⟨userKey, c⟩, w) := hr.current
    have hlt : ¬ c ≤ e.1 := not_le.mpr (hl _ mem_cons_self)
    -- An answer at this version.
    have hstop : ∀ res, Loaded S cfg userKey s res → ∃ l' cursor d, res =
          (.ok (S.visible userKey cfg.ts),
            { s with writeCursor := cursor, defaultCursor := d }) ∧
        cursor.Reads D (tag userKey (l' ++ e :: older) ++ C) ∧ l' <:+ (c, w) :: l ∧
        cursor.scanMode = s.writeCursor.scanMode ∧ DefaultReadyBack S cfg d := by
      rintro res ⟨d, rfl, hready⟩
      exact ⟨(c, w) :: l, s.writeCursor, d, rfl, hr, suffix_rfl, rfl, hready⟩
    rw [reverseSeekLoop, hcur]
    simp only [hlt]
    cases hw : w.isChange with
    | true =>
      have hlat := loaded_latest (s := s) ho hv hin hd (hu.change hw)
      rcases Write.isChange_iff.mp hw with ht | ht <;> simp only [ht] at hlat ⊢ <;>
        exact hstop _ hlat
    | false =>
      cases hf : w.checkGcFenceAsLatestVersion cfg.ts with
      | false => exact hstop _ (loaded_none hd (hu.fence hs hw hf))
      | true =>
        obtain ⟨n, rfl⟩ : ∃ k, n = k + 1 := ⟨n - 1, by simp at hn; omega⟩
        obtain ⟨l', cursor, d, hres, hr', hsuf, hmode, hready⟩ :=
          ih (s := { s with writeCursor := s.writeCursor.next }) hd hr.next (hu.tail hw)
            (fun x hx => hl x (mem_cons_of_mem _ hx)) (n := n) (by simpa using hn)
        refine ⟨l', cursor, d, ?_, hr', hsuf.trans (suffix_cons _ _), hmode, hready⟩
        rcases Write.not_isChange_iff.mp hw with ht | ht <;>
          simpa only [ht, Bool.not_true, Bool.false_eq_true, if_false] using hres

end

variable {l : List (MvccKey K × Write)}

section

variable (hb : Block S userKey D A C)
include hb

/-- A seek for a version of the key lands in its block. -/
theorem internalSeek_reads {cursor : Cursor (MvccKey K) Write} (hr : cursor.ReadsBack D l) (t : ℕ) :
    (cursor.internalSeek ⟨userKey, t⟩).Reads D
      (tag userKey ((S.versions userKey).entries.dropWhile fun e => t < e.1) ++ C) :=
  ⟨hr.data, by rw [internalSeek, goto, hr.mode]; simp,
    by rw [rest_internalSeek, hr.data, hb.dropWhile], Or.inl hr.maxKey⟩

/-- A near seek from the newest version ends where a seek would. -/
theorem nearSeek_internalSeek {cursor : Cursor (MvccKey K) Write} (hr : cursor.ReadsBack D l)
    {ts : ℕ} (hE : ((S.versions userKey).entries.dropWhile fun e => ts < e.1) ≠ []) :
    (cursor.internalSeek ⟨userKey, max⟩).nearSeek ⟨userKey, ts⟩ =
      .ok (true, cursor.internalSeek ⟨userKey, ts⟩) := by
  have hv : (cursor.internalSeek ⟨userKey, ts⟩).valid = true :=
    (internalSeek_reads hb hr ts).valid_iff.mpr (by simp [tag, hE])
  have hmode : (cursor.internalSeek ⟨userKey, max⟩).scanMode = .mixed := hr.mode
  have hmax : (cursor.internalSeek ⟨userKey, max⟩).maxKey = none := hr.maxKey
  rw [nearSeek_eq (by simp [hmode]) (by simp [Cursor.Open, hmax])
    fun hf => by rw [hmode] at hf; cases hf]
  change (cursor.internalSeek ⟨userKey, ts⟩).finishSeek _ = _
  rw [finishSeek, if_pos hv]

/-- The seek of `reverse_get` lands on the newest version at or below the read timestamp. -/
theorem reverseSeekToTs_spec (hr : s.writeCursor.ReadsBack D l)
    (hE : ((S.versions userKey).entries.dropWhile fun e => cfg.ts < e.1) ≠ []) :
    ∃ cursor newer, s.reverseSeekToTs cfg userKey =
        .ok { s with writeCursor := cursor, metNewerTsData := newer } ∧
      cursor.Reads D
        (tag userKey ((S.versions userKey).entries.dropWhile fun e => cfg.ts < e.1) ++ C) ∧
      cursor.scanMode = .mixed := by
  have hland := internalSeek_reads hb hr
  have hmode : (s.writeCursor.internalSeek ⟨userKey, cfg.ts⟩).scanMode = .mixed := hr.mode
  rw [reverseSeekToTs]
  split
  · -- The newest version is looked at first.
    obtain ⟨key, hk⟩ : ∃ key, ((s.writeCursor.internalSeek ⟨userKey, max⟩).key :
        Res K (MvccKey K)) = .ok key := by
      rw [key, (hland max).current, Snapshot.dropWhile_versions le_rfl]
      cases hd : (S.versions userKey).entries with
      | nil => rw [hd] at hE; exact absurd rfl hE
      | cons e E => exact ⟨_, rfl⟩
    simp only [hk, nearSeek_internalSeek hb hr hE]
    exact ⟨_, _, rfl, hland cfg.ts, hmode⟩
  · exact ⟨_, _, rfl, hland cfg.ts, hmode⟩

end

/-- The look for newer versions moves the cursor over them. -/
theorem lookForNewer_spec {newer : List (ℕ × Write)} (hA : ∀ e ∈ A, e.1.user < userKey)
    (hr : s.writeCursor.ReadsBack D (tag userKey (e :: newer) ++ A)) :
    ∃ metPrev newer' cursor state, s.lookForNewer userKey =
        (metPrev, { s with writeCursor := cursor, metNewerTsData := state }) ∧
      cursor.ReadsBack D (tag userKey newer' ++ A) ∧ (metPrev = true → newer' = []) := by
  rw [lookForNewer]
  split
  · have hr' : s.writeCursor.prev.ReadsBack D (tag userKey newer ++ A) := hr.prev
    simp only [hr'.current]
    cases newer with
    | nil =>
      cases A with
      | nil => exact ⟨false, [], _, _, rfl, hr', fun _ => rfl⟩
      | cons x A =>
        have hne : x.1.user ≠ userKey := (hA x mem_cons_self).ne
        simp only [tag_nil, nil_append, head?_cons, if_neg hne]
        exact ⟨true, [], _, _, rfl, hr', fun _ => rfl⟩
    | cons x newer => exact ⟨false, x :: newer, _, _, by simp; rfl, hr', by simp⟩
  · exact ⟨false, e :: newer, _, _, rfl, hr, by simp⟩

/-- `reverse_get` has returned the visible value of the key; the write cursor is still within
the block of the key, and has left it if the previous user key was met. -/
def GotKey (S : Snapshot K) (cfg : ScannerConfig K) (userKey : K)
    (D A : List (MvccKey K × Write)) (s : BackwardKvScanner K)
    (res : (Res K (Option Value) × BackwardKvScanner K) × Bool) : Prop :=
  ∃ metPrev newer cursor d state, res = ((.ok (S.visible userKey cfg.ts),
      { s with writeCursor := cursor, defaultCursor := d, metNewerTsData := state }), metPrev) ∧
    cursor.ReadsBack D (tag userKey newer ++ A) ∧ (metPrev = true → newer = []) ∧
    DefaultReadyBack S cfg d

variable {newer older : List (ℕ × Write)}

theorem dropWhile_of_entries_eq {ts : ℕ} (hm : m.entries = newer.reverse ++ e :: older)
    (he : e.1 ≤ ts) :
    (m.entries.dropWhile fun x => ts < x.1) =
      (newer.reverse.dropWhile fun x => ts < x.1) ++ e :: older := by
  rw [hm, dropWhile_append]
  split
  · rename_i hnil
    rw [isEmpty_iff.mp hnil, dropWhile_cons_of_neg (by simpa using he)]
    rfl
  · rfl

/-- A position within the block of a key as seen by a reader towards smaller keys. -/
theorem readsBack_of_block (hb : Block S userKey D A C) {cursor : Cursor (MvccKey K) Write}
    {l newer older : List (ℕ × Write)}
    (hm : (S.versions userKey).entries = newer.reverse ++ e :: older)
    (hr : cursor.Reads D (tag userKey (l ++ e :: older) ++ C)) (hsuf : l <:+ newer.reverse)
    (hmode : cursor.scanMode = .mixed) :
    ∃ x newer', cursor.ReadsBack D (tag userKey (x :: newer') ++ A) := by
  obtain ⟨pre, hpre⟩ := hsuf
  obtain ⟨x, rest, hx⟩ : ∃ x rest, l ++ e :: older = x :: rest := by
    cases l with
    | nil | cons y l => exact ⟨_, _, rfl⟩
  have hD : D = (A.reverse ++ tag userKey pre) ++
      (⟨userKey, x.1⟩, x.2) :: (tag userKey rest ++ C) := by
    rw [hb.data, hm, ← hpre, append_assoc, hx, tag_append]
    simp
  rw [hx, tag_cons] at hr
  have hback := hr.readsBack hmode hD
  rw [reverse_append, reverse_reverse, reverse_tag] at hback
  exact ⟨x, pre.reverse, hback⟩

section

variable (ho : cfg.omitValue = false) (hv : S.HasValues userKey)
  (hin : cfg.inRange userKey = true) (hs : SoundAt (S.versions userKey) cfg.ts)
  (hb : Block S userKey D A C) (hd : DefaultReadyBack S cfg s.defaultCursor)
include ho hv hin hs hb hd

/-- `reverse_get` after the bound on `prev` calls is used up below the read timestamp. -/
theorem reverseGet_exhausted (hm : (S.versions userKey).entries = newer.reverse ++ e :: older)
    (he : e.1 ≤ cfg.ts) (hr : s.writeCursor.ReadsBack D (tag userKey (e :: newer) ++ A)) :
    ∃ s', s.reverseSeekToTs cfg userKey = .ok s' ∧ GotKey S cfg userKey D A s
      (reverseSeekLoop S cfg userKey (newestChange (e :: older)) e.1
        (s'.writeCursor.data.length + 1) s', false) := by
  have hdesc := (S.versions userKey).desc
  rw [hm, pairwise_append] at hdesc
  have hdrop := dropWhile_of_entries_eq hm he
  have hne : ((S.versions userKey).entries.dropWhile fun x => cfg.ts < x.1) ≠ [] := by
    rw [hdrop]
    simp
  obtain ⟨cursor, state, hseek, hreads, hmode⟩ := reverseSeekToTs_spec hb hr hne
  refine ⟨_, hseek, ?_⟩
  have hu := unread_dropWhile (S.versions userKey) cfg.ts
  rw [hdrop] at hreads hu
  have hlen := hreads.length_le
  obtain ⟨l', cursor', d, hres, hreads', hsuf, hmode', hready⟩ := reverseSeekLoop_spec
    (s := { s with writeCursor := cursor, metNewerTsData := state })
    (n := cursor.data.length) ho hv hin hd hs hreads hu
    (fun x hx => hdesc.2.2 x ((dropWhile_sublist _).subset hx) e mem_cons_self)
    (by rw [hreads.data]; simp at hlen; omega)
  obtain ⟨x, newer', hback⟩ := readsBack_of_block hb hm hreads'
    (hsuf.trans (dropWhile_suffix _))
    (hmode'.trans hmode)
  exact ⟨false, x :: newer', cursor', d, state, by rw [hres], hback, by simp, hready⟩

/-- `reverse_get` returns the visible value of the key. -/
theorem reverseGet_spec (hi : cfg.isolationLevel.Accepts cfg.ts (S.versions userKey).entries)
    (hE : (S.versions userKey).entries ≠ [])
    (hr : s.writeCursor.ReadsBack D (tag userKey (S.versions userKey).entries.reverse ++ A)) :
    GotKey S cfg userKey D A s (s.reverseGet S cfg userKey) := by
  have hval : s.writeCursor.valid = true := hr.valid_iff.mpr (by simp [tag, hE])
  have hloop : ReverseLooped cfg userKey (S.versions userKey) D A
      (reverseLoop cfg userKey reverseSeekBound s.writeCursor none 0 s.metNewerTsData) :=
    reverseLoop_spec (n := 15) s.metNewerTsData
      (fun h e he => hi h e (mem_reverse.mp he)) (by simp)
      (fun e (he : e ∈ []) => absurd he not_mem_nil)
      hr hb.below
  rw [reverseGet, hval]
  simp only [Bool.not_true, Bool.false_eq_true, if_false]
  rcases hloop with ⟨metPrev, older, newer, cursor, state, hres, hu, hr', hmet⟩ |
    ⟨e, older, newer, cursor, state, hres, hm, he, hr'⟩
  · obtain ⟨d, hlast, hready⟩ := handleLastVersion_spec
      (s := { s with writeCursor := cursor, metNewerTsData := state }) ho hv hin hd hu
    simp only [hres, hlast]
    exact ⟨metPrev, newer, cursor, d, state, rfl, hr', hmet, hready⟩
  · simp only [hres]
    by_cases hets : e.1 = cfg.ts
    · have hu : Unread (S.versions userKey) cfg.ts (e :: older) := by
        have hdesc := (S.versions userKey).desc
        rw [hm, pairwise_append, pairwise_cons] at hdesc
        refine ⟨_, hm, fun x hx hle => ?_,
          forall_mem_cons.mpr ⟨he, fun x hx => (hdesc.2.1.1 x hx).le.trans he⟩⟩
        have := hdesc.2.2 x hx e mem_cons_self
        omega
      obtain ⟨metPrev, newer', cursor', state', hlook, hr'', hmet⟩ := lookForNewer_spec
        (s := { s with writeCursor := cursor, metNewerTsData := state }) hb.below hr'
      obtain ⟨d, hlast, hready⟩ := handleLastVersion_spec
        (s := { s with writeCursor := cursor', metNewerTsData := state' }) ho hv hin hd hu
      simp only [hets, hlook, hlast]
      exact ⟨metPrev, newer', cursor', d, state', rfl, hr'', hmet, hready⟩
    · obtain ⟨s', hseek, metPrev, newer', cursor', d, state', hgot, hrest⟩ := reverseGet_exhausted
        (s := { s with writeCursor := cursor, metNewerTsData := state }) ho hv hin hs hb hd hm he
        hr'
      rw [if_neg hets, if_neg (by omega)]
      simp only [hseek, hgot]
      exact ⟨metPrev, newer', cursor', d, state', rfl, hrest⟩

end

end BackwardKvScanner

end Spec

end Tikv
