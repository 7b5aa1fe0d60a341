import Tikv.Mvcc.Snapshot

/-!
# The point getter

`PointGetter` reads single keys. Its write cursor is in prefix-seek mode, so it sees the
versions of one user key only. `loadData` first moves the cursor to the newest version at or
below the read timestamp (`seekToTs`), then walks down the versions until one decides the
answer (`walk`); a `lastChange` pointer far enough away is followed by a `get_cf`.

On contents that are sound at the read timestamp, `loadData` returns `Snapshot.visible`
(`PointGetter.loadData_eq`).
-/

namespace Tikv

open Option Snapshot

variable {K : Type} [LinearOrder K]

/-- Whether data newer than the read has been met. -/
inductive NewerTsCheckState
  | unknown
  | notMetYet
  | met
  deriving DecidableEq

/-- The state of a reader that asks for the check, or does not. -/
def NewerTsCheckState.start (checkHasNewerTsData : Bool) : NewerTsCheckState :=
  if checkHasNewerTsData then .notMetYet else .unknown

/-- Newer data was met. -/
def NewerTsCheckState.meet : NewerTsCheckState → NewerTsCheckState
  | .notMetYet => .met
  | s => s

/-- The key under a cursor; the caller has checked that the cursor is valid. -/
def Cursor.key {κ α : Type} [LinearOrder κ] (c : Cursor κ α) : Res K κ :=
  match c.current with
  | some e => .ok e.1
  | none => .error (.panic .cursorInvalid)

/-- The value under a cursor. -/
def Cursor.value {κ α : Type} [LinearOrder κ] (c : Cursor κ α) : Res K α :=
  match c.current with
  | some e => .ok e.2
  | none => .error (.panic .cursorInvalid)

/-- The configuration of a point getter. -/
structure PointGetter where
  ts : ℕ
  omitValue : Bool := false
  isolationLevel : IsolationLevel := .si
  bypassLocks : TsSet := []
  accessLocks : TsSet := []
  metNewerTsData : NewerTsCheckState := .unknown

namespace PointGetter

variable (S : Snapshot K) (g : PointGetter) (userKey : K)

/-- `PointGetter::load_data_from_default_cf`. -/
def loadDataFromDefaultCf (writeStartTs : ℕ) : Res K Value :=
  match S.default.get ⟨userKey, writeStartTs⟩ with
  | some value => .ok value
  | none => .error (.error (.defaultNotFound userKey writeStartTs))

/-- The write cursor: a prefix seek sees the versions of one user key. -/
def writeCursor : Cursor (MvccKey K) Write :=
  (S.write.restrict fun key => key.user = userKey).cursor .mixed true

/-- The first half of `PointGetter::load_data`: put the cursor on the newest version at or
below the read timestamp, if there is one. -/
def seekToTs : Res K (Option (Cursor (MvccKey K) Write) × NewerTsCheckState) := do
  let cursor := writeCursor S userKey
  if g.metNewerTsData = .notMetYet ∨ g.isolationLevel = .rcCheckTs then
    let (found, cursor) ← liftPanic (cursor.seek ⟨userKey, TimeStamp.max⟩)
    if !found then return (none, g.metNewerTsData)
    let key ← cursor.key
    if key.ts > g.ts ∧ g.isolationLevel = .rcCheckTs then
      .error (.error (.writeConflict g.ts 0 key.ts userKey none .rcCheckTs))
    else
      let newer := if key.ts > g.ts then g.metNewerTsData.meet else g.metNewerTsData
      if (⟨userKey, g.ts⟩ : MvccKey K) ≤ key then return (some cursor, newer)
      let (found, cursor) ← liftPanic (cursor.nearSeek ⟨userKey, g.ts⟩)
      return (if found then some cursor else none, newer)
  else
    let (found, cursor) ← liftPanic (cursor.seek ⟨userKey, g.ts⟩)
    return (if found then some cursor else none, g.metNewerTsData)

/-- Continue the loop of `PointGetter::load_data` with the next version. -/
def nextRecord (loop : Cursor (MvccKey K) Write → Write → Res K (Option Value))
    (cursor : Cursor (MvccKey K) Write) : Res K (Option Value) :=
  match cursor.next.current with
  | none => .ok none
  | some e => loop cursor.next e.2

/-- The loop of `PointGetter::load_data` over the write records. -/
def walk : ℕ → Cursor (MvccKey K) Write → Write → Res K (Option Value)
  | 0, _, _ => .error .outOfFuel
  | n + 1, cursor, write =>
    if !write.checkGcFenceAsLatestVersion g.ts then .ok none
    else match write.writeType with
      | .put =>
        if g.omitValue then .ok (some [])
        else match write.shortValue with
          | some value => .ok (some value)
          | none => some <$> loadDataFromDefaultCf S userKey write.startTs
      | .delete => .ok none
      | .lock | .rollback =>
        match write.lastChange with
        | .notExist => .ok none
        | .exist commitTs estimated =>
          if seekBound ≤ estimated then
            match S.write.get ⟨userKey, commitTs⟩ with
            | none => .ok none
            | some write =>
              if write.isChange then walk n cursor write
              else .error (.panic .lastChangeTarget)
          else nextRecord (walk n) cursor
        | .unknown => nextRecord (walk n) cursor

/-- `PointGetter::load_data`. -/
def loadData : Res K (Option Value × NewerTsCheckState) := do
  let (found, newer) ← seekToTs S g userKey
  match found with
  | none => return (none, newer)
  | some cursor =>
    let write ← cursor.value
    let value ← walk S g userKey (cursor.data.length + 1) cursor write
    return (value, newer)

/-- `PointGetter::load_and_check_lock`. -/
def loadAndCheckLock : Res K (Option (Lock K)) :=
  match S.lock.get userKey with
  | none => .ok none
  | some lock =>
    match lock.checkTsConflict userKey g.ts g.bypassLocks g.isolationLevel with
    | .ok () => .ok none
    | .error e => if lock.ts ∈ g.accessLocks then .ok (some lock) else .error (.error e)

/-- `PointGetter::load_data_from_lock`. -/
def loadDataFromLock (lock : Lock K) : Res K (Option Value) :=
  match lock.lockType with
  | .put =>
    if g.omitValue then .ok (some [])
    else match lock.shortValue with
      | some value => .ok (some value)
      | none => some <$> loadDataFromDefaultCf S userKey lock.ts
  | .delete => .ok none
  | .lock | .pessimistic => .error (.panic .unreachable)

/-- `PointGetter::get`. -/
def get : Res K (Option Value) := do
  let lock ← if needCheckLocks g.isolationLevel then loadAndCheckLock S g userKey else .ok none
  match lock with
  | some lock => loadDataFromLock S g userKey lock
  | none => Prod.fst <$> loadData S g userKey

/-! ### Correctness -/

section

variable {S : Snapshot K} {g : PointGetter} {userKey : K}

theorem fresh_writeCursor (S : Snapshot K) (userKey : K) :
    (writeCursor S userKey).Fresh (tag userKey (S.versions userKey).entries) where
  data := filter_user_eq
  mode := by simp [writeCursor, Cf.cursor]
  pos := rfl
  maxKey := rfl

/-- What `seekToTs` has found: the versions at or below the read timestamp are left to read,
and there are none if nothing was found. -/
def FoundAt (S : Snapshot K) (userKey : K) (ts : ℕ)
    (found : Option (Cursor (MvccKey K) Write)) : Prop :=
  match found with
  | none => ((S.versions userKey).entries.dropWhile fun e => ts < e.1) = []
  | some cursor => cursor.Reads (tag userKey (S.versions userKey).entries)
      (tag userKey ((S.versions userKey).entries.dropWhile fun e => ts < e.1)) ∧
      cursor.valid = true

variable {cursor : Cursor (MvccKey K) Write}

theorem foundAt_of_reads {ts : ℕ}
    (h : cursor.Reads (tag userKey (S.versions userKey).entries)
      (tag userKey ((S.versions userKey).entries.dropWhile fun e => ts < e.1))) :
    FoundAt S userKey ts (if cursor.valid then some cursor else none) := by
  by_cases hv : cursor.valid = true
  · rw [if_pos hv]
    exact ⟨h, hv⟩
  · rw [if_neg hv]
    have hnil := not_not.mp (mt h.valid_iff.mpr hv)
    exact List.map_eq_nil_iff.mp hnil

/-- `seekToTs` finds the newest version at or below the read timestamp. -/
theorem seekToTs_eq (S : Snapshot K) (userKey : K)
    (hi : g.isolationLevel.Accepts g.ts (S.versions userKey).entries) :
    ∃ found newer, seekToTs S g userKey = .ok (found, newer) ∧
      FoundAt S userKey g.ts found := by
  unfold seekToTs
  by_cases hc : g.metNewerTsData = .notMetYet ∨ g.isolationLevel = .rcCheckTs
  · -- The newest version of all is looked at first.
    obtain ⟨c₁, hs, hr⟩ := (fresh_writeCursor S userKey).seek
    rw [dropWhile_tag, dropWhile_versions le_rfl] at hr
    rw [if_pos hc]
    simp only [hs, liftPanic_ok]
    cases hE : (S.versions userKey).entries with
    | nil =>
      have hv : c₁.valid = false := by
        rw [← Bool.not_eq_true, hr.valid_iff, hE]
        simp
      simp only [hv]
      exact ⟨none, _, rfl, by simp [FoundAt, hE]⟩
    | cons e E =>
      rw [hE, tag_cons] at hr
      have hv : c₁.valid = true := hr.valid_iff.mpr (by simp)
      have hkey : (c₁.key : Res K (MvccKey K)) = .ok ⟨userKey, e.1⟩ := by
        rw [Cursor.key, hr.current]
        rfl
      have hok : ¬ (e.1 > g.ts ∧ g.isolationLevel = .rcCheckTs) := fun h =>
        absurd (hi h.2 e (by simp [hE])) (not_le.mpr h.1)
      simp only [hv, hkey, ok_bind, hok]
      by_cases hle : e.1 ≤ g.ts
      · rw [if_pos (MvccKey.mk_le_mk.mpr hle)]
        refine ⟨some c₁, _, rfl, ?_, hv⟩
        rw [hE, List.dropWhile_cons_of_neg (by simpa using hle)]
        exact hr
      · rw [if_neg (mt MvccKey.mk_le_mk.mp hle)]
        obtain ⟨c₂, hs₂, hr₂⟩ := hr.nearSeek (k := ⟨userKey, g.ts⟩)
          (MvccKey.mk_le_mk.mpr (not_le.mp hle).le)
        rw [← tag_cons, dropWhile_tag, ← hE] at hr₂
        simp only [hs₂]
        exact ⟨_, _, rfl, foundAt_of_reads hr₂⟩
  · obtain ⟨c₁, hs, hr⟩ := (fresh_writeCursor S userKey).seek
      (k := ⟨userKey, g.ts⟩)
    rw [dropWhile_tag] at hr
    rw [if_neg hc]
    simp only [hs]
    exact ⟨_, _, rfl, foundAt_of_reads hr⟩

variable {w : Write}

/-- The value of a Put is loaded from the record or from the default CF. -/
theorem load_put {v : Value} (hv : S.value userKey w = some v) :
    (match w.shortValue with
      | some value => .ok (some value)
      | none => some <$> loadDataFromDefaultCf S userKey w.startTs : Res K (Option Value)) =
      .ok (some v) := by
  rw [value] at hv
  cases hs : w.shortValue with
  | some value =>
    rw [hs, some_or] at hv
    simp only [hv]
  | none =>
    rw [hs, none_or] at hv
    simp only [loadDataFromDefaultCf, hv]
    rfl

section

variable (ho : g.omitValue = false)
include ho

/-- One iteration settles the newest Put or Delete at or below the read timestamp. -/
theorem walk_latest (hv : S.HasValues userKey) {c n : ℕ}
    (hl : latestChange (S.versions userKey) g.ts = some (c, w))
    (cursor : Cursor (MvccKey K) Write) :
    walk S g userKey (n + 1) cursor w = .ok (S.visible userKey g.ts) := by
  have hvis := visibleWrite_of_latest hl
  have hch := (mem_of_latest hl).2.2
  rw [walk, visible]
  cases hf : w.checkGcFenceAsLatestVersion g.ts with
  | false => simp [hvis, Write.asLatest_of_fence hf]
  | true =>
    rcases Write.isChange_iff.mp hch with ht | ht
    · rw [Write.asLatest_put ht hf] at hvis
      obtain ⟨v, hw⟩ := isSome_iff_exists.mp (hv.isSome_value hvis)
      simp only [ht, ho, hvis, bind_some, hw]
      exact load_put hw
    · simp [ht, hvis, Write.asLatest_delete ht]

/-- One iteration is right if going on with the next version is. -/
theorem walk_step (hs : SoundAt (S.versions userKey) g.ts) (hv : S.HasValues userKey)
    {l : List (ℕ × Write)} {c n : ℕ} (hu : Unread (S.versions userKey) g.ts ((c, w) :: l))
    (hnext : w.isChange = false → nextRecord (walk S g userKey (n + 1)) cursor =
      .ok (S.visible userKey g.ts)) :
    walk S g userKey (n + 2) cursor w = .ok (S.visible userKey g.ts) := by
  cases hw : w.isChange with
  | true => exact walk_latest ho hv (hu.change hw) cursor
  | false =>
    have hnone : visibleWrite (S.versions userKey) g.ts = none →
        (.ok none : Res K (Option Value)) = .ok (S.visible userKey g.ts) := fun h => by
      rw [visible, h, bind_none]
    rw [walk]
    cases hf : w.checkGcFenceAsLatestVersion g.ts with
    | false => exact hnone (hu.fence hs hw hf)
    | true =>
      -- A Lock and a Rollback record are passed in the same way.
      rcases Write.not_isChange_iff.mp hw with ht | ht
      all_goals
        simp only [ht, Bool.not_true, Bool.false_eq_true, if_false]
        cases hlc : w.lastChange with
        | notExist => exact hnone (hu.notExist hs hw hlc)
        | unknown => exact hnext hw
        | exist t estimated =>
          simp only [get_write]
          split
          · -- The pointer is followed.
            obtain ⟨-, ⟨w', hl, hget⟩ | ⟨hvis, hget, -⟩⟩ := hu.exist hs hw hlc
            · simp only [hget, (mem_of_latest hl).2.2]
              exact walk_latest ho hv hl cursor
            · simp only [hget]
              exact hnone hvis
          · exact hnext hw

/-- The loop over the versions returns the visible value. -/
theorem walk_eq (hs : SoundAt (S.versions userKey) g.ts) (hv : S.HasValues userKey)
    {D : List (MvccKey K × Write)} {l : List (ℕ × Write)} {c n : ℕ}
    (hr : cursor.Reads D (tag userKey ((c, w) :: l)))
    (hu : Unread (S.versions userKey) g.ts ((c, w) :: l)) (hn : l.length ≤ n) :
    walk S g userKey (n + 2) cursor w = .ok (S.visible userKey g.ts) := by
  -- Induction on the versions left to read; each Lock or Rollback that is passed takes one.
  induction l generalizing c w n cursor with
  | nil =>
    refine walk_step ho hs hv hu fun hw => ?_
    have hcur : cursor.next.current = none := hr.next.current
    rw [nextRecord, hcur, visible, (hu.tail hw).nil]
    rfl
  | cons e l ih =>
    obtain ⟨n, rfl⟩ : ∃ k, n = k + 1 := ⟨n - 1, by simp at hn; omega⟩
    refine walk_step ho hs hv hu fun hw => ?_
    have hcur : cursor.next.current = some (⟨userKey, e.1⟩, e.2) := hr.next.current
    rw [nextRecord, hcur]
    exact ih hr.next (hu.tail hw) (by simpa using hn)

/-- On contents that are sound at the read timestamp a point get returns the visible value. -/
theorem loadData_eq (hi : g.isolationLevel.Accepts g.ts (S.versions userKey).entries)
    (hs : SoundAt (S.versions userKey) g.ts) (hv : S.HasValues userKey) :
    ∃ newer, loadData S g userKey = .ok (S.visible userKey g.ts, newer) := by
  obtain ⟨found, newer, hseek, hfound⟩ := seekToTs_eq S userKey hi
  have hu := unread_dropWhile (S.versions userKey) g.ts
  rw [loadData, hseek]
  cases found with
  | none =>
    have hnil : ((S.versions userKey).entries.dropWhile fun e => g.ts < e.1) = [] := hfound
    rw [hnil] at hu
    exact ⟨newer, by rw [visible, hu.nil]; rfl⟩
  | some cursor =>
    obtain ⟨hr, hval⟩ := hfound
    cases hE : (S.versions userKey).entries.dropWhile fun e => g.ts < e.1 with
    | nil =>
      rw [hE] at hr
      exact absurd rfl (hr.valid_iff.mp hval)
    | cons e l =>
      rw [hE] at hr hu
      have hlen : l.length + 1 ≤ cursor.data.length := by
        simpa [hr.data] using hr.length_le
      have hwalk := walk_eq ho hs hv hr hu (n := cursor.data.length - 1) (by omega)
      rw [show cursor.data.length - 1 + 2 = cursor.data.length + 1 by omega] at hwalk
      have hval' : (cursor.value : Res K Write) = .ok e.2 := by
        rw [Cursor.value, hr.current]
        rfl
      exact ⟨newer, by simp only [ok_bind, hval', hwalk]; rfl⟩

end

end

end PointGetter

end Tikv
