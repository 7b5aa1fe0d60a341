import Tikv.Mvcc.Reader

/-!
# What the two scanners share

The configuration of a scan, the cursors it creates over the part of a column family inside
its range, and the lookups in the default CF. A scanner creates its default cursor when the
first long value is needed and keeps it; which of `seek` and `near_seek` it then uses depends
on statistics of the write cursor, so the choice is a parameter here (`loadDataHint`) and
every result holds for all of them.

A modelled scanner function returns its result together with the state it leaves behind, for
a caller may go on after an error.
-/

namespace Tikv

variable {K : Type} [LinearOrder K]

/-- How to move the default cursor. -/
inductive LoadDataHint
  | nearSeek
  | seek
  deriving DecidableEq

/-- The configuration of a scan. -/
structure ScannerConfig (K : Type) where
  ts : ℕ
  omitValue : Bool := false
  isolationLevel : IsolationLevel := .si
  lowerBound : Option K := none
  upperBound : Option K := none
  bypassLocks : TsSet := []
  accessLocks : TsSet := []
  checkHasNewerTsData : Bool := false
  /-- The hint the statistics give when the value of this key is loaded. -/
  loadDataHint : K → LoadDataHint := fun _ => .nearSeek

namespace ScannerConfig

/-- The user key is within the bounds of the scan. -/
def inRange (cfg : ScannerConfig K) (k : K) : Bool :=
  cfg.lowerBound.all (· ≤ k) && cfg.upperBound.all (k < ·)

variable (S : Snapshot K) (cfg : ScannerConfig K) (mode : ScanMode)

/-- `create_cf_cursor(CF_WRITE)`. -/
def createWriteCursor : Cursor (MvccKey K) Write :=
  (S.write.restrict fun key => cfg.inRange key.user).cursor mode false

/-- `create_cf_cursor(CF_LOCK)`. -/
def createLockCursor : Cursor K (Lock K) :=
  (S.lock.restrict cfg.inRange).cursor mode false

/-- `create_cf_cursor(CF_DEFAULT)`. -/
def createDefaultCursor : Cursor (MvccKey K) Value :=
  (S.default.restrict fun key => cfg.inRange key.user).cursor mode false

end ScannerConfig

/-- Read the value a default cursor has been moved to. -/
def valueAt (cursor : Cursor (MvccKey K) Value) (userKey : K) (writeStartTs : ℕ) : Res K Value :=
  match cursor.current with
  | some e =>
    if e.1 = ⟨userKey, writeStartTs⟩ then .ok e.2
    else .error (.error (.defaultNotFound userKey writeStartTs))
  | none => .error (.error (.defaultNotFound userKey writeStartTs))

/-- `near_load_data_by_write`. -/
def nearLoadDataByWrite (hint : LoadDataHint) (cursor : Cursor (MvccKey K) Value) (userKey : K)
    (writeStartTs : ℕ) : Res K Value × Cursor (MvccKey K) Value :=
  let moved := match hint with
    | .nearSeek => cursor.nearSeek ⟨userKey, writeStartTs⟩
    | .seek => cursor.seek ⟨userKey, writeStartTs⟩
  match moved with
  | .ok (_, cursor) => (valueAt cursor userKey writeStartTs, cursor)
  | .error p => (.error (.panic p), cursor)

/-- `near_reverse_load_data_by_write`. -/
def nearReverseLoadDataByWrite (hint : LoadDataHint) (cursor : Cursor (MvccKey K) Value)
    (userKey : K) (writeStartTs : ℕ) : Res K Value × Cursor (MvccKey K) Value :=
  let moved := match hint with
    | .nearSeek => cursor.nearSeekForPrev ⟨userKey, writeStartTs⟩
    | .seek => cursor.seekForPrev ⟨userKey, writeStartTs⟩
  match moved with
  | .ok (_, cursor) => (valueAt cursor userKey writeStartTs, cursor)
  | .error p => (.error (.panic p), cursor)

/-- `load_data_by_lock`; `load` reads the default CF in the direction of the scan. -/
def loadDataByLock (cfg : ScannerConfig K)
    (load : K → ℕ → Res K Value × Cursor (MvccKey K) Value)
    (cursor : Cursor (MvccKey K) Value) (currentUserKey : K) (lock : Lock K) :
    Res K (Option Value) × Cursor (MvccKey K) Value :=
  match lock.lockType with
  | .put =>
    if cfg.omitValue then (.ok (some []), cursor)
    else match lock.shortValue with
      | some value => (.ok (some value), cursor)
      | none =>
        let (value, cursor) := load currentUserKey lock.ts
        (some <$> value, cursor)
  | .delete => (.ok none, cursor)
  | .lock | .pessimistic => (.error (.panic .unreachable), cursor)

end Tikv
