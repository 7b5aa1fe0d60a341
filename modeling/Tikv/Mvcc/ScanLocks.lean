import Tikv.Foundation.SortedMerge
import Tikv.Mvcc.Snapshot
import Tikv.Raftstore.PessimisticLocks

/-!
# Scanning the locks of a range

`MvccReader::scan_locks` reads the locks of a range from two places: the pessimistic locks that the
leader keeps in memory, and the lock CF. The first are read at once, no more than the limit; the
second are pulled one at a time as the two are merged in key order. A key may be in both places
while a leader or a range is being handed over; then the stored lock counts.

What is returned is the beginning of the union of the two (**`scanLocks_union`**): the first `limit`
locks of it, or all of it.
-/

namespace Tikv

open Raftstore SortedMerge List PeerPessimisticLocks

variable {K : Type} [LinearOrder K]

/-- The first `limit` entries, or all with a limit of `0`. -/
def takeLimit {α : Type} (limit : ℕ) (l : List α) : List α := if limit = 0 then l else l.take limit

/-- The key is in `[start, stop)`, where `none` is no bound. -/
def inBounds (start stop : Option K) (key : K) : Bool :=
  start.all (· ≤ key) && stop.all (key < ·)

/-- A lock as the filter of a scan gets it. -/
inductive TxnLockRef (K : Type)
  | inMemory (lock : PessimisticLock K)
  | persisted (lock : Lock K)

/-! ### The locks in memory -/

namespace Raftstore

def PessimisticLock.intoLock (lock : PessimisticLock K) : Lock K where
  lockType := .pessimistic
  primary := lock.primary
  ts := lock.startTs
  ttl := lock.ttl
  forUpdateTs := lock.forUpdateTs
  minCommitTs := lock.minCommitTs
  lastChange := lock.lastChange
  isLockedWithConflict := lock.isLockedWithConflict

namespace PeerPessimisticLocks

/-- The loop of `scan_locks` over the entries of the range. -/
def scanLocksLoop (filter : K → PessimisticLock K → Bool) (limit : ℕ) :
    List (K × PessimisticLock K × Bool) → List (K × Lock K) → List (K × Lock K) × Bool
  | [], locks => (locks, false)
  | (key, lock, _) :: iter, locks =>
    let locks := if filter key lock then locks ++ [(key, lock.intoLock)] else locks
    if 0 < limit ∧ limit ≤ locks.length then (locks, !iter.isEmpty)
    else scanLocksLoop filter limit iter locks

/-- `PeerPessimisticLocks::scan_locks`. -/
def scanLocks (locks : PeerPessimisticLocks K) (start stop : Option K)
    (filter : K → PessimisticLock K → Bool) (limit : ℕ) :
    Except Panic (List (K × Lock K) × Bool) :=
  if start.any fun s => stop.any (· < s) then .error .assertion
  else .ok (scanLocksLoop filter limit
    (locks.map.entries.filter fun e => inBounds start stop e.1) [])

end PeerPessimisticLocks

end Raftstore

/-! ### The locks in the lock CF -/

/-- Why a scan returns no locks. -/
inductive ScanLocksError
  | staleCommand
  | epochNotMatch
  | flashbackInProgress
  | panic (p : Panic)
  /-- The loop was not given enough steps. -/
  | outOfFuel

/-- The part of an `MvccReader` that a scan of the locks uses. -/
structure LockReader (K : Type) [LinearOrder K] where
  snapshot : Snapshot K
  /-- The locks in memory, if the snapshot comes with them. -/
  txnExt : Option (PeerPessimisticLocks K) := none
  scanMode : Option ScanMode := none
  lockCursor : Option (Cursor K (Lock K)) := none
  term : ℕ := 0
  version : ℕ := 0
  allowInFlashback : Bool := false

namespace LockReader

def liftPanic {α : Type} : Except Panic α → Except ScanLocksError α
  | .ok a => .ok a
  | .error p => .error (.panic p)

variable (r : LockReader K)

/-- The cursor that `create_lock_cursor_if_not_exist` leaves. -/
def createLockCursorIfNotExist : Cursor K (Lock K) :=
  r.lockCursor.getD (r.snapshot.lock.cursor (getScanMode r.scanMode) false)

/-- Position a cursor on the first lock of the range. -/
def seekStart (start : Option K) (cursor : Cursor K (Lock K)) :
    Except ScanLocksError (Bool × Cursor K (Lock K)) :=
  match start with
  | some key => liftPanic (cursor.seek key)
  | none => .ok (cursor.seekToFirst.valid, cursor.seekToFirst)

/-- The loop of `scan_locks_from_storage`. -/
def scanStorageLoop (stop : Option K) (filter : K → Lock K → Bool) (limit : ℕ) :
    ℕ → Cursor K (Lock K) → List (K × Lock K) →
      Except ScanLocksError ((List (K × Lock K) × Bool) × Cursor K (Lock K))
  | 0, _, _ => .error .outOfFuel
  | n + 1, cursor, locks =>
    match cursor.current with
    | none => .ok ((locks, false), cursor)
    | some (key, lock) =>
      if stop.any (· ≤ key) then .ok ((locks, false), cursor)
      else if filter key lock then
        let locks := locks ++ [(key, lock)]
        if 0 < limit ∧ locks.length = limit then .ok ((locks, true), cursor)
        else scanStorageLoop stop filter limit n cursor.next locks
      else scanStorageLoop stop filter limit n cursor.next locks

/-- `MvccReader::scan_locks_from_storage`. -/
def scanLocksFromStorage (start stop : Option K) (filter : K → Lock K → Bool)
    (limit : ℕ) : Except ScanLocksError ((List (K × Lock K) × Bool) × LockReader K) := do
  let (ok, cursor) ← seekStart start r.createLockCursorIfNotExist
  if !ok then return (([], false), { r with lockCursor := some cursor })
  let (res, cursor) ← scanStorageLoop stop filter limit (cursor.data.length + 1) cursor []
  return (res, { r with lockCursor := some cursor })

/-- What `next_pair_from_storage` captures. -/
structure StorageIter (K : Type) [LinearOrder K] where
  cursor : Cursor K (Lock K)
  lockCursorSeeked : Bool := false
  storageIterationFinished : Bool := false

/-- The loop of `next_pair_from_storage`: the lock the cursor stops at. -/
def nextMatch (stop : Option K) (filter : K → Lock K → Bool) :
    ℕ → Cursor K (Lock K) → Except ScanLocksError (Option (K × Lock K) × Cursor K (Lock K))
  | 0, _ => .error .outOfFuel
  | n + 1, cursor =>
    match cursor.current with
    | none => .ok (none, cursor)
    | some (key, lock) =>
      if stop.any (· ≤ key) then .ok (none, cursor)
      else if filter key lock then .ok (some (key, lock), cursor)
      else nextMatch stop filter n cursor.next

/-- The closure `next_pair_from_storage`. -/
def nextPairFromStorage (start stop : Option K) (filter : K → Lock K → Bool)
    (it : StorageIter K) : Except ScanLocksError (Option (K × Lock K) × StorageIter K) := do
  if it.storageIterationFinished then return (none, it)
  let (ok, cursor) ← (if !it.lockCursorSeeked then seekStart start it.cursor
    else .ok (true, it.cursor.next))
  if !ok then return (none, { it with cursor, storageIterationFinished := true })
  let (pair, cursor) ← nextMatch stop filter (cursor.data.length + 1) cursor
  return (pair, { cursor, lockCursorSeeked := true, storageIterationFinished := pair.isNone })

/-! ### The merge -/

/-- `MvccReader::check_term_version_status`. -/
def checkTermVersionStatus (locks : PeerPessimisticLocks K) : Except ScanLocksError Unit :=
  if r.term ≠ 0 ∧ locks.term ≠ r.term then .error .staleCommand
  else if r.version ≠ 0 ∧ locks.version ≠ r.version then .error .epochNotMatch
  else if locks.status = .isInFlashback ∧ !r.allowInFlashback then .error .flashbackInProgress
  else .ok ()

/-- `MvccReader::load_in_memory_pessimistic_lock_range`. -/
def loadInMemoryPessimisticLockRange (start stop : Option K)
    (filter : K → PessimisticLock K → Bool) (scanLimit : ℕ) :
    Except ScanLocksError (List (K × Lock K) × Bool) :=
  match r.txnExt with
  | some locks => do
    r.checkTermVersionStatus locks
    liftPanic (locks.scanLocks start stop filter scanLimit)
  | none => .ok ([], false)

/-- The variables of the merge loop. -/
structure MergeState (K : Type) [LinearOrder K] where
  /-- `memory_pair` and what is left of `memory_iter` -/
  memory : List (K × Lock K)
  storagePair : Option (K × Lock K)
  storage : StorageIter K
  locks : List (K × Lock K) := []

/-- The `match` of the merge loop: the next lock, taken from one of the two sides. -/
def takeNext (start stop : Option K) (filter : K → Lock K → Bool) (s : MergeState K) :
    Except ScanLocksError (Option ((K × Lock K) × MergeState K)) :=
  match s.memory, s.storagePair with
  | memoryPair :: memory, some pair =>
    if pair.1 ≤ memoryPair.1 then do
      let (storagePair, storage) ← nextPairFromStorage start stop filter s.storage
      return some (pair, { s with storagePair, storage })
    else .ok (some (memoryPair, { s with memory }))
  | memoryPair :: memory, none => .ok (some (memoryPair, { s with memory }))
  | [], some pair => do
    let (storagePair, storage) ← nextPairFromStorage start stop filter s.storage
    return some (pair, { s with storagePair, storage })
  | [], none => .ok none

/-- Duplicated keys are ignored. -/
def pushLock (locks : List (K × Lock K)) (pair : K × Lock K) : List (K × Lock K) :=
  if locks.getLast?.any (·.1 = pair.1) then locks else locks ++ [pair]

/-- The merge loop of `scan_locks`. -/
def mergeLoop (start stop : Option K) (filter : K → Lock K → Bool) (limit : ℕ)
    (memoryHasRemain : Bool) : ℕ → MergeState K →
      Except ScanLocksError ((List (K × Lock K) × Bool) × Cursor K (Lock K))
  | 0, _ => .error .outOfFuel
  | n + 1, s => do
    match ← takeNext start stop filter s with
    | none => return ((s.locks, memoryHasRemain), s.storage.cursor)
    | some (pair, s) =>
      let s := { s with locks := pushLock s.locks pair }
      if 0 < limit ∧ limit ≤ s.locks.length then
        return ((s.locks, !s.memory.isEmpty || s.storagePair.isSome || memoryHasRemain),
          s.storage.cursor)
      else mergeLoop start stop filter limit memoryHasRemain n s

/-- `MvccReader::scan_locks`. -/
def scanLocks (start stop : Option K) (filter : K → TxnLockRef K → Bool)
    (limit : ℕ) : Except ScanLocksError ((List (K × Lock K) × Bool) × LockReader K) := do
  let (memoryLocks, memoryHasRemain) ← r.loadInMemoryPessimisticLockRange start stop
    (fun key lock => filter key (.inMemory lock)) limit
  let storageFilter := fun key lock => filter key (.persisted lock)
  if memoryLocks.isEmpty then r.scanLocksFromStorage start stop storageFilter limit
  else
    let (storagePair, storage) ← nextPairFromStorage start stop storageFilter
      { cursor := r.createLockCursorIfNotExist }
    let (res, cursor) ← mergeLoop start stop storageFilter limit memoryHasRemain
      (memoryLocks.length + storage.cursor.data.length + 2)
      { memory := memoryLocks, storagePair, storage }
    return (res, { r with lockCursor := some cursor })

/-! ### What a scan reads from the lock CF -/

section Storage

variable {start stop : Option K} {filter : K → Lock K → Bool} {limit : ℕ}
  {cursor : Cursor K (Lock K)} {D l : List (K × Lock K)}

/-- The entries not below the start of the range. -/
def fromStart (start : Option K) (l : List (K × Lock K)) : List (K × Lock K) :=
  match start with
  | some key => l.dropWhile (·.1 < key)
  | none => l

/-- The locks a scan finds among the entries `l`, up to the end of the range. -/
def matching (stop : Option K) (filter : K → Lock K → Bool) :
    List (K × Lock K) → List (K × Lock K)
  | [] => []
  | e :: l =>
    if stop.any (· ≤ e.1) then []
    else if filter e.1 e.2 then e :: matching stop filter l else matching stop filter l

theorem seekStart_fresh (start : Option K) (h : cursor.Fresh D) :
    ∃ cursor', seekStart start cursor = .ok (cursor'.valid, cursor') ∧
      cursor'.Reads D (fromStart start D) := by
  cases start with
  | some key =>
    obtain ⟨cursor', hseek, hreads⟩ := h.seek (k := key)
    exact ⟨cursor', by rw [seekStart, hseek]; rfl, hreads⟩
  | none => exact ⟨cursor.seekToFirst, rfl, h.seekToFirst⟩

/-- The answer of a scan that is to find `all`: the beginning of it, and all of it unless something
remains. -/
def Answer (limit : ℕ) {α : Type} (all : List α) (res : List α × Bool) : Prop :=
  res.1 = takeLimit limit all ∧ (res.2 = false → res.1 = all)

/-- The limit has not been reached. -/
def Below (limit : ℕ) {α : Type} (l : List α) : Prop := limit = 0 ∨ l.length < limit

theorem below_nil {α : Type} : Below limit ([] : List α) := limit.eq_zero_or_pos

theorem Below.answer {α : Type} {l : List α} (h : Below limit l) (hasRemain : Bool) :
    Answer limit l (l, hasRemain) := by
  refine ⟨?_, fun _ => rfl⟩
  rcases h with rfl | h
  · rfl
  · rw [takeLimit]
    split
    · rfl
    · exact (take_of_length_le h.le).symm

/-- The limit has been reached. -/
theorem answer_of_length {α : Type} {l rest : List α} {hasRemain : Bool}
    (h : 0 < limit ∧ l.length = limit) (hrest : hasRemain = false → rest = []) :
    Answer limit (l ++ rest) (l, hasRemain) := by
  refine ⟨?_, fun hremain => by rw [hrest hremain, append_nil]⟩
  rw [takeLimit, if_neg h.1.ne', take_left' h.2]

theorem Below.concat {α : Type} {l : List α} {a : α} (h : Below limit l)
    (hlimit : ¬ (0 < limit ∧ (l ++ [a]).length = limit)) : Below limit (l ++ [a]) := by
  rw [length_append, length_singleton] at hlimit
  rw [Below, length_append, length_singleton]
  rcases h with h | h <;> omega

/-- The loop over the lock CF answers what is still to be read. -/
theorem scanStorageLoop_reads {n : ℕ} {locks : List (K × Lock K)} (stop : Option K)
    (filter : K → Lock K → Bool) (h : cursor.Reads D l) (hn : l.length < n)
    (hb : Below limit locks) :
    ∃ res cursor', scanStorageLoop stop filter limit n cursor locks = .ok (res, cursor') ∧
      Answer limit (locks ++ matching stop filter l) res := by
  induction n generalizing cursor l locks with
  | zero => omega
  | succ n ih =>
    have hcur := h.current
    cases l with
    | nil =>
      rw [scanStorageLoop, hcur, matching, append_nil]
      exact ⟨_, cursor, rfl, hb.answer false⟩
    | cons e l =>
      obtain ⟨key, lock⟩ := e
      rw [scanStorageLoop, hcur, matching]
      dsimp only [head?_cons]
      by_cases hstop : stop.any (· ≤ key) = true
      · rw [if_pos hstop, if_pos hstop, append_nil]
        exact ⟨_, cursor, rfl, hb.answer false⟩
      · rw [if_neg hstop, if_neg hstop]
        have hnext : cursor.next.Reads D l := h.next
        have hn' : l.length < n := by rw [length_cons] at hn; omega
        by_cases hfilter : filter key lock = true
        · rw [if_pos hfilter, if_pos hfilter,
            append_cons locks (key, lock) (matching stop filter l)]
          by_cases hlimit : 0 < limit ∧ (locks ++ [(key, lock)]).length = limit
          · rw [if_pos hlimit]
            exact ⟨_, cursor, rfl, answer_of_length hlimit nofun⟩
          · rw [if_neg hlimit]
            exact ih hnext hn' (hb.concat hlimit)
        · rw [if_neg hfilter, if_neg hfilter]
          exact ih hnext hn' hb

/-- The locks of the lock CF are read. -/
theorem scanLocksFromStorage_spec {r : LockReader K} (h : r.createLockCursorIfNotExist.Fresh D) :
    ∃ res r', r.scanLocksFromStorage start stop filter limit = .ok (res, r') ∧
      Answer limit (matching stop filter (fromStart start D)) res := by
  obtain ⟨cursor, hseek, hreads⟩ := seekStart_fresh start h
  rw [scanLocksFromStorage, hseek, ok_bind]
  dsimp only
  cases hvalid : cursor.valid with
  | false =>
    rw [hreads.eq_nil hvalid]
    exact ⟨_, _, rfl, below_nil.answer false⟩
  | true =>
    have hlen : (fromStart start D).length < cursor.data.length + 1 := by
      rw [hreads.data]
      exact Nat.lt_succ_of_le hreads.length_le
    obtain ⟨res, cursor', hloop, hres⟩ := scanStorageLoop_reads stop filter hreads hlen below_nil
    exact ⟨res, { r with lockCursor := some cursor' }, by rw [hloop]; rfl, hres⟩

/-- The lock the cursor stops at is the first of those a scan finds. -/
theorem nextMatch_reads {n : ℕ} (stop : Option K) (filter : K → Lock K → Bool)
    (h : cursor.Reads D l) (hn : l.length < n) :
    ∃ cursor', nextMatch stop filter n cursor = .ok ((matching stop filter l).head?, cursor') ∧
      cursor'.data = D ∧ ∀ e found, matching stop filter l = e :: found →
        ∃ l', cursor'.Reads D (e :: l') ∧ found = matching stop filter l' := by
  induction n generalizing cursor l with
  | zero => omega
  | succ n ih =>
    have hcur := h.current
    cases l with
    | nil =>
      rw [nextMatch, hcur]
      exact ⟨cursor, rfl, h.data, nofun⟩
    | cons e l =>
      rw [nextMatch, hcur, matching]
      dsimp only [head?_cons]
      by_cases hstop : stop.any (· ≤ e.1) = true
      · rw [if_pos hstop, if_pos hstop]
        exact ⟨cursor, rfl, h.data, nofun⟩
      · rw [if_neg hstop, if_neg hstop]
        by_cases hfilter : filter e.1 e.2 = true
        · rw [if_pos hfilter, if_pos hfilter]
          refine ⟨cursor, rfl, h.data, fun e' found heq => ?_⟩
          obtain ⟨rfl, rfl⟩ := List.cons.inj heq
          exact ⟨l, h, rfl⟩
        · rw [if_neg hfilter, if_neg hfilter]
          exact ih h.next (by rw [length_cons] at hn; omega)

/-- What `next_pair_from_storage` has still to return. -/
inductive Yields (start stop : Option K) (filter : K → Lock K → Bool) (D : List (K × Lock K)) :
    StorageIter K → List (K × Lock K) → Prop
  | unseeked {cursor : Cursor K (Lock K)} (h : cursor.Fresh D) :
    Yields start stop filter D ⟨cursor, false, false⟩ (matching stop filter (fromStart start D))
  | seeked {cursor : Cursor K (Lock K)} {e : K × Lock K} {l : List (K × Lock K)}
      (h : cursor.Reads D (e :: l)) :
    Yields start stop filter D ⟨cursor, true, false⟩ (matching stop filter l)
  | finished {cursor : Cursor K (Lock K)} {seeked : Bool} (h : cursor.data = D) :
    Yields start stop filter D ⟨cursor, seeked, true⟩ []

variable {found : List (K × Lock K)}

theorem Yields.data {it : StorageIter K} (h : Yields start stop filter D it found) :
    it.cursor.data = D := by
  cases h with
  | unseeked h | seeked h => exact h.data
  | finished h => exact h

theorem yields_nextMatch (start stop : Option K) (filter : K → Lock K → Bool)
    (h : cursor.Reads D l) :
    ∃ pair cursor', nextMatch stop filter (cursor.data.length + 1) cursor = .ok (pair, cursor') ∧
      pair = (matching stop filter l).head? ∧
      Yields start stop filter D ⟨cursor', true, pair.isNone⟩ (matching stop filter l).tail := by
  have hlen : l.length < cursor.data.length + 1 := by
    rw [h.data]
    exact Nat.lt_succ_of_le h.length_le
  obtain ⟨cursor', hnext, hdata, hreads⟩ :=
    nextMatch_reads stop filter h hlen
  refine ⟨_, cursor', hnext, rfl, ?_⟩
  cases hfound : matching stop filter l with
  | nil => exact .finished hdata
  | cons e found =>
    obtain ⟨l', hreads', rfl⟩ := hreads e found hfound
    exact .seeked hreads'

/-- The closure returns the locks of the lock CF one after the other. -/
theorem Yields.next {it : StorageIter K} (h : Yields start stop filter D it found) :
    ∃ it', nextPairFromStorage start stop filter it = .ok (found.head?, it') ∧
      Yields start stop filter D it' found.tail := by
  cases h with
  | @unseeked cursor h =>
    obtain ⟨cursor', hseek, hreads⟩ := seekStart_fresh start h
    obtain ⟨pair, cursor'', hnext, rfl, hyields⟩ :=
      yields_nextMatch start stop filter hreads
    rw [nextPairFromStorage, if_neg Bool.false_ne_true, if_pos (show (!false) = true from rfl),
      hseek, ok_bind]
    cases hvalid : cursor'.valid with
    | false =>
      rw [hreads.eq_nil hvalid]
      exact ⟨⟨cursor', false, true⟩, rfl, .finished hreads.data⟩
    | true =>
      refine ⟨_, ?_, hyields⟩
      dsimp only
      rw [hnext]
      rfl
  | @seeked cursor e l h =>
    obtain ⟨pair, cursor', hnext, rfl, hyields⟩ :=
      @yields_nextMatch K _ _ D l start stop filter h.next
    refine ⟨_, ?_, hyields⟩
    rw [nextPairFromStorage, if_neg Bool.false_ne_true, if_neg (show ¬ (!true) = true by decide),
      ok_bind]
    dsimp only
    rw [hnext]
    rfl
  | @finished cursor seeked h => exact ⟨_, rfl, .finished h⟩

/-! ### What the merge loop computes -/

variable {s : MergeState K} {xs ys : List (K × Lock K)} {x y : K × Lock K}
  {locks : List (K × Lock K)}

/-- The locks `xs` of the lock CF are still to be merged: the first has been pulled. -/
structure Ready (start stop : Option K) (filter : K → Lock K → Bool) (D : List (K × Lock K))
    (s : MergeState K) (xs : List (K × Lock K)) : Prop where
  pulled : s.storagePair = xs.head?
  yields : Yields start stop filter D s.storage xs.tail

/-- The stored lock is taken unless the one in memory is on a smaller key. -/
theorem Ready.takeNext (h : Ready start stop filter D s xs) :
    (s.memory = [] ∧ xs = [] ∧ takeNext start stop filter s = .ok none) ∨
    (∃ x xs' s', xs = x :: xs' ∧ (∀ y ∈ s.memory.head?, x.1 ≤ y.1) ∧
      takeNext start stop filter s = .ok (some (x, s')) ∧ Ready start stop filter D s' xs' ∧
      s'.memory = s.memory ∧ s'.locks = s.locks) ∨
    ∃ y ys s', s.memory = y :: ys ∧ (∀ x ∈ xs.head?, y.1 < x.1) ∧
      takeNext start stop filter s = .ok (some (y, s')) ∧ Ready start stop filter D s' xs ∧
      s'.memory = ys ∧ s'.locks = s.locks := by
  obtain ⟨memory, storagePair, storage, locks⟩ := s
  obtain ⟨rfl, hyields⟩ := h
  obtain ⟨storage', hnext, hyields'⟩ := hyields.next
  cases memory with
  | nil =>
    cases xs with
    | nil => exact .inl ⟨rfl, rfl, rfl⟩
    | cons x xs =>
      refine .inr (.inl ⟨x, xs, ⟨[], xs.head?, storage', locks⟩, rfl, nofun, ?_, ⟨rfl, hyields'⟩,
        rfl, rfl⟩)
      change (do let r ← nextPairFromStorage start stop filter storage; _) = _
      rw [hnext]
      rfl
  | cons y ys =>
    cases xs with
    | nil => exact .inr (.inr ⟨y, ys, _, rfl, nofun, rfl, ⟨rfl, hyields⟩, rfl, rfl⟩)
    | cons x xs =>
      by_cases hle : x.1 ≤ y.1
      · refine .inr (.inl ⟨x, xs, ⟨y :: ys, xs.head?, storage', locks⟩, rfl, ?_, ?_,
          ⟨rfl, hyields'⟩, rfl, rfl⟩)
        · rintro y' hy'
          obtain rfl := Option.some.inj hy'
          exact hle
        · change (if x.1 ≤ y.1 then _ else _) = _
          rw [if_pos hle, hnext]
          rfl
      · refine .inr (.inr ⟨y, ys, ⟨ys, some x, storage, locks⟩, rfl, ?_, ?_, ⟨rfl, hyields⟩,
          rfl, rfl⟩)
        · rintro x' hx'
          obtain rfl := Option.some.inj hx'
          exact not_le.mp hle
        · exact if_neg hle

/-- The locks in memory without the one on the key that was pushed last. -/
def unseen (locks : List (K × Lock K)) : List (K × Lock K) → List (K × Lock K)
  | [] => []
  | y :: ys => if locks.getLast?.any (·.1 = y.1) then ys else y :: ys

/-- Everything still to be merged is above what has been pushed; only the lock in memory on the key
that was pushed last may be left. -/
structure After (locks xs ys : List (K × Lock K)) : Prop where
  sortedStored : Sorted xs
  sortedMemory : Sorted ys
  stored : ∀ last ∈ locks.getLast?, ∀ e ∈ xs, last.1 < e.1
  memory : ∀ last ∈ locks.getLast?, ∀ e ∈ ys, last.1 ≤ e.1

theorem any_getLast?_eq_false {k : K} (h : ∀ last ∈ locks.getLast?, last.1 < k) :
    locks.getLast?.any (·.1 = k) = false := by
  cases hlast : locks.getLast? with
  | none => rfl
  | some last => exact decide_eq_false (h last hlast).ne

theorem pushLock_of_lt (h : ∀ last ∈ locks.getLast?, last.1 < x.1) :
    pushLock locks x = locks ++ [x] := by
  rw [pushLock, any_getLast?_eq_false h, if_neg Bool.false_ne_true]

theorem length_pushLock_le (locks : List (K × Lock K)) (x : K × Lock K) :
    (pushLock locks x).length ≤ locks.length + 1 := by
  rw [pushLock]
  split
  · exact Nat.le_succ _
  · rw [length_append, length_singleton]

theorem unseen_of_lt (h : ∀ last ∈ locks.getLast?, ∀ e ∈ ys, last.1 < e.1) :
    unseen locks ys = ys := by
  cases ys with
  | nil => rfl
  | cons y ys =>
    rw [unseen, any_getLast?_eq_false fun last hlast => h last hlast y mem_cons_self,
      if_neg Bool.false_ne_true]

/-- A stored lock is pushed. -/
theorem After.push_stored (h : After locks (x :: xs) ys) (hle : ∀ y ∈ ys.head?, x.1 ≤ y.1) :
    After (pushLock locks x) xs ys ∧
      pushLock locks x ++ merge xs (unseen (pushLock locks x) ys) =
        locks ++ merge (x :: xs) (unseen locks ys) := by
  have hlast : ∀ last ∈ locks.getLast?, last.1 < x.1 := fun last hlast =>
    h.stored last hlast x mem_cons_self
  have hmemory : ∀ e ∈ ys, x.1 ≤ e.1 := by
    intro e he
    cases ys with
    | nil => cases he
    | cons y ys => exact (hle y rfl).trans (h.sortedMemory.le_of_mem he)
  have hunseen : unseen locks ys = ys := unseen_of_lt fun last hl e he =>
    (hlast last hl).trans_le (hmemory e he)
  rw [pushLock_of_lt hlast, hunseen]
  constructor
  · refine ⟨h.sortedStored.tail, h.sortedMemory, ?_, ?_⟩
    · intro last hl e he
      rw [getLast?_concat] at hl
      exact Option.some.inj hl ▸ h.sortedStored.head_lt he
    · intro last hl e he
      rw [getLast?_concat] at hl
      exact Option.some.inj hl ▸ hmemory e he
  · rw [append_assoc, singleton_append]
    cases ys with
    | nil => rw [unseen, merge_nil_right, merge_nil_right]
    | cons y ys =>
      rw [unseen, getLast?_concat, Option.any_some]
      rcases (hmemory y mem_cons_self).eq_or_lt with heq | hlt
      · rw [if_pos (decide_eq_true heq), merge_of_eq heq]
      · rw [if_neg (by rw [decide_eq_true_eq]; exact hlt.ne), merge_of_lt hlt]

/-- A lock in memory is pushed, unless its key was pushed last. -/
theorem After.push_memory (h : After locks xs (y :: ys)) (hlt : ∀ x ∈ xs.head?, y.1 < x.1) :
    After (pushLock locks y) xs ys ∧
      pushLock locks y ++ merge xs (unseen (pushLock locks y) ys) =
        locks ++ merge xs (unseen locks (y :: ys)) := by
  have hstored : ∀ e ∈ xs, y.1 < e.1 := by
    intro e he
    cases xs with
    | nil => cases he
    | cons x xs => exact h.sortedStored.lt_of_mem (hlt x rfl) he
  have hlastKey : ∀ last ∈ (pushLock locks y).getLast?, last.1 = y.1 := by
    intro last hlast
    rw [pushLock] at hlast
    split at hlast
    · next hany =>
      rw [Option.mem_def.mp hlast] at hany
      exact of_decide_eq_true hany
    · rw [getLast?_concat] at hlast
      exact Option.some.inj hlast ▸ rfl
  have hafter : ∀ last ∈ (pushLock locks y).getLast?, ∀ e ∈ ys, last.1 < e.1 :=
    fun last hlast e he => (hlastKey last hlast).trans_lt (h.sortedMemory.head_lt he)
  refine ⟨⟨h.sortedStored, h.sortedMemory.tail, fun last hlast e he =>
    (hlastKey last hlast).trans_lt (hstored e he), fun last hlast e he =>
    (hafter last hlast e he).le⟩, ?_⟩
  rw [unseen_of_lt hafter, pushLock, unseen]
  split
  · rfl
  · rw [append_assoc, singleton_append]
    cases xs with
    | nil => rw [merge_nil_left, merge_nil_left]
    | cons x xs => rw [merge_of_gt (hlt x rfl)]

/-- The loop pushes the union until the limit is reached. -/
theorem mergeLoop_spec {n : ℕ} (memoryHasRemain : Bool) (h : Ready start stop filter D s xs)
    (hafter : After s.locks xs s.memory) (hb : Below limit s.locks)
    (hn : s.memory.length + xs.length < n) :
    ∃ res cursor, mergeLoop start stop filter limit memoryHasRemain n s = .ok (res, cursor) ∧
      Answer limit (s.locks ++ merge xs (unseen s.locks s.memory)) res ∧
      (res.2 = false → memoryHasRemain = false) := by
  induction n generalizing s xs with
  | zero => omega
  | succ n ih =>
    -- The part of the loop's body after the `match`, for the lock taken and what is left.
    have hpush : ∀ (pair : K × Lock K) (s' : MergeState K) (xs' : List (K × Lock K)),
        Ready start stop filter D s' xs' → s'.locks = s.locks →
        After (pushLock s.locks pair) xs' s'.memory →
        s'.memory.length + xs'.length < n →
        takeNext start stop filter s = .ok (some (pair, s')) →
        ∃ res cursor,
          mergeLoop start stop filter limit memoryHasRemain (n + 1) s = .ok (res, cursor) ∧
          Answer limit (pushLock s.locks pair ++
            merge xs' (unseen (pushLock s.locks pair) s'.memory)) res ∧
          (res.2 = false → memoryHasRemain = false) := by
      intro pair s' xs' hready hlocks hafter' hn' htake
      rw [mergeLoop, htake, ok_bind]
      dsimp only
      rw [hlocks]
      by_cases hlimit : 0 < limit ∧ limit ≤ (pushLock s.locks pair).length
      · have hlength := length_pushLock_le s.locks pair
        have hfull : (pushLock s.locks pair).length = limit := by
          rcases hb with hb | hb <;> omega
        rw [if_pos hlimit]
        refine ⟨_, _, rfl, answer_of_length ⟨hlimit.1, hfull⟩ fun hremain => ?_,
          fun hremain => (Bool.or_eq_false_iff.mp hremain).2⟩
        -- Nothing is left on either side.
        rw [Bool.or_eq_false_iff, Bool.or_eq_false_iff, Bool.not_eq_false', List.isEmpty_iff,
          Option.isSome_eq_false_iff, Option.isNone_iff_eq_none, hready.pulled,
          head?_eq_none_iff] at hremain
        obtain ⟨⟨hmemory, hxs⟩, -⟩ := hremain
        rw [hmemory, hxs, unseen, merge_nil_left]
      · rw [if_neg hlimit]
        refine ih (s := { s' with locks := pushLock s.locks pair }) ⟨hready.pulled, hready.yields⟩
          hafter' ?_ hn'
        rcases limit.eq_zero_or_pos with h0 | hpos
        · exact .inl h0
        · exact .inr (not_le.mp fun hle => hlimit ⟨hpos, hle⟩)
    rcases h.takeNext with ⟨hmemory, rfl, htake⟩ |
      ⟨x, xs', s', rfl, hle, htake, hready, hmem, hlocks⟩ |
      ⟨y, ys, s', hmemory, hlt, htake, hready, hmem, hlocks⟩
    · rw [mergeLoop, htake, hmemory, unseen, merge_nil_left, append_nil]
      exact ⟨_, s.storage.cursor, rfl, hb.answer memoryHasRemain, id⟩
    · obtain ⟨hafter', heq⟩ := hafter.push_stored hle
      rw [← heq, ← hmem]
      rw [length_cons] at hn
      exact hpush x s' xs' hready hlocks (hmem ▸ hafter') (by rw [hmem]; omega) htake
    · rw [hmemory] at hafter hn ⊢
      obtain ⟨hafter', heq⟩ := hafter.push_memory hlt
      rw [← heq, ← hmem]
      rw [length_cons] at hn
      exact hpush y s' xs hready hlocks (hmem ▸ hafter') (by rw [hmem]; omega) htake

end Storage

/-! ### The union of the two sides -/

section Union

variable {start stop : Option K} {limit : ℕ}

theorem fromStart_eq_filter {D : List (K × Lock K)} (hD : Sorted D) :
    fromStart start D = D.filter fun e => start.all (· ≤ e.1) := by
  cases start with
  | none => exact (filter_eq_self.mpr fun _ _ => rfl).symm
  | some key =>
    rw [fromStart]
    induction D with
    | nil => rfl
    | cons d D ih =>
      rcases lt_or_ge d.1 key with hlt | hle
      · rw [dropWhile_cons_of_pos (by simpa using hlt), filter_cons_of_neg (by simpa using hlt)]
        exact ih hD.tail
      · rw [dropWhile_cons_of_neg (by simpa using hle)]
        exact (filter_eq_self.mpr fun e he =>
          decide_eq_true (hle.trans (hD.le_of_mem he))).symm

variable {filter : K → Lock K → Bool}

/-- Stopping at the end of the range finds all locks in it. -/
theorem matching_eq_filter {l : List (K × Lock K)} (hl : Sorted l) :
    matching stop filter l = l.filter fun e => stop.all (e.1 < ·) && filter e.1 e.2 := by
  induction l with
  | nil => rfl
  | cons d l ih =>
    rw [matching]
    split
    · next hstop =>
      -- The range ends here, for the entries behind as well.
      refine (filter_eq_nil_iff.mpr fun e he hall => ?_).symm
      cases stop with
      | none => cases hstop
      | some key =>
        have hkey : key ≤ d.1 := of_decide_eq_true hstop
        have hlt : e.1 < key := of_decide_eq_true (Bool.and_eq_true_iff.mp hall).1
        exact absurd (hkey.trans (hl.le_of_mem he)) (not_le.mpr hlt)
    · next hstop =>
      have hall : stop.all (d.1 < ·) = true := by
        cases stop with
        | none => rfl
        | some key => exact decide_eq_true (not_le.mp fun hle => hstop (decide_eq_true hle))
      rw [filter_cons, hall, Bool.true_and, ih hl.tail]

/-- The locks in memory that a scan is to find. -/
def memoryMatching (table : PeerPessimisticLocks K) (start stop : Option K)
    (filter : K → PessimisticLock K → Bool) : List (K × Lock K) :=
  ((table.map.entries.filter fun e => inBounds start stop e.1).filter fun e =>
    filter e.1 e.2.1).map fun e => (e.1, e.2.1.intoLock)

theorem Below.not_full {α : Type} {l : List α} (h : Below limit l) :
    ¬ (0 < limit ∧ limit ≤ l.length) := by
  rcases h with h | h <;> omega

omit [LinearOrder K] in
/-- The loop over the locks in memory. -/
theorem scanLocksLoop_spec (filter : K → PessimisticLock K → Bool)
    (iter : List (K × PessimisticLock K × Bool)) {locks : List (K × Lock K)}
    (hb : Below limit locks) :
    Answer limit (locks ++ (iter.filter fun e => filter e.1 e.2.1).map fun e =>
        (e.1, e.2.1.intoLock))
      (scanLocksLoop filter limit iter locks) := by
  induction iter generalizing locks with
  | nil =>
    rw [filter_nil, map_nil, append_nil]
    exact hb.answer false
  | cons e iter ih =>
    obtain ⟨key, lock, deleted⟩ := e
    rw [scanLocksLoop, filter_cons]
    by_cases hfilter : filter key lock = true
    · rw [if_pos hfilter, if_pos hfilter, map_cons,
        append_cons locks (key, lock.intoLock) (List.map _ _)]
      by_cases hlimit : 0 < limit ∧ limit ≤ (locks ++ [(key, lock.intoLock)]).length
      · have hfull : (locks ++ [(key, lock.intoLock)]).length = limit := by
          rw [length_append, length_singleton] at hlimit ⊢
          rcases hb with hb | hb <;> omega
        rw [if_pos hlimit]
        refine answer_of_length ⟨hlimit.1, hfull⟩ fun hremain => ?_
        rw [Bool.not_eq_false', List.isEmpty_iff] at hremain
        rw [hremain, filter_nil, map_nil]
      · rw [if_neg hlimit]
        exact ih (hb.concat fun h => hlimit ⟨h.1, h.2.ge⟩)
    · rw [if_neg hfilter, if_neg hfilter, if_neg hb.not_full]
      exact ih hb

/-- Why a scan is refused before it reads a lock. -/
def refusal (start stop : Option K) : Option ScanLocksError :=
  match r.txnExt with
  | none => none
  | some table =>
    match r.checkTermVersionStatus table with
    | .error e => some e
    | .ok () => if start.any fun s => stop.any (· < s) then some (.panic .assertion) else none

/-- The locks in memory that a scan of the reader is to find. -/
def memoryLocks (start stop : Option K) (filter : K → TxnLockRef K → Bool) : List (K × Lock K) :=
  r.txnExt.elim [] fun table =>
    memoryMatching table start stop fun key lock => filter key (.inMemory lock)

/-- The stored locks that a scan of the reader is to find. -/
def storedLocks (start stop : Option K) (filter : K → TxnLockRef K → Bool) : List (K × Lock K) :=
  matching stop (fun key lock => filter key (.persisted lock))
    (fromStart start r.snapshot.lock.data)

variable {r : LockReader K} {filter : K → TxnLockRef K → Bool}

theorem storedLocks_eq_filter : r.storedLocks start stop filter =
    (r.snapshot.lock.data.filter fun e => start.all (· ≤ e.1)).filter fun e =>
      stop.all (e.1 < ·) && filter e.1 (.persisted e.2) := by
  have hsorted : Sorted r.snapshot.lock.data := r.snapshot.lock.sorted
  rw [storedLocks, fromStart_eq_filter hsorted, matching_eq_filter (hsorted.filter _)]

theorem sorted_storedLocks : Sorted (r.storedLocks start stop filter) := by
  rw [storedLocks_eq_filter]
  exact (r.snapshot.lock.sorted.filter _).filter _

theorem sorted_memoryLocks : Sorted (r.memoryLocks start stop filter) := by
  rw [memoryLocks]
  cases r.txnExt with
  | none => exact .nil
  | some table => exact pairwise_map.mpr ((table.map.sorted.filter _).filter _)

/-- The locks in memory are read, unless the peer refuses. -/
theorem loadInMemory_spec (start stop : Option K) (filter : K → TxnLockRef K → Bool) (limit : ℕ) :
    ∃ load, r.loadInMemoryPessimisticLockRange start stop
        (fun key lock => filter key (.inMemory lock)) limit = load ∧
      (∀ e, r.refusal start stop = some e → load = .error e) ∧
      (r.refusal start stop = none → ∃ res, load = .ok res ∧
        Answer limit (r.memoryLocks start stop filter) res) := by
  refine ⟨_, rfl, ?_⟩
  rw [refusal, loadInMemoryPessimisticLockRange, memoryLocks]
  cases r.txnExt with
  | none => exact ⟨nofun, fun _ => ⟨_, rfl, below_nil.answer false⟩⟩
  | some table =>
    dsimp only
    cases r.checkTermVersionStatus table with
    | error e => exact ⟨fun e' he => Option.some.inj he ▸ rfl, nofun⟩
    | ok u =>
      dsimp only
      rw [PeerPessimisticLocks.scanLocks]
      split
      · exact ⟨fun e' he => Option.some.inj he ▸ rfl, nofun⟩
      · exact ⟨nofun, fun _ => ⟨_, rfl,
          scanLocksLoop_spec (fun key lock => filter key (.inMemory lock))
            (table.map.entries.filter fun e => inBounds start stop e.1) below_nil⟩⟩

theorem takeLimit_merge_takeLimit (xs ys : List (K × Lock K)) :
    takeLimit limit (merge xs (takeLimit limit ys)) = takeLimit limit (merge xs ys) := by
  rw [takeLimit, takeLimit, takeLimit]
  split
  · rfl
  · exact take_merge_take le_rfl xs ys

theorem sorted_takeLimit {ys : List (K × Lock K)} (h : Sorted ys) :
    Sorted (takeLimit limit ys) := by
  rw [takeLimit]
  split
  · exact h
  · exact h.sublist (take_sublist _ _)

theorem eq_nil_of_takeLimit {α : Type} {l : List α} (h : takeLimit limit l = []) : l = [] := by
  rw [takeLimit] at h
  split at h
  · exact h
  · next hlimit => exact (take_eq_nil_iff.mp h).resolve_left hlimit

/-- A scan that is not refused returns the beginning of the union. -/
theorem scanLocks_of_not_refused (filter : K → TxnLockRef K → Bool) (limit : ℕ)
    (hnew : r.lockCursor = none) (hmode : r.scanMode ≠ some .backward)
    (hok : r.refusal start stop = none) :
    ∃ res r', r.scanLocks start stop filter limit = .ok (res, r') ∧ Answer limit
      (merge (r.storedLocks start stop filter) (r.memoryLocks start stop filter)) res := by
  have hfresh : r.createLockCursorIfNotExist.Fresh r.snapshot.lock.data := by
    rw [createLockCursorIfNotExist, hnew]
    exact ⟨rfl, getScanMode_ne_backward hmode, rfl, rfl⟩
  obtain ⟨_, hload, -, hfound⟩ := r.loadInMemory_spec start stop filter limit
  obtain ⟨⟨memoryLocks, memoryHasRemain⟩, rfl, hmemory, hmemoryRemain⟩ := hfound hok
  dsimp only at hmemory hmemoryRemain
  rw [scanLocks, hload, ok_bind]
  dsimp only
  cases hempty : memoryLocks.isEmpty with
  | true =>
    rw [List.isEmpty_iff.mp hempty] at hmemory
    rw [eq_nil_of_takeLimit hmemory.symm, merge_nil_right]
    exact scanLocksFromStorage_spec hfresh
  | false =>
    obtain ⟨storage, hpull, hyields⟩ := (show Yields start stop
      (fun key lock => filter key (.persisted lock)) r.snapshot.lock.data
      ⟨r.createLockCursorIfNotExist, false, false⟩ _ from .unseeked hfresh).next
    rw [hpull, ok_bind]
    have hafter : After [] (r.storedLocks start stop filter) memoryLocks :=
      ⟨sorted_storedLocks, hmemory ▸ sorted_takeLimit sorted_memoryLocks, nofun, nofun⟩
    have hlen : (r.storedLocks start stop filter).length ≤ storage.cursor.data.length := by
      rw [hyields.data, storedLocks_eq_filter]
      exact (length_filter_le _ _).trans (length_filter_le _ _)
    obtain ⟨res, cursor, hloop, ⟨hlocks, hall⟩, hremain⟩ :=
      mergeLoop_spec (n := memoryLocks.length + storage.cursor.data.length + 2)
        (s := ⟨memoryLocks, (r.storedLocks start stop filter).head?, storage, []⟩)
        memoryHasRemain ⟨rfl, hyields⟩ hafter below_nil (by dsimp only; omega)
    have hunseen : unseen [] memoryLocks = memoryLocks := unseen_of_lt nofun
    rw [hunseen, nil_append] at hlocks hall
    refine ⟨res, { r with lockCursor := some cursor }, ?_, ?_, fun hno => ?_⟩
    · exact (congrArg (· >>= _) hloop).trans rfl
    · rw [hlocks, hmemory, takeLimit_merge_takeLimit]
    · rw [hall hno, hmemoryRemain (hremain hno)]

/-- The lock CF has the lock, in the range, and the filter lets it through. -/
def HasStored (r : LockReader K) (start stop : Option K) (filter : K → TxnLockRef K → Bool)
    (key : K) (lock : Lock K) : Prop :=
  (key, lock) ∈ r.snapshot.lock.data ∧ inBounds start stop key = true ∧
    filter key (.persisted lock) = true

/-- The table in memory has the lock, in the range, and the filter lets it through. -/
def HasInMemory (r : LockReader K) (start stop : Option K) (filter : K → TxnLockRef K → Bool)
    (key : K) (lock : Lock K) : Prop :=
  ∃ table l deleted, r.txnExt = some table ∧ table.map.lookup key = some (l, deleted) ∧
    inBounds start stop key = true ∧ filter key (.inMemory l) = true ∧ lock = l.intoLock

theorem mem_storedLocks {key : K} {lock : Lock K} :
    (key, lock) ∈ r.storedLocks start stop filter ↔ r.HasStored start stop filter key lock := by
  rw [storedLocks_eq_filter, mem_filter, mem_filter, HasStored, inBounds, Bool.and_eq_true,
    Bool.and_eq_true]
  tauto

/-- The locks in memory that the scan is to find. -/
theorem mem_memoryLocks {key : K} {lock : Lock K} :
    (key, lock) ∈ r.memoryLocks start stop filter ↔ r.HasInMemory start stop filter key lock := by
  rw [memoryLocks]
  cases hext : r.txnExt with
  | none =>
    refine ⟨nofun, fun ⟨table, _, _, htable, _⟩ => ?_⟩
    rw [hext] at htable
    cases htable
  | some table =>
    rw [Option.elim_some, memoryMatching, mem_map]
    constructor
    · rintro ⟨⟨key', l, deleted⟩, hmem, heq⟩
      obtain ⟨rfl, rfl⟩ := Prod.mk.inj heq
      rw [mem_filter, mem_filter] at hmem
      exact ⟨table, l, deleted, hext, OrderedMap.lookup_eq_some_iff.mpr hmem.1.1, hmem.1.2, hmem.2,
        rfl⟩
    · rintro ⟨table', l, deleted, htable, hlookup, hbounds, hfilter, rfl⟩
      rw [hext] at htable
      obtain rfl := Option.some.inj htable
      exact ⟨(key, l, deleted), mem_filter.mpr ⟨mem_filter.mpr
        ⟨OrderedMap.lookup_eq_some_iff.mp hlookup, hbounds⟩, hfilter⟩, rfl⟩

/-- **A scan returns the beginning of the union.** A new reader is refused for a changed term or
version, during a flashback, or by the assertion on the order of the bounds. Otherwise there are the
locks of both sides in key order, the stored one for a key that both have, and the scan returns the
first `limit` of them, or all of them. When it reports nothing that remains, there is none. -/
theorem scanLocks_union (hnew : r.lockCursor = none) (hmode : r.scanMode ≠ some .backward)
    (start stop : Option K) (filter : K → TxnLockRef K → Bool) (limit : ℕ) :
    (∀ e, r.refusal start stop = some e → r.scanLocks start stop filter limit = .error e) ∧
    (r.refusal start stop = none → ∃ all locks hasRemain r',
      r.scanLocks start stop filter limit = .ok ((locks, hasRemain), r') ∧
      Sorted all ∧
      (∀ key lock, (key, lock) ∈ all ↔ r.HasStored start stop filter key lock ∨
        r.HasInMemory start stop filter key lock ∧
          ∀ lock', ¬ r.HasStored start stop filter key lock') ∧
      locks = takeLimit limit all ∧
      (hasRemain = false → locks = all)) := by
  constructor
  · intro e he
    obtain ⟨_, hload, hrefused, -⟩ := r.loadInMemory_spec start stop filter limit
    rw [scanLocks, hload, hrefused e he]
    rfl
  · intro hok
    obtain ⟨⟨locks, hasRemain⟩, r', hscan, hlocks, hremain⟩ :=
      scanLocks_of_not_refused filter limit hnew hmode hok
    refine ⟨_, locks, hasRemain, r', hscan, sorted_merge sorted_storedLocks sorted_memoryLocks, ?_,
      hlocks, hremain⟩
    intro key lock
    rw [mem_merge sorted_storedLocks sorted_memoryLocks, mem_memoryLocks]
    simp only [mem_storedLocks]

/-- Two locks in memory. -/
def handoverTable : PeerPessimisticLocks ℕ where
  map := (OrderedMap.empty.insert 1 (⟨1, 6, 0, 0, 0, .unknown, false⟩, false)).insert 2
    (⟨2, 8, 0, 0, 0, .unknown, false⟩, false)

/-- A reader during a handover: the key `2` is locked in memory and in the lock CF. -/
def handover : LockReader ℕ where
  snapshot := {
    write := ∅
    lock := ⟨[(2, { lockType := .put, primary := 2, ts := 8 }),
      (3, { lockType := .put, primary := 2, ts := 8 })], by decide⟩
    default := ∅
    writeTs := nofun }
  txnExt := some handoverTable
  scanMode := some .forward

/-- The first two locks of the union, the second of them the stored one. -/
theorem scanLocks_union_handover :
    handover.refusal (some 1) none = none ∧ ∃ all locks hasRemain r',
      handover.scanLocks (some 1) none (fun _ _ => true) 2 = .ok ((locks, hasRemain), r') ∧
      (2, { lockType := .put, primary := 2, ts := 8 }) ∈ all ∧ locks = takeLimit 2 all := by
  have hstored : handover.HasStored (some 1) none (fun _ _ => true) 2
      { lockType := .put, primary := 2, ts := 8 } := ⟨mem_cons_self, rfl, rfl⟩
  obtain ⟨all, locks, hasRemain, r', hscan, -, hmem, hlocks, -⟩ :=
    (scanLocks_union (r := handover) rfl nofun (some 1) none (fun _ _ => true) 2).2 rfl
  exact ⟨rfl, all, locks, hasRemain, r', hscan, (hmem 2 _).mpr (.inl hstored), hlocks⟩

end Union

end LockReader

end Tikv
