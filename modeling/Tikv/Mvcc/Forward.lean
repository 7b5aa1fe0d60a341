import Tikv.Mvcc.Scanner

/-!
# The forward scanner

`ForwardScanner` with `LatestKvPolicy` steps a write cursor and a lock cursor side by side
towards larger keys. For each user key it handles the lock (`handleLock`), moves the write
cursor to the read timestamp (`moveWriteCursorToTs`), walks down the versions
(`handleWrite`) and leaves the write cursor on the next user key.

The specifications follow the write cursor: it has `tag userKey l ++ C` left to read, where
`l` are versions of the current key and `C` belongs to larger keys, and every function says
what becomes of `l`.
-/

namespace Tikv

open List Option Cursor

variable {K : Type} [LinearOrder K]

/-- `Cursors`. -/
structure Cursors (K : Type) [LinearOrder K] where
  /-- Absent under read committed. -/
  lock : Option (Cursor K (Lock K))
  write : Cursor (MvccKey K) Write
  /-- Created when it is first needed. -/
  default : Option (Cursor (MvccKey K) Value) := none

/-- `HandleRes`. -/
inductive HandleRes (α : Type)
  | ret (output : α)
  | skip
  | moveToNext

/-- A forward scan in progress. -/
structure ForwardScanner (K : Type) [LinearOrder K] where
  cursors : Cursors K
  isStarted : Bool := false
  metNewerTsData : NewerTsCheckState

/-! ### Moving the write cursor -/

/-- `move_write_cursor_to_next_user_key`, with the number of positions still to try before a
seek. -/
def moveWriteCursorToNextUserKey (currentUserKey : K) :
    ℕ → Cursor (MvccKey K) Write → Cursor (MvccKey K) Write
  | 0, cursor => cursor.internalSeek ⟨currentUserKey, 0⟩
  | n + 1, cursor =>
    match cursor.current with
    | none => cursor
    | some e =>
      if e.1.user ≠ currentUserKey then cursor
      else if n = 0 then cursor.internalSeek ⟨currentUserKey, 0⟩
      else moveWriteCursorToNextUserKey currentUserKey n cursor.next

/-- The seek at the end of `move_write_cursor_to_ts`. -/
def seekWriteCursorToTs (cfg : ScannerConfig K) (userKey : K)
    (cursor : Cursor (MvccKey K) Write) : Res K Bool × Cursor (MvccKey K) Write :=
  match cursor.seek ⟨userKey, cfg.ts⟩ with
  | .error p => (.error (.panic p), cursor)
  | .ok (_, cursor) => (.ok (cursor.current.any fun e => e.1.user = userKey), cursor)

/-- The loop of `move_write_cursor_to_ts`, with the number of positions still to try before a
seek. -/
def moveLoop (cfg : ScannerConfig K) (userKey : K) :
    ℕ → Cursor (MvccKey K) Write → NewerTsCheckState →
      Res K Bool × Cursor (MvccKey K) Write × NewerTsCheckState
  | 0, cursor, newer =>
    let (res, cursor) := seekWriteCursorToTs cfg userKey cursor
    (res, cursor, newer)
  | n + 1, cursor, newer =>
    match cursor.current with
    | none => (.ok false, cursor, newer)
    | some e =>
      if e.1.user ≠ userKey then (.ok false, cursor, newer)
      else if e.1.ts ≤ cfg.ts then (.ok true, cursor, newer)
      else if cfg.isolationLevel = .rcCheckTs then
        (.error (.error (.writeConflict cfg.ts 0 e.1.ts userKey none .rcCheckTs)), cursor,
          newer.meet)
      else if n = 0 then
        let (res, cursor) := seekWriteCursorToTs cfg userKey cursor
        (res, cursor, newer.meet)
      else moveLoop cfg userKey n cursor.next newer.meet

/-- `ForwardScanner::move_write_cursor_to_ts`. -/
def moveWriteCursorToTs (cfg : ScannerConfig K) (userKey : K)
    (cursor : Cursor (MvccKey K) Write) (newer : NewerTsCheckState) :
    Res K Bool × Cursor (MvccKey K) Write × NewerTsCheckState :=
  if !cursor.valid then (.error (.panic .cursorInvalid), cursor, newer)
  else moveLoop cfg userKey seekBound cursor newer

namespace Cursors

variable (S : Snapshot K) (cfg : ScannerConfig K) (cs : Cursors K)

/-- The default cursor, created if it does not exist. -/
def ensureDefaultCursor : Cursor (MvccKey K) Value :=
  cs.default.getD (cfg.createDefaultCursor S .forward)

/-- Load the value of a Put from the default CF. -/
def loadDefault (userKey : K) (startTs : ℕ) : Res K Value × Cursors K :=
  let (value, cursor) := nearLoadDataByWrite (cfg.loadDataHint userKey)
    (cs.ensureDefaultCursor S cfg) userKey startTs
  (value, { cs with default := some cursor })

/-! ### Handling the writes of a key -/

/-- The end of `handle_write`: skip the older versions and return the value, if any. -/
def finishWrite (currentUserKey : K) (value : Option Value) :
    Res K (HandleRes (K × Value)) × Cursors K :=
  (.ok (match value with
    | some v => .ret (currentUserKey, v)
    | none => .skip),
    { cs with write := moveWriteCursorToNextUserKey currentUserKey seekBound cs.write })

/-- Go on with the loop of `handle_write` after the write cursor has moved. -/
def continueWrite (loop : Cursors K → Res K (HandleRes (K × Value)) × Cursors K)
    (cs : Cursors K) (currentUserKey : K) : Res K (HandleRes (K × Value)) × Cursors K :=
  match cs.write.current with
  | none => (.ok .skip, cs)
  | some e => if e.1.user ≠ currentUserKey then (.ok .skip, cs) else loop cs

/-- `LatestKvPolicy::handle_write`. -/
def handleWrite (currentUserKey : K) : ℕ → Cursors K → Res K (HandleRes (K × Value)) × Cursors K
  | 0, cs => (.error .outOfFuel, cs)
  | n + 1, cs =>
    match cs.write.current with
    | none => (.error (.panic .cursorInvalid), cs)
    | some (_, write) =>
      if !write.checkGcFenceAsLatestVersion cfg.ts then cs.finishWrite currentUserKey none
      else match write.writeType with
        | .put =>
          if cfg.omitValue then cs.finishWrite currentUserKey (some [])
          else match write.shortValue with
            | some value => cs.finishWrite currentUserKey (some value)
            | none =>
              match cs.loadDefault S cfg currentUserKey write.startTs with
              | (.ok value, cs) => cs.finishWrite currentUserKey (some value)
              | (.error e, cs) => (.error e, cs)
        | .delete => cs.finishWrite currentUserKey none
        | .lock | .rollback =>
          match write.lastChange with
          | .notExist => cs.finishWrite currentUserKey none
          | .exist lastChangeTs estimated =>
            if seekBound ≤ estimated then
              match cs.write.seek ⟨currentUserKey, lastChangeTs⟩ with
              | .ok (_, cursor) =>
                continueWrite (handleWrite currentUserKey n) { cs with write := cursor }
                  currentUserKey
              | .error p => (.error (.panic p), cs)
            else continueWrite (handleWrite currentUserKey n)
              { cs with write := cs.write.next } currentUserKey
          | .unknown => continueWrite (handleWrite currentUserKey n)
              { cs with write := cs.write.next } currentUserKey

/-- `LatestKvPolicy::handle_lock`. -/
def handleLock (currentUserKey : K) : Res K (HandleRes (K × Value)) × Cursors K :=
  if cfg.isolationLevel = .rc then (.ok .skip, cs)
  else match cs.lock with
    | none => (.error (.panic .unwrapNone), cs)
    | some lockCursor =>
      match lockCursor.current with
      | none => (.error (.panic .cursorInvalid), cs)
      | some (_, lock) =>
        let cs := { cs with lock := some lockCursor.next }
        match lock.checkTsConflict currentUserKey cfg.ts cfg.bypassLocks cfg.isolationLevel with
        | .ok () => (.ok .skip, cs)
        | .error e =>
          -- The key is either blocked or handled here, so its writes are skipped.
          let cs := { cs with
            write := moveWriteCursorToNextUserKey currentUserKey seekBound cs.write }
          if lock.ts ∈ cfg.accessLocks then
            let cursor := cs.ensureDefaultCursor S cfg
            let (value, cursor) := loadDataByLock cfg
              (nearLoadDataByWrite (cfg.loadDataHint currentUserKey) cursor) cursor
              currentUserKey lock
            let cs := { cs with default := some cursor }
            match value with
            | .ok (some v) => (.ok (.ret (currentUserKey, v)), cs)
            | .ok none => (.ok .moveToNext, cs)
            | .error e => (.error e, cs)
          else (.error (.error e), cs)

end Cursors

/-! ### Reading the next key -/

/-- The user key to deal with: the smaller of the keys under the two cursors, with whether it
has a write and whether it has a lock. -/
def currentUserKey (wKey lKey : Option K) : Option (K × Bool × Bool) :=
  match wKey, lKey with
  | none, none => none
  | none, some k => some (k, false, true)
  | some k, none => some (k, true, false)
  | some wk, some lk =>
    if wk < lk then some (wk, true, false)
    else if lk < wk then some (lk, false, true)
    else some (lk, true, true)

namespace ForwardScanner

variable (S : Snapshot K) (cfg : ScannerConfig K)

/-- `ForwardScanner::new` as `ScannerBuilder::build` calls it. -/
def build : ForwardScanner K where
  cursors :=
    { lock := if needCheckLocks cfg.isolationLevel then
        some (cfg.createLockCursor S .forward) else none
      write := cfg.createWriteCursor S .forward }
  metNewerTsData := .start cfg.checkHasNewerTsData

variable (s : ForwardScanner K)

/-- The first positioning of the cursors. -/
def start : Except Panic (ForwardScanner K) := do
  if s.isStarted then return s
  match cfg.lowerBound with
  | some lower =>
    let (_, write) ← s.cursors.write.seek (.ofUser lower)
    let lock ← match s.cursors.lock with
      | some lock => do
        let (_, lock) ← lock.seek lower
        pure (some lock)
      | none => pure none
    return { s with cursors := { s.cursors with write := write, lock := lock }, isStarted := true }
  | none =>
    return { s with
      cursors := { s.cursors with
        write := s.cursors.write.seekToFirst
        lock := s.cursors.lock.map seekToFirst }
      isStarted := true }

/-- The write half of an iteration of `read_next`. -/
def readWrite (userKey : K) : Res K (Option (K × Value)) × ForwardScanner K :=
  let (isCurrent, write, newer) :=
    moveWriteCursorToTs cfg userKey s.cursors.write s.metNewerTsData
  let s := { s with cursors := { s.cursors with write := write }, metNewerTsData := newer }
  match isCurrent with
  | .error e => (.error e, s)
  | .ok false => (.ok none, s)
  | .ok true =>
    let (res, cursors) :=
      s.cursors.handleWrite S cfg userKey (s.cursors.write.data.length + 1)
    let s := { s with cursors := cursors }
    match res with
    | .ok (.ret output) => (.ok (some output), s)
    | .ok _ => (.ok none, s)
    | .error e => (.error e, s)

/-- An iteration of `read_next` on the user key `userKey`. -/
def readKey (userKey : K) (hasWrite hasLock : Bool) :
    Res K (Option (K × Value)) × ForwardScanner K :=
  if hasLock then
    let s := { s with metNewerTsData := s.metNewerTsData.meet }
    let (res, cursors) := s.cursors.handleLock S cfg userKey
    let s := { s with cursors := cursors }
    match res with
    | .ok (.ret output) => (.ok (some output), s)
    | .ok .skip => if hasWrite then s.readWrite S cfg userKey else (.ok none, s)
    | .ok .moveToNext => (.ok none, s)
    | .error e => (.error e, s)
  else if hasWrite then s.readWrite S cfg userKey else (.ok none, s)

/-- The loop of `ForwardScanner::read_next`. -/
def readLoop : ℕ → ForwardScanner K → Res K (Option (K × Value)) × ForwardScanner K
  | 0, s => (.error .outOfFuel, s)
  | n + 1, s =>
    let wKey := s.cursors.write.current.map fun e => e.1.user
    let lKey := (s.cursors.lock.bind current).map Prod.fst
    match currentUserKey wKey lKey with
    | none => (.ok none, s)
    | some (userKey, hasWrite, hasLock) =>
      match s.readKey S cfg userKey hasWrite hasLock with
      | (.ok none, s) => readLoop n s
      | (.ok (some output), s) => (.ok (some output), s)
      | (.error e, s) => (.error e, s)

/-- `ForwardScanner::read_next`. -/
def readNext : Res K (Option (K × Value)) × ForwardScanner K :=
  match s.start cfg with
  | .error p => (.error (.panic p), s)
  | .ok s => s.readLoop S cfg (S.write.data.length + S.lock.data.length + 1)

end ForwardScanner

/-! ### Specifications -/

section Spec

variable {S : Snapshot K} {cfg : ScannerConfig K} {userKey : K} {l : List (ℕ × Write)}
  {D C : List (MvccKey K × Write)} {cursor : Cursor (MvccKey K) Write}

/-- Whether a cursor that reads versions of `userKey` and then other keys is on `userKey`. -/
theorem any_user_eq (hcur : cursor.current = (tag userKey l ++ C).head?)
    (hC : ∀ e ∈ C, e.1.user ≠ userKey) :
    (cursor.current.any fun e => e.1.user = userKey) = !l.isEmpty := by
  rw [hcur]
  cases l with
  | nil =>
    cases C with
    | nil => rfl
    | cons e C => simpa using hC e mem_cons_self
  | cons e l => simp

/-- The write cursor has moved from the versions `l` to those at or below the read timestamp,
and to the next user key if there are none. -/
def MovedToTs (cfg : ScannerConfig K) (userKey : K) (D C : List (MvccKey K × Write))
    (l : List (ℕ × Write))
    (res : Res K Bool × Cursor (MvccKey K) Write × NewerTsCheckState) : Prop :=
  ∃ cursor newer, res = (.ok (!(l.dropWhile fun x => cfg.ts < x.1).isEmpty), cursor, newer) ∧
    cursor.Reads D (tag userKey (l.dropWhile fun x => cfg.ts < x.1) ++ C)

section

variable {n : ℕ} (hC : ∀ e ∈ C, userKey < e.1.user)
include hC

theorem moveNext_of_other (hr : cursor.Reads D C) :
    (moveWriteCursorToNextUserKey userKey (n + 1) cursor).Reads D C := by
  rw [moveWriteCursorToNextUserKey, hr.current]
  cases C with
  | nil => exact hr
  | cons e C =>
    simp only [head?_cons]
    rw [if_pos (hC e mem_cons_self).ne']
    exact hr

variable {e : ℕ × Write}

theorem internalSeek_next (hr : cursor.Reads D (tag userKey (e :: l) ++ C))
    (hl : ∀ x ∈ e :: l, 0 < x.1) :
    (cursor.internalSeek ⟨userKey, 0⟩).Reads D C := by
  have hnil : ((e :: l).dropWhile fun x => 0 < x.1) = [] :=
    dropWhile_eq_nil_iff.mpr fun x hx => by simpa using hl x hx
  have h := hr.internalSeek (k := ⟨userKey, 0⟩) (MvccKey.mk_le_mk.mpr (Nat.zero_le _))
  change Cursor.Reads _ D ((tag userKey (e :: l) ++ C).dropWhile _) at h
  rwa [dropWhile_tag_append hC, hnil] at h

/-- The rest of a key's versions is skipped; none of them may be at timestamp zero, where the
seek of the source would stop. -/
theorem moveWriteCursorToNextUserKey_spec (hr : cursor.Reads D (tag userKey l ++ C))
    (hl : ∀ e ∈ l, 0 < e.1) :
    (moveWriteCursorToNextUserKey userKey (n + 1) cursor).Reads D C := by
  induction l generalizing n cursor with
  | nil => exact moveNext_of_other hC hr
  | cons e l ih =>
    rw [moveWriteCursorToNextUserKey, hr.current]
    simp only [tag_cons, cons_append, head?_cons, ne_eq]
    cases n with
    | zero => exact internalSeek_next hC hr hl
    | succ n => exact ih hr.next fun x hx => hl x (mem_cons_of_mem _ hx)

variable (newer : NewerTsCheckState)
include newer

theorem seekWriteCursorToTs_spec (hr : cursor.Reads D (tag userKey (e :: l) ++ C))
    (he : cfg.ts ≤ e.1) :
    MovedToTs cfg userKey D C (e :: l) ((seekWriteCursorToTs cfg userKey cursor).1,
      (seekWriteCursorToTs cfg userKey cursor).2, newer) := by
  obtain ⟨cursor', hs, hr'⟩ := hr.seek_tag he hC
  refine ⟨cursor', newer, ?_, hr'⟩
  rw [seekWriteCursorToTs, hs]
  simp only [any_user_eq hr'.current fun e he => (hC e he).ne']

theorem moveLoop_of_other (hr : cursor.Reads D C) :
    MovedToTs cfg userKey D C [] (moveLoop cfg userKey (n + 1) cursor newer) := by
  refine ⟨cursor, newer, ?_, hr⟩
  rw [moveLoop, hr.current]
  cases C with
  | nil => rfl
  | cons e C =>
    simp only [head?_cons]
    rw [if_pos (hC e mem_cons_self).ne']
    rfl

omit hC in
/-- An iteration on a version of the key. -/
theorem moveLoop_cons (hi : cfg.isolationLevel.Accepts cfg.ts (e :: l))
    (hr : cursor.Reads D (tag userKey (e :: l) ++ C)) :
    moveLoop cfg userKey (n + 1) cursor newer =
      if e.1 ≤ cfg.ts then (.ok true, cursor, newer)
      else if n = 0 then ((seekWriteCursorToTs cfg userKey cursor).1,
        (seekWriteCursorToTs cfg userKey cursor).2, newer.meet)
      else moveLoop cfg userKey n cursor.next newer.meet := by
  rw [moveLoop, hr.current]
  simp only [tag_cons, cons_append, head?_cons, ne_eq, not_true_eq_false, if_false]
  by_cases he : e.1 ≤ cfg.ts
  · rw [if_pos he, if_pos he]
  · rw [if_neg he, if_neg he, if_neg fun h => he (hi h e mem_cons_self)]

omit hC in
theorem movedToTs_of_le (hr : cursor.Reads D (tag userKey (e :: l) ++ C)) (he : e.1 ≤ cfg.ts) :
    MovedToTs cfg userKey D C (e :: l) (.ok true, cursor, newer) := by
  have hd : ((e :: l).dropWhile fun x => cfg.ts < x.1) = e :: l :=
    dropWhile_cons_of_neg (by simpa using he)
  exact ⟨cursor, newer, by rw [hd]; rfl, by rw [hd]; exact hr⟩

/-- The loop moves past the newer versions, or to its bound. -/
theorem moveLoop_spec (hi : cfg.isolationLevel.Accepts cfg.ts l)
    (hr : cursor.Reads D (tag userKey l ++ C)) :
    MovedToTs cfg userKey D C l (moveLoop cfg userKey (n + 1) cursor newer) := by
  -- Induction on the versions of the key; the cursor seeks when no step is left.
  induction l generalizing n cursor newer with
  | nil => exact moveLoop_of_other hC newer hr
  | cons e l ih =>
    rw [moveLoop_cons newer hi hr]
    split
    · exact movedToTs_of_le newer hr ‹_›
    cases n with
    | zero => exact seekWriteCursorToTs_spec hC newer.meet hr (by omega)
    | succ n =>
      have h := ih (n := n) newer.meet hi.tail hr.next
      rwa [MovedToTs, ← dropWhile_cons_of_pos (a := e) (by simp; omega)] at h

end

/-! The default cursor -/

/-- The default cursor, if there is one, can still load the values of the keys in `p`. -/
def DefaultReady (S : Snapshot K) (cfg : ScannerConfig K)
    (default : Option (Cursor (MvccKey K) Value)) (p : K → Prop) : Prop :=
  ∀ cursor ∈ default, cursor.data = (cfg.createDefaultCursor S .forward).data ∧
    cursor.scanMode = .forward ∧ cursor.maxKey = none ∧
    ∀ k t, p k → cursor.NotPast ⟨k, t⟩

variable {d : Option (Cursor (MvccKey K) Value)}

theorem DefaultReady.mono {p q : K → Prop} (h : DefaultReady S cfg d p) (hq : ∀ k, q k → p k) :
    DefaultReady S cfg d q :=
  fun cursor hc => ⟨(h cursor hc).1, (h cursor hc).2.1, (h cursor hc).2.2.1,
    fun k t hk => (h cursor hc).2.2.2 k t (hq k hk)⟩

variable {c : Cursor (MvccKey K) Value}

/-- A value that is there is found, with either hint. -/
theorem nearLoadDataByWrite_spec {t : ℕ} {v : Value} (hint : LoadDataHint)
    (hm : c.scanMode = .forward) (hk : c.maxKey = none) (hp : c.NotPast ⟨userKey, t⟩)
    (hv : (⟨userKey, t⟩, v) ∈ c.data) :
    nearLoadDataByWrite hint c userKey t = (.ok v, c.internalSeek ⟨userKey, t⟩) := by
  have hb : c.scanMode ≠ .backward := by simp [hm]
  have ho : c.Open ⟨userKey, t⟩ := by simp [Cursor.Open, hk]
  obtain ⟨l, hl⟩ := dropWhile_lt_of_mem c.sorted hv
  have hrest : (c.internalSeek ⟨userKey, t⟩).rest = (⟨userKey, t⟩, v) :: l := by
    rw [rest_internalSeek, hl]
  have hval : (c.internalSeek ⟨userKey, t⟩).valid = true :=
    valid_iff_rest_ne_nil.mpr (by simp [hrest])
  have hfin : (c.internalSeek ⟨userKey, t⟩).finishSeek ⟨userKey, t⟩ =
      .ok (true, c.internalSeek ⟨userKey, t⟩) := by rw [finishSeek, if_pos hval]
  have hat : valueAt (c.internalSeek ⟨userKey, t⟩) userKey t = .ok v := by
    rw [valueAt, current_eq_head?, hrest]
    simp
  cases hint with
  | nearSeek => simp only [nearLoadDataByWrite, nearSeek_eq hb ho hp, hfin, hat]
  | seek => simp only [nearLoadDataByWrite, seek_eq hb ho hp, hfin, hat]

/-- Loading the value of a key in range keeps the default cursor ready for larger keys. -/
theorem loadData_spec {p : K → Prop} {t : ℕ} {v : Value} (hint : LoadDataHint)
    (hd : DefaultReady S cfg d p) (hp : p userKey) (hin : cfg.inRange userKey = true)
    (hv : S.default.get ⟨userKey, t⟩ = some v) :
    ∃ cursor, nearLoadDataByWrite hint (d.getD (cfg.createDefaultCursor S .forward)) userKey t =
        (.ok v, cursor) ∧
      DefaultReady S cfg (some cursor) fun k => userKey < k := by
  have hmem : (⟨userKey, t⟩, v) ∈ (cfg.createDefaultCursor S .forward).data :=
    mem_filter.mpr ⟨Cf.get_eq_some_iff.mp hv, hin⟩
  have key : ∀ c : Cursor (MvccKey K) Value,
      c.data = (cfg.createDefaultCursor S .forward).data → c.scanMode = .forward →
      c.maxKey = none → c.NotPast ⟨userKey, t⟩ →
      ∃ cursor, nearLoadDataByWrite hint c userKey t = (.ok v, cursor) ∧
        DefaultReady S cfg (some cursor) fun k => userKey < k := by
    intro c hdata hm hk hnp
    refine ⟨_, nearLoadDataByWrite_spec hint hm hk hnp (hdata ▸ hmem), fun cursor hc => ?_⟩
    cases hc
    refine ⟨hdata, hm, hk, fun k t' hlt _ i hi => ?_⟩
    rw [← eq_of_pos_goto hi]
    exact below_mono (MvccKey.lt_iff.mpr (Or.inl hlt)).le
  cases d with
  | none =>
    exact key _ rfl rfl rfl fun _ i hi => by cases hi
  | some c =>
    obtain ⟨hdata, hm, hk, hnp⟩ := hd c rfl
    exact key c hdata hm hk (hnp userKey t hp)

/-! Handling the writes of a key -/

/-- `handle_write` has returned the visible value of the key, if there is one, and `Q` holds of
the write cursor. -/
def HandledTo (S : Snapshot K) (cfg : ScannerConfig K) (userKey : K)
    (Q : Cursor (MvccKey K) Write → Prop) (lock : Option (Cursor K (Lock K)))
    (res : Res K (HandleRes (K × Value)) × Cursors K) : Prop :=
  ∃ cs, res = (.ok (match S.visible userKey cfg.ts with
      | some v => .ret (userKey, v)
      | none => .skip), cs) ∧
    cs.lock = lock ∧ Q cs.write ∧ DefaultReady S cfg cs.default fun k => userKey < k

/-- `Q` holds of a write cursor that has left the key, or has skipped its last versions. -/
structure HoldsAfter (S : Snapshot K) (userKey : K) (D C : List (MvccKey K × Write))
    (Q : Cursor (MvccKey K) Write → Prop) : Prop where
  left : ∀ cursor, cursor.Reads D C → Q cursor
  skipped : ∀ cursor l, cursor.Reads D (tag userKey l ++ C) →
    (∀ e ∈ l, e ∈ (S.versions userKey).entries) →
    Q (moveWriteCursorToNextUserKey userKey seekBound cursor)

namespace Cursors

variable {cs : Cursors K} {c : ℕ} {w : Write} {p : K → Prop}
  {Q : Cursor (MvccKey K) Write → Prop}

theorem finishWrite_spec (cs : Cursors K) (hQ : HoldsAfter S userKey D C Q)
    (hr : cs.write.Reads D (tag userKey l ++ C))
    (hl : ∀ e ∈ l, e ∈ (S.versions userKey).entries)
    (hd : DefaultReady S cfg cs.default fun k => userKey < k)
    {value : Option Value} (hv : value = S.visible userKey cfg.ts) :
    HandledTo S cfg userKey Q cs.lock (cs.finishWrite userKey value) := by
  subst hv
  exact ⟨_, rfl, rfl, hQ.skipped _ _ hr hl, hd⟩

/-- One iteration settles the newest Put or Delete at or below the read timestamp. -/
theorem handleWrite_latest (cs : Cursors K) (ho : cfg.omitValue = false) (hv : S.HasValues userKey)
    (hin : cfg.inRange userKey = true) {n : ℕ} (hQ : HoldsAfter S userKey D C Q)
    (hr : cs.write.Reads D (tag userKey ((c, w) :: l) ++ C))
    (hl : ∀ e ∈ (c, w) :: l, e ∈ (S.versions userKey).entries)
    (hd : DefaultReady S cfg cs.default fun k => userKey ≤ k)
    (hlat : latestChange (S.versions userKey) cfg.ts = some (c, w)) :
    HandledTo S cfg userKey Q cs.lock (cs.handleWrite S cfg userKey (n + 1)) := by
  have hvis := visibleWrite_of_latest hlat
  have hch := (mem_of_latest hlat).2.2
  have hd' := hd.mono fun k (hk : userKey < k) => hk.le
  have hcur : cs.write.current = some (⟨userKey, c⟩, w) := hr.current
  rw [handleWrite, hcur]
  cases hf : w.checkGcFenceAsLatestVersion cfg.ts with simp only [hf]
  | false =>
    exact finishWrite_spec cs hQ hr hl hd' (by
      rw [Snapshot.visible, hvis, Write.asLatest_of_fence hf])
  | true =>
    rcases Write.isChange_iff.mp hch with ht | ht
    · rw [Write.asLatest_put ht hf] at hvis
      obtain ⟨v, hw⟩ := isSome_iff_exists.mp (hv.isSome_value hvis)
      have hvis' : S.visible userKey cfg.ts = some v := by
        rw [Snapshot.visible, hvis, bind_some, hw]
      rw [Snapshot.value] at hw
      simp only [ht, ho]
      cases hsv : w.shortValue with rw [hsv] at hw
      | some value => exact finishWrite_spec cs hQ hr hl hd' (hw.trans hvis'.symm)
      | none =>
        obtain ⟨cursor, hload, hready⟩ :=
          loadData_spec (cfg.loadDataHint userKey) hd le_rfl hin hw
        simp only [loadDefault, ensureDefaultCursor, hload]
        exact finishWrite_spec { cs with default := some cursor } hQ hr hl hready
          hvis'.symm
    · simp only [ht]
      exact finishWrite_spec cs hQ hr hl hd' (by
        rw [Snapshot.visible, hvis, Write.asLatest_delete ht])

variable {loop : Cursors K → Res K (HandleRes (K × Value)) × Cursors K}

/-- The key has no version left. -/
theorem continueWrite_other (cs : Cursors K) (hQ : HoldsAfter S userKey D C Q)
    (hr : cs.write.Reads D C) (hC : ∀ e ∈ C, userKey < e.1.user)
    (hd : DefaultReady S cfg cs.default fun k => userKey < k)
    (hv : visibleWrite (S.versions userKey) cfg.ts = none) :
    HandledTo S cfg userKey Q cs.lock (continueWrite loop cs userKey) := by
  refine ⟨cs, ?_, rfl, hQ.left _ hr, hd⟩
  rw [continueWrite, hr.current, Snapshot.visible, hv]
  cases C with
  | nil => rfl
  | cons e C =>
    simp only [head?_cons]
    rw [if_pos (hC e mem_cons_self).ne']
    rfl

theorem continueWrite_cons (cs : Cursors K) {e : ℕ × Write}
    (hr : cs.write.Reads D (tag userKey (e :: l) ++ C)) :
    continueWrite loop cs userKey = loop cs := by
  rw [continueWrite, hr.current]
  simp

/-- `handle_write` returns the visible value of the key. -/
theorem handleWrite_spec (cs : Cursors K) (ho : cfg.omitValue = false) (hv : S.HasValues userKey)
    (hin : cfg.inRange userKey = true) (hs : SoundAt (S.versions userKey) cfg.ts) {n : ℕ}
    (hQ : HoldsAfter S userKey D C Q) (hr : cs.write.Reads D (tag userKey ((c, w) :: l) ++ C))
    (hu : Unread (S.versions userKey) cfg.ts ((c, w) :: l))
    (hC : ∀ e ∈ C, userKey < e.1.user)
    (hd : DefaultReady S cfg cs.default fun k => userKey ≤ k) (hn : l.length + 1 ≤ n) :
    HandledTo S cfg userKey Q cs.lock (cs.handleWrite S cfg userKey n) := by
  -- Induction on the fuel; every pass leaves fewer versions to read.
  induction n generalizing c w l cs with
  | zero => omega
  | succ n ih =>
    have hl : ∀ e ∈ (c, w) :: l, e ∈ (S.versions userKey).entries := fun e he => hu.subset he
    have hd' := hd.mono fun k (hk : userKey < k) => hk.le
    have hcur : cs.write.current = some (⟨userKey, c⟩, w) := hr.current
    cases hw : w.isChange with
    | true => exact handleWrite_latest cs ho hv hin hQ hr hl hd (hu.change hw)
    | false =>
      have hnone : visibleWrite (S.versions userKey) cfg.ts = none →
          HandledTo S cfg userKey Q cs.lock (cs.finishWrite userKey none) := fun h =>
        finishWrite_spec cs hQ hr hl hd' (by rw [Snapshot.visible, h, bind_none])
      rw [handleWrite, hcur]
      cases hf : w.checkGcFenceAsLatestVersion cfg.ts with
      | false =>
        simp only [hf]
        exact hnone (hu.fence hs hw hf)
      | true =>
        -- Going on with the next version.
        have hnext : HandledTo S cfg userKey Q cs.lock
            (continueWrite (handleWrite S cfg userKey n)
              { cs with write := cs.write.next } userKey) := by
          cases l with
          | nil =>
            exact continueWrite_other { cs with write := cs.write.next } hQ hr.next hC hd'
              (hu.tail hw).nil
          | cons e l =>
            rw [continueWrite_cons { cs with write := cs.write.next } hr.next]
            exact ih { cs with write := cs.write.next } hr.next (hu.tail hw) hd
              (by simpa using hn)
        -- A Lock and a Rollback record are passed in the same way.
        rcases Write.not_isChange_iff.mp hw with ht | ht
        all_goals
          simp only [hf, ht, Bool.not_true, Bool.false_eq_true, if_false]
          cases hlc : w.lastChange with
          | notExist => exact hnone (hu.notExist hs hw hlc)
          | unknown => exact hnext
          | exist t estimated =>
            simp only
            split
            · obtain ⟨htc, hcase⟩ := hu.exist hs hw hlc
              obtain ⟨cursor, hseek, hr'⟩ := hr.seek_tag htc.le hC
              simp only [hseek]
              rw [dropWhile_cons_of_pos (by simpa using htc)] at hr'
              rcases hcase with ⟨w', hlat, -⟩ | ⟨hvis, -, hgone⟩
              · -- The pointer leads to the record that decides.
                have hmem := hu.mem_of_lt (mem_of_latest hlat).1 htc
                obtain ⟨l', hl'⟩ := (hu.tail hw).dropWhile_of_mem hmem
                rw [hl'] at hr'
                have hsub : ∀ e ∈ (t, w') :: l', e ∈ (S.versions userKey).entries := fun e he => by
                  rw [← hl'] at he
                  exact hl e (mem_cons_of_mem _ ((dropWhile_sublist _).subset he))
                obtain ⟨n, rfl⟩ : ∃ k, n = k + 1 :=
                  ⟨n - 1, by have := length_pos_of_mem hmem; omega⟩
                rw [continueWrite_cons { cs with write := cursor } hr']
                exact handleWrite_latest { cs with write := cursor } ho hv hin hQ hr' hsub hd
                  hlat
              · -- The version the pointer names is gone, and everything older with it.
                have hnil : (l.dropWhile fun x => t < x.1) = [] :=
                  dropWhile_eq_nil_iff.mpr fun e he => by
                    simpa using hgone e ((hu.tail hw).subset he)
                rw [hnil] at hr'
                exact continueWrite_other { cs with write := cursor } hQ hr' hC hd' hvis
            · exact hnext

end Cursors

/-- Reading the writes of a key has returned its visible value and moved the write cursor to
the next user key. -/
structure ForwardScanner.DoneWith (S : Snapshot K) (cfg : ScannerConfig K) (userKey : K)
    (D C : List (MvccKey K × Write)) (s s' : ForwardScanner K) : Prop where
  isStarted : s'.isStarted = s.isStarted
  lock : s'.cursors.lock = s.cursors.lock
  write : s'.cursors.write.Reads D C
  default : DefaultReady S cfg s'.cursors.default fun k => userKey < k

variable {s : ForwardScanner K} (ho : cfg.omitValue = false)
  (hi : cfg.isolationLevel.Accepts cfg.ts (S.versions userKey).entries)
  (hv : S.HasValues userKey) (hin : cfg.inRange userKey = true)
  (hs : SoundAt (S.versions userKey) cfg.ts) (hE : (S.versions userKey).entries ≠ [])
  (hr : s.cursors.write.Reads D (tag userKey (S.versions userKey).entries ++ C))
  (hC : ∀ e ∈ C, userKey < e.1.user)
  (hd : DefaultReady S cfg s.cursors.default fun k => userKey ≤ k)
include ho hi hv hin hs hE hr hC hd

/-- Reading the writes of a key returns its visible value. -/
theorem ForwardScanner.readWrite_eq {Q : Cursor (MvccKey K) Write → Prop}
    (hQ : HoldsAfter S userKey D C Q) :
    ∃ s', s.readWrite S cfg userKey =
        (.ok ((S.visible userKey cfg.ts).map fun v => (userKey, v)), s') ∧
      s'.isStarted = s.isStarted ∧ s'.cursors.lock = s.cursors.lock ∧ Q s'.cursors.write ∧
      DefaultReady S cfg s'.cursors.default fun k => userKey < k := by
  have hd' := hd.mono fun k (hk : userKey < k) => hk.le
  have hu := unread_dropWhile (S.versions userKey) cfg.ts
  have hmoved : MovedToTs cfg userKey D C (S.versions userKey).entries
      (moveWriteCursorToTs cfg userKey s.cursors.write s.metNewerTsData) := by
    rw [moveWriteCursorToTs, hr.valid_iff.mpr (by simp [tag, hE])]
    exact moveLoop_spec hC s.metNewerTsData hi hr
  obtain ⟨cursor, newer, hmove, hr'⟩ := hmoved
  simp only [readWrite, hmove]
  cases hl : (S.versions userKey).entries.dropWhile fun x => cfg.ts < x.1 with rw [hl] at hr' hu
  | nil =>
    rw [Snapshot.visible, hu.nil]
    exact ⟨_, rfl, rfl, rfl, hQ.left _ hr', hd'⟩
  | cons e l =>
    have hlen := hr'.length_le
    obtain ⟨cs, hres, hlock, hwrite, hdef⟩ := Cursors.handleWrite_spec
      { s.cursors with write := cursor } (n := cursor.data.length + 1) ho hv hin hs hQ
      hr' hu hC hd (by rw [hr'.data]; simp at hlen; omega)
    simp only [hres]
    cases S.visible userKey cfg.ts with
    | none | some v => exact ⟨_, rfl, rfl, hlock, hwrite, hdef⟩

theorem ForwardScanner.readWrite_spec (hpos : CommitTsPos (S.versions userKey)) :
    ∃ s', s.readWrite S cfg userKey =
        (.ok ((S.visible userKey cfg.ts).map fun v => (userKey, v)), s') ∧
      DoneWith S cfg userKey D C s s' := by
  obtain ⟨s', hread, hst, hlock, hwrite, hdef⟩ := readWrite_eq ho hi hv hin hs hE hr hC hd
    ⟨fun _ h => h, fun _ _ hr hl =>
      moveWriteCursorToNextUserKey_spec hC hr fun e he => hpos e (hl e he)⟩
  exact ⟨s', hread, hst, hlock, hwrite, hdef⟩

end Spec

end Tikv
