import Tikv.Mvcc.Agreement

/-!
# Reads under `RcCheckTs`

Under `RcCheckTs` a read does not wait for other transactions: it refuses a key that has a
version newer than the read with a `WriteConflict`, and otherwise returns the visible value
(**`Snapshot.RcChecked`**).

The point getter and the forward scanner meet the newest version of a key first. The backward
scanner meets the oldest version first, and refuses only while it steps over the versions with
`prev`: once `REVERSE_SEEK_BOUND` versions at or below the read timestamp have been met, neither the
look at the next version nor the seek that follows checks the isolation level, and the read returns
a value.
-/

namespace Tikv

open List Option PointGetter Cursor BackwardKvScanner

variable {K : Type} [LinearOrder K]

/-- The key has a version newer than the read. -/
def Snapshot.HasNewer (S : Snapshot K) (userKey : K) (ts : ℕ) : Prop :=
  ∃ e ∈ (S.versions userKey).entries, ts < e.1

/-- The read was refused because of a newer version. -/
def IsRcConflict {α : Type} (userKey : K) (ts : ℕ) (res : Res K α) : Prop :=
  ∃ commitTs, res = .error (.error (.writeConflict ts 0 commitTs userKey none .rcCheckTs))

/-- What `RcCheckTs` asks of a read of a key that no lock blocks. -/
def Snapshot.RcChecked (S : Snapshot K) (userKey : K) (ts : ℕ) (res : Res K (Option Value)) :
    Prop :=
  (IsRcConflict userKey ts res ↔ S.HasNewer userKey ts) ∧
    (¬ S.HasNewer userKey ts → res = .ok (S.visible userKey ts))

namespace ForwardScanner

/-- A forward scanner whose two cursors have come to `userKey`. -/
def cameTo (S : Snapshot K) (cfg : ScannerConfig K) (userKey : K) : ForwardScanner K :=
  let s := atKey S cfg userKey
  { s with cursors := { s.cursors with
    lock := s.cursors.lock.map fun c => c.internalSeek userKey } }

/-- What the iteration of `read_next` on `userKey` finds. -/
def iterateOn (S : Snapshot K) (cfg : ScannerConfig K) (userKey : K) : Res K (Option Value) :=
  let s := cameTo S cfg userKey
  let hasWrite := s.cursors.write.current.any fun e => e.1.user = userKey
  let hasLock := (s.cursors.lock.bind current).any fun e => e.1 = userKey
  (Option.map Prod.snd) <$> (s.readKey S cfg userKey hasWrite hasLock).1

end ForwardScanner

namespace BackwardKvScanner

/-- A backward scanner whose two cursors have come to `userKey`. -/
def cameTo (S : Snapshot K) (cfg : ScannerConfig K) (userKey : K) : BackwardKvScanner K :=
  let s := atKey S cfg userKey
  { s with lockCursor := s.lockCursor.map fun c => c.internalSeekForPrev userKey }

/-- What the iteration of `read_next` on `userKey` finds. -/
def iterateOn (S : Snapshot K) (cfg : ScannerConfig K) (userKey : K) : Res K (Option Value) :=
  let s := cameTo S cfg userKey
  let hasWrite := s.writeCursor.current.any fun e => e.1.user = userKey
  let hasLock := (s.lockCursor.bind current).any fun e => e.1 = userKey
  (s.readKey S cfg userKey hasWrite hasLock).1

end BackwardKvScanner

variable {S : Snapshot K} {cfg : ScannerConfig K} {userKey : K} {e : ℕ × Write}
  {l : List (ℕ × Write)}

/-! ### Answers -/

variable {res : Res K (Option Value)}

theorem rcChecked_of_conflict {ts c : ℕ} (hnew : S.HasNewer userKey ts)
    (h : res = .error (.error (.writeConflict ts 0 c userKey none .rcCheckTs))) :
    S.RcChecked userKey ts res :=
  ⟨⟨fun _ => hnew, fun _ => ⟨c, h⟩⟩, fun hno => absurd hnew hno⟩

variable {ts : ℕ}

theorem rcChecked_of_value (hold : ¬ S.HasNewer userKey ts) (h : res = .ok (S.visible userKey ts)) :
    S.RcChecked userKey ts res := by
  refine ⟨⟨?_, fun hnew => absurd hnew hold⟩, fun _ => h⟩
  rintro ⟨c, hc⟩
  rw [h] at hc
  cases hc

theorem hasNewer_iff_of_head (hE : (S.versions userKey).entries = e :: l) :
    S.HasNewer userKey ts ↔ ts < e.1 := by
  have hdesc := (S.versions userKey).desc
  rw [hE, pairwise_cons] at hdesc
  constructor
  · rintro ⟨x, hx, hlt⟩
    rw [hE] at hx
    rcases mem_cons.mp hx with rfl | hx
    · exact hlt
    · exact hlt.trans (hdesc.1 x hx)
  · intro hlt
    exact ⟨e, by simp [hE], hlt⟩

theorem accepts_of_not_hasNewer {level : IsolationLevel} (h : ¬ S.HasNewer userKey ts) :
    level.Accepts ts (S.versions userKey).entries :=
  fun _ x hx => not_lt.mp fun hlt => h ⟨x, hx, hlt⟩

theorem exists_head_of_hasNewer (h : S.HasNewer userKey ts) :
    ∃ e l, (S.versions userKey).entries = e :: l ∧ ts < e.1 := by
  cases hE : (S.versions userKey).entries with
  | nil =>
    obtain ⟨x, hx, -⟩ := h
    rw [hE] at hx
    cases hx
  | cons e l => exact ⟨e, l, rfl, (hasNewer_iff_of_head hE).mp h⟩

/-! ### The point getter -/

variable {g : PointGetter}

/-- The point getter looks at the newest version first and refuses it. -/
theorem PointGetter.seekToTs_conflict (hi : g.isolationLevel = .rcCheckTs)
    (hE : (S.versions userKey).entries = e :: l) (he : g.ts < e.1) :
    seekToTs S g userKey =
      .error (.error (.writeConflict g.ts 0 e.1 userKey none .rcCheckTs)) := by
  obtain ⟨c, hs, hr⟩ := (fresh_writeCursor S userKey).seek (k := ⟨userKey, TimeStamp.max⟩)
  rw [dropWhile_tag, Snapshot.dropWhile_versions le_rfl, hE] at hr
  have hv : c.valid = true := hr.valid_iff.mpr (by simp)
  have hkey : (c.key : Res K (MvccKey K)) = .ok ⟨userKey, e.1⟩ := by
    rw [key, hr.current]
    rfl
  rw [seekToTs, if_pos (Or.inr hi)]
  simp only [hs, liftPanic_ok, ok_bind, hv, Bool.not_true, Bool.false_eq_true, if_false, hkey]
  rw [if_pos ⟨he, hi⟩]

section

variable (hi : g.isolationLevel = .rcCheckTs)
  (hlock : ∀ lock, S.lock.get userKey = some lock →
    lock.checkTsConflict userKey g.ts g.bypassLocks .rcCheckTs = .ok ())
include hi hlock

theorem PointGetter.get_eq_loadData :
    get S g userKey = Prod.fst <$> loadData S g userKey := by
  have hnone : loadAndCheckLock S g userKey = .ok none := by
    rw [loadAndCheckLock]
    cases hget : S.lock.get userKey with
    | none => rfl
    | some lock => simp only [hi, hlock lock hget]
  rw [get, hi]
  simp only [needCheckLocks, if_true, hnone, ok_bind]

theorem PointGetter.rcChecked (ho : g.omitValue = false) (hs : SoundAt (S.versions userKey) g.ts)
    (hv : S.HasValues userKey) :
    S.RcChecked userKey g.ts (get S g userKey) := by
  rw [get_eq_loadData hi hlock]
  by_cases hnew : S.HasNewer userKey g.ts
  · obtain ⟨e, l, hE, he⟩ := exists_head_of_hasNewer hnew
    refine rcChecked_of_conflict hnew (c := e.1) ?_
    rw [loadData, seekToTs_conflict hi hE he]
    rfl
  · obtain ⟨newer, hload⟩ := loadData_eq ho (accepts_of_not_hasNewer hnew) hs hv
    refine rcChecked_of_value hnew ?_
    rw [hload]
    rfl

end

/-! ### The forward scanner -/

/-- A cursor that was sent to a key of the range is on it exactly when the key is there. -/
theorem Cursor.any_current_eq {κ α : Type} [LinearOrder κ] {c : Cursor κ α} {k : κ}
    {F : Cf κ α} {p : κ → Bool} (hc : c.data = (F.restrict p).data) (hk : p k = true)
    (hat : ∀ a, (k, a) ∈ c.data → c.current = some (k, a)) :
    (c.current.any fun x => x.1 = k) = (F.get k).isSome ∧
      ∀ a, F.get k = some a → c.current = some (k, a) := by
  have hget : ∀ a, F.get k = some a → c.current = some (k, a) := fun a ha =>
    hat a (hc ▸ mem_filter.mpr ⟨Cf.get_eq_some_iff.mp ha, hk⟩)
  refine ⟨?_, hget⟩
  cases hF : F.get k with
  | some a => simp [hget a hF]
  | none =>
    cases hcur : c.current with
    | none => rfl
    | some x =>
      have hne : ¬ x.1 = k := by
        rintro rfl
        have hx := mem_of_current hcur
        rw [hc] at hx
        rw [Cf.get_eq_some_iff.mpr (mem_filter.mp hx).1] at hF
        cases hF
      simp [hne]

section Scanners

variable (hi : cfg.isolationLevel = .rcCheckTs) (hin : cfg.inRange userKey = true)
  (hlock : ∀ lock, S.lock.get userKey = some lock →
    lock.checkTsConflict userKey cfg.ts cfg.bypassLocks .rcCheckTs = .ok ())
include hi

namespace ForwardScanner

variable {s : ForwardScanner K} {D C : List (MvccKey K × Write)}

/-- The newest version is met first and refused. -/
theorem readWrite_conflict (he : cfg.ts < e.1)
    (hr : s.cursors.write.Reads D (tag userKey (e :: l) ++ C)) :
    (s.readWrite S cfg userKey).1 =
      .error (.error (.writeConflict cfg.ts 0 e.1 userKey none .rcCheckTs)) := by
  have hv : s.cursors.write.valid = true := hr.valid_iff.mpr (by simp)
  have hmove : moveWriteCursorToTs cfg userKey s.cursors.write s.metNewerTsData =
      (.error (.error (.writeConflict cfg.ts 0 e.1 userKey none .rcCheckTs)), s.cursors.write,
        s.metNewerTsData.meet) := by
    rw [moveWriteCursorToTs, hv]
    simp only [Bool.not_true, Bool.false_eq_true, if_false, seekBound, moveLoop, hr.current,
      tag_cons, cons_append, head?_cons, ne_eq, not_true_eq_false, hi, if_true,
      not_le.mpr he]
  simp only [readWrite, hmove]

include hin hlock in
/-- A lock that does not conflict leaves the iteration to the write CF. -/
theorem iterateOn_eq :
    ∃ s : ForwardScanner K, s.cursors.write = (atKey S cfg userKey).cursors.write ∧
      s.cursors.default = none ∧ iterateOn S cfg userKey =
        if s.cursors.write.current.any fun e => e.1.user = userKey then
          (Option.map Prod.snd) <$> (s.readWrite S cfg userKey).1
        else .ok none := by
  obtain ⟨hany, hcur⟩ := any_current_eq (F := S.lock)
    (c := (cfg.createLockCursor S .forward).internalSeek userKey) (k := userKey) rfl hin
    fun lock hmem => by
      obtain ⟨rest, hrest⟩ := dropWhile_lt_of_mem (sorted _) hmem
      rw [current_eq_head?, rest_internalSeek]
      exact congrArg List.head? hrest
  have hc : (cameTo S cfg userKey).cursors.lock =
      some ((cfg.createLockCursor S .forward).internalSeek userKey) := by
    simp [cameTo, atKey, build, hi, needCheckLocks]
  simp only [iterateOn, hc, bind_some, hany]
  cases hget : S.lock.get userKey with
  | none =>
    refine ⟨cameTo S cfg userKey, rfl, rfl, ?_⟩
    simp only [readKey, isSome_none, Bool.false_eq_true, if_false]
    split <;> rfl
  | some lock =>
    refine ⟨{ cameTo S cfg userKey with
      cursors := { (cameTo S cfg userKey).cursors with
        lock := some ((cfg.createLockCursor S .forward).internalSeek userKey).next }
      metNewerTsData := (cameTo S cfg userKey).metNewerTsData.meet }, rfl, rfl, ?_⟩
    simp only [readKey, isSome_some, if_true, Cursors.handleLock, hi, reduceCtorEq, if_false,
      hc, hcur lock hget, hlock lock hget]
    split <;> rfl

include hin hlock in
/-- The scanner refuses a key with a newer record, and reads any other one. -/
theorem rcChecked (ho : cfg.omitValue = false) (hs : SoundAt (S.versions userKey) cfg.ts)
    (hv : S.HasValues userKey) :
    S.RcChecked userKey cfg.ts (iterateOn S cfg userKey) := by
  obtain ⟨s, hwrite, hdef, hiter⟩ := iterateOn_eq hi hin hlock
  rw [hiter]
  by_cases hnew : S.HasNewer userKey cfg.ts
  · obtain ⟨A, C, hb⟩ := range_split (S := S) hin .forward
    have hr := hwrite ▸ atKey_reads hb
    obtain ⟨e, l, hE, he⟩ := exists_head_of_hasNewer hnew
    refine rcChecked_of_conflict hnew (c := e.1) ?_
    rw [any_user_eq hr.current fun e he => (hb.above e he).ne']
    rw [hE] at hr
    simp only [hE, readWrite_conflict hi he hr]
    rfl
  · exact rcChecked_of_value hnew
      (read_eq ho (accepts_of_not_hasNewer hnew) hv hin hs hwrite hdef)

end ForwardScanner

/-! ### The backward scanner -/

/-- The loop over `prev` refuses a newer version it comes to within its bound. -/
theorem reverseLoop_conflict {D A : List (MvccKey K × Write)} {cursor : Cursor (MvccKey K) Write}
    {n lastTs : ℕ} {lastVersion : Option Write} {newer : List (ℕ × Write)}
    (state : NewerTsCheckState)
    (hr : cursor.ReadsBack D (tag userKey newer ++ A)) (hnew : ∃ x ∈ newer, cfg.ts < x.1)
    (hn : (newer.filter fun x => x.1 ≤ cfg.ts).length ≤ n) :
    ∃ c cursor', reverseLoop cfg userKey (n + 1) cursor lastVersion lastTs state =
      (.fail (.writeConflict cfg.ts 0 c userKey none .rcCheckTs), cursor', state.meet) := by
  -- Induction on the versions ahead, oldest first.
  induction newer generalizing n cursor lastVersion lastTs with
  | nil =>
    obtain ⟨x, hx, -⟩ := hnew
    cases hx
  | cons x newer ih =>
    rw [reverseLoop, hr.current]
    simp only [tag_cons, cons_append, head?_cons, ne_eq, not_true_eq_false, if_false]
    by_cases hx : cfg.ts < x.1
    · rw [if_pos hx, if_pos hi]
      exact ⟨x.1, cursor, rfl⟩
    · rw [if_neg hx]
      have hle : x.1 ≤ cfg.ts := not_lt.mp hx
      rw [filter_cons_of_pos (by simpa using hle), length_cons] at hn
      obtain ⟨m, rfl⟩ : ∃ m, n = m + 1 := ⟨n - 1, by omega⟩
      refine ih hr.prev ?_ (by omega)
      obtain ⟨y, hy, hlt⟩ := hnew
      rcases mem_cons.mp hy with rfl | hy
      · exact absurd hlt hx
      · exact ⟨y, hy, hlt⟩

omit hi in
/-- As long as it is at versions that are not newer, the loop over `prev` does not look at the
isolation level. -/
theorem reverseLoop_of_le {D A : List (MvccKey K × Write)} {cursor : Cursor (MvccKey K) Write}
    {n lastTs : ℕ} {lastVersion : Option Write} {newer : List (ℕ × Write)}
    (level : IsolationLevel) (state : NewerTsCheckState)
    (hr : cursor.ReadsBack D (tag userKey newer ++ A)) (hasc : newer.Pairwise fun x y => x.1 < y.1)
    (hn : n ≤ (newer.filter fun x => x.1 ≤ cfg.ts).length) :
    reverseLoop cfg userKey n cursor lastVersion lastTs state = reverseLoop
      { cfg with isolationLevel := level } userKey n cursor lastVersion lastTs state := by
  induction n generalizing newer cursor lastVersion lastTs with
  | zero => rfl
  | succ n ih =>
    cases newer with
    | nil => exact absurd hn (Nat.not_succ_le_zero n)
    | cons x newer =>
      obtain ⟨hx, hasc⟩ := pairwise_cons.mp hasc
      have hle : x.1 ≤ cfg.ts := by
        by_contra hlt
        rw [filter_eq_nil_iff.mpr] at hn
        · exact Nat.not_succ_le_zero n hn
        · intro y hy
          rcases mem_cons.mp hy with rfl | hy
          · simpa using hlt
          · simpa using (not_le.mp hlt).trans (hx y hy)
      rw [filter_cons_of_pos (by simpa using hle), length_cons] at hn
      rw [reverseLoop, reverseLoop, hr.current]
      simp only [tag_cons, cons_append, head?_cons, ne_eq, not_true_eq_false, if_false,
        not_lt.mpr hle]
      cases n with
      | zero => rfl
      | succ n => exact ih hr.prev hasc (Nat.le_of_succ_le_succ hn)

namespace BackwardKvScanner

variable {s : BackwardKvScanner K} {D A C : List (MvccKey K × Write)}

omit hi in
/-- The loop after the seek does not look at the isolation level. -/
theorem reverseSeekLoop_level (level : IsolationLevel) (lastVersion : Option Write)
    (lastTs n : ℕ) (s : BackwardKvScanner K) :
    reverseSeekLoop S { cfg with isolationLevel := level } userKey lastVersion lastTs n s =
      reverseSeekLoop S cfg userKey lastVersion lastTs n s := by
  induction n generalizing s with
  | zero => rfl
  | succ n ih =>
    rw [reverseSeekLoop, reverseSeekLoop]
    simp only [ih]
    rfl

omit hi in
/-- With `REVERSE_SEEK_BOUND` versions at or below the read timestamp the isolation level is not
looked at, and a newer version is not refused. -/
theorem reverseGet_of_le (level : IsolationLevel)
    (hn : reverseSeekBound ≤ ((S.versions userKey).entries.filter fun x => x.1 ≤ cfg.ts).length)
    (hr : s.writeCursor.ReadsBack D (tag userKey (S.versions userKey).entries.reverse ++ A)) :
    s.reverseGet S cfg userKey = s.reverseGet S { cfg with isolationLevel := level } userKey := by
  rw [reverseGet, reverseGet, reverseLoop_of_le level _ hr]
  · simp only [reverseSeekLoop_level]
    rfl
  · exact pairwise_reverse.mpr (S.versions userKey).desc
  · rwa [filter_reverse, length_reverse]

/-- A newer version is refused if fewer than `REVERSE_SEEK_BOUND` versions lie below it. -/
theorem reverseGet_conflict (hnew : S.HasNewer userKey cfg.ts)
    (hn : ((S.versions userKey).entries.filter fun x => x.1 ≤ cfg.ts).length < reverseSeekBound)
    (hr : s.writeCursor.ReadsBack D (tag userKey (S.versions userKey).entries.reverse ++ A)) :
    ∃ c s', s.reverseGet S cfg userKey =
      ((.error (.error (.writeConflict cfg.ts 0 c userKey none .rcCheckTs)), s'), false) := by
  obtain ⟨x, hx, hlt⟩ := hnew
  have hval : s.writeCursor.valid = true :=
    hr.valid_iff.mpr (by simp [tag, ne_nil_of_mem hx])
  obtain ⟨c, cursor, hloop⟩ : ∃ c cursor, reverseLoop cfg userKey reverseSeekBound s.writeCursor
      none 0 s.metNewerTsData = (.fail (.writeConflict cfg.ts 0 c userKey none .rcCheckTs), cursor,
        s.metNewerTsData.meet) :=
    reverseLoop_conflict (n := 15) hi s.metNewerTsData hr ⟨x, mem_reverse.mpr hx, hlt⟩ (by
      rw [filter_reverse, length_reverse]
      exact Nat.le_of_lt_succ hn)
  refine ⟨c, { s with writeCursor := cursor, metNewerTsData := s.metNewerTsData.meet }, ?_⟩
  rw [reverseGet, hval]
  simp only [Bool.not_true, Bool.false_eq_true, if_false, hloop]

include hin hlock in
/-- Without a lock in the way, the iteration reads the versions of the key. -/
theorem iterateOn_eq :
    ∃ s : BackwardKvScanner K, s.writeCursor = (atKey S cfg userKey).writeCursor ∧
      s.defaultCursor = none ∧ iterateOn S cfg userKey =
        if s.writeCursor.current.any fun e => e.1.user = userKey then
          (s.reverseGet S cfg userKey).1.1
        else .ok none := by
  obtain ⟨hany, hcur⟩ := any_current_eq (F := S.lock)
    (c := (cfg.createLockCursor S .mixed).internalSeekForPrev userKey) (k := userKey) rfl hin
    fun lock hmem => by
      obtain ⟨rest, hrest⟩ := back_internalSeekForPrev_of_mem
        (c := cfg.createLockCursor S .mixed) hmem
      rw [current_eq_head?_back, hrest]
      rfl
  have hc : (cameTo S cfg userKey).lockCursor =
      some ((cfg.createLockCursor S .mixed).internalSeekForPrev userKey) := by
    simp [cameTo, atKey, build, hi, needCheckLocks]
  simp only [iterateOn, hc, bind_some, hany]
  cases hget : S.lock.get userKey with
  | none =>
    refine ⟨cameTo S cfg userKey, rfl, rfl, ?_⟩
    simp only [readKey, isSome_none, Bool.false_eq_true, if_false]
    split
    · split <;> rfl
    · rfl
  | some lock =>
    refine ⟨{ cameTo S cfg userKey with
      lockCursor := some ((cfg.createLockCursor S .mixed).internalSeekForPrev userKey).prev
      metNewerTsData := (cameTo S cfg userKey).metNewerTsData.meet }, rfl, rfl, ?_⟩
    simp only [readKey, isSome_some, if_true, handleLock, hi, needCheckLocks, Bool.not_true,
      Bool.false_eq_true, if_false, hc, bind_some, map_some, hcur lock hget,
      hlock lock hget]
    split
    · split <;> rfl
    · rfl

include hin hlock in
/-- The backward scanner does its part exactly if a key with a newer version has fewer than
`REVERSE_SEEK_BOUND` versions at or below the read timestamp. -/
theorem rcChecked_iff (ho : cfg.omitValue = false) (hs : SoundAt (S.versions userKey) cfg.ts)
    (hv : S.HasValues userKey) :
    S.RcChecked userKey cfg.ts (iterateOn S cfg userKey) ↔ (S.HasNewer userKey cfg.ts →
      ((S.versions userKey).entries.filter fun x => x.1 ≤ cfg.ts).length < reverseSeekBound) := by
  obtain ⟨s, hwrite, hdef, hiter⟩ := iterateOn_eq hi hin hlock
  obtain ⟨A, C, hb⟩ := range_split (S := S) hin .mixed
  have hr := hwrite ▸ atKey_readsBack hb
  rw [hiter]
  constructor
  · intro hchecked hnew
    by_contra hn
    -- The answer is the one of the weakest level, which refuses nothing.
    have hread := @read_eq _ _ S { cfg with isolationLevel := .rc } userKey ho (.of_ne (by simp))
      hv hin hs s hwrite hdef
    rw [reverseGet_of_le .rc (not_lt.mp hn) hr, hread] at hchecked
    obtain ⟨c, hc⟩ := hchecked.1.mpr hnew
    cases hc
  · intro hbound
    by_cases hnew : S.HasNewer userKey cfg.ts
    · have ⟨x, hx, _⟩ := hnew
      obtain ⟨c, s', hgot⟩ := reverseGet_conflict (s := s) hi hnew (hbound hnew) hr
      refine rcChecked_of_conflict hnew (c := c) ?_
      rw [any_user_eq hr.current fun e he => (hb.below e he).ne, isEmpty_reverse,
        if_pos (by simpa using ne_nil_of_mem hx), hgot]
    · exact rcChecked_of_value hnew
        (read_eq ho (accepts_of_not_hasNewer hnew) hv hin hs hwrite hdef)

end BackwardKvScanner

end Scanners

/-! ### Agreement -/

/-- Under `RcCheckTs` the point getter and the forward scanner refuse a key that no lock blocks
exactly when it has a version newer than the read, and otherwise return its visible value. The
backward scanner does so exactly if a key with a newer version has fewer than
`REVERSE_SEEK_BOUND` versions at or below the read timestamp. -/
theorem rcCheckTs_readers_agree (S : Snapshot K) (userKey : K) (cfg : ScannerConfig K)
    (g : PointGetter) (hts : g.ts = cfg.ts) (hbypass : g.bypassLocks = cfg.bypassLocks)
    (ho : cfg.omitValue = false) (hgo : g.omitValue = false)
    (hi : cfg.isolationLevel = .rcCheckTs) (hgi : g.isolationLevel = .rcCheckTs)
    (hin : cfg.inRange userKey = true) (hsound : ReadSound (S.versions userKey))
    (hv : S.HasValues userKey)
    (hlock : ∀ lock, S.lock.get userKey = some lock →
      lock.checkTsConflict userKey cfg.ts cfg.bypassLocks .rcCheckTs = .ok ()) :
    S.RcChecked userKey cfg.ts (get S g userKey) ∧
      S.RcChecked userKey cfg.ts (ForwardScanner.iterateOn S cfg userKey) ∧
      (S.RcChecked userKey cfg.ts (iterateOn S cfg userKey) ↔ (S.HasNewer userKey cfg.ts →
        ((S.versions userKey).entries.filter fun x => x.1 ≤ cfg.ts).length <
          reverseSeekBound)) := by
  have hs := hsound.soundAt cfg.ts
  refine ⟨?_, ForwardScanner.rcChecked hi hin hlock ho hs hv,
    rcChecked_iff hi hin hlock ho hs hv⟩
  rw [← hts] at hs hlock ⊢
  rw [← hbypass] at hlock
  exact rcChecked hgi hlock hgo hs hv

/-- A key with one Put at or below the read timestamp 7 and a newer one. -/
def newerPut : Snapshot ℕ where
  write := ⟨[(⟨0, 9⟩, { writeType := .put, startTs := 8, shortValue := some [2] }),
    (⟨0, 5⟩, { writeType := .put, startTs := 4, shortValue := some [1] })], by simp⟩
  lock := ∅
  default := ∅
  writeTs := by decide

/-- A Put at 9 is above the timestamp 7 of the read. -/
theorem rcCheckTs_readers_agree_newerPut :
    newerPut.HasNewer 0 7 ∧
      newerPut.RcChecked 0 7
        (get newerPut { ts := 7, isolationLevel := .rcCheckTs } 0) ∧
      newerPut.RcChecked 0 7
        (ForwardScanner.iterateOn newerPut { ts := 7, isolationLevel := .rcCheckTs } 0) ∧
      newerPut.RcChecked 0 7
        (iterateOn newerPut { ts := 7, isolationLevel := .rcCheckTs } 0) := by
  have hE : (newerPut.versions 0).entries =
      [(9, { writeType := .put, startTs := 8, shortValue := some [2] }),
        (5, { writeType := .put, startTs := 4, shortValue := some [1] })] := rfl
  have hagree := rcCheckTs_readers_agree newerPut 0 { ts := 7, isolationLevel := .rcCheckTs }
    { ts := 7, isolationLevel := .rcCheckTs } rfl rfl rfl rfl rfl rfl rfl
    ⟨by simp [hE, Write.isChange, WriteType.isChange], by simp [hE]⟩
    (by simp [Snapshot.HasValues, hE, Snapshot.value]) nofun
  exact ⟨⟨_, mem_cons_self, by decide⟩, hagree.1, hagree.2.1, hagree.2.2.mpr fun _ => by decide⟩

/-- A key with sixteen Puts at or below the read timestamp 35 and a newer one at 40. -/
def sixteenBelow : Snapshot ℕ where
  write := ⟨(⟨0, 40⟩, { writeType := .put, startTs := 39, shortValue := some [99] }) ::
    (List.range 16).reverse.map fun i =>
      (⟨0, 2 * i + 2⟩, { writeType := .put, startTs := 2 * i + 1, shortValue := some [i.toUInt8] }),
    by decide⟩
  lock := ∅
  default := ∅
  writeTs := by decide

/-- With sixteen versions at or below the read timestamp the backward scanner does not see the
newer one, and returns a value where the other two readers refuse. -/
theorem backward_misses_newer :
    ReadSound (sixteenBelow.versions 0) ∧ sixteenBelow.HasValues 0 ∧
      sixteenBelow.lock.get 0 = none ∧ sixteenBelow.HasNewer 0 35 ∧
      IsRcConflict 0 35
        (get sixteenBelow { ts := 35, isolationLevel := .rcCheckTs } 0) ∧
      IsRcConflict 0 35
        (ForwardScanner.iterateOn sixteenBelow { ts := 35, isolationLevel := .rcCheckTs } 0) ∧
      iterateOn sixteenBelow { ts := 35, isolationLevel := .rcCheckTs } 0 =
        .ok (some [15]) := by
  have hput : ∀ e ∈ (sixteenBelow.versions 0).entries,
      e.2.writeType = .put ∧ e.2.gcFence = none ∧ e.2.shortValue.isSome := by decide
  refine ⟨⟨fun e he h => ?_, fun e he f hf => ?_⟩, fun e he _ => ?_, rfl,
    ⟨_, mem_cons_self, by decide⟩, ⟨40, rfl⟩, ⟨40, rfl⟩, rfl⟩
  · rw [Write.isChange, (hput e he).1] at h
    cases h
  · rw [(hput e he).2.1] at hf
    cases hf
  · obtain ⟨v, hv⟩ := isSome_iff_exists.mp (hput e he).2.2
    rw [Snapshot.value, hv]
    rfl

end Tikv
