import Tikv.Mvcc.Backward

/-!
# The four readers agree

A key can be read by the point getter, by the two scanners when their write cursor comes to it,
and by the MVCC reader. They search with different cursors, in different directions and with
different bounds before they seek; on sound contents they find the same value, the one
`Snapshot.visible` defines.

The one exception is a Lock or Rollback record at timestamp zero: below it the MVCC reader
takes the predecessor of the commit timestamp, which panics at zero.
-/

namespace Tikv

open BackwardKvScanner PointGetter Snapshot

variable {K : Type} [LinearOrder K]

namespace ForwardScanner

/-- A forward scanner whose write cursor has come to the first entry not before `userKey`. -/
def atKey (S : Snapshot K) (cfg : ScannerConfig K) (userKey : K) : ForwardScanner K :=
  let s := build S cfg
  { s with cursors := { s.cursors with write := s.cursors.write.internalSeek (.ofUser userKey) } }

/-- The value the forward scanner finds for `userKey` once its write cursor has come to the
newest version of the key, if there is one. -/
def getKey (S : Snapshot K) (cfg : ScannerConfig K) (userKey : K) : Res K (Option Value) :=
  let s := atKey S cfg userKey
  if s.cursors.write.current.any fun e => e.1.user = userKey then
    (Option.map Prod.snd) <$> (s.readWrite S cfg userKey).1
  else .ok none

end ForwardScanner

namespace BackwardKvScanner

/-- A backward scanner whose write cursor has come to the last entry not after `userKey`. -/
def atKey (S : Snapshot K) (cfg : ScannerConfig K) (userKey : K) : BackwardKvScanner K :=
  let s := build S cfg
  { s with writeCursor := s.writeCursor.internalSeekForPrev ⟨userKey, 0⟩ }

/-- The value the backward scanner finds for `userKey` once its write cursor has come to the
oldest version of the key, if there is one. -/
def getKey (S : Snapshot K) (cfg : ScannerConfig K) (userKey : K) : Res K (Option Value) :=
  let s := atKey S cfg userKey
  if s.writeCursor.current.any fun e => e.1.user = userKey then
    (s.reverseGet S cfg userKey).1.1
  else .ok none

end BackwardKvScanner

variable {S : Snapshot K} {cfg : ScannerConfig K} {userKey : K}

/-- The cursor of a scan has the block of each key in its range. -/
theorem range_split (hin : cfg.inRange userKey = true) (mode : ScanMode) :
    ∃ A C, Block S userKey (cfg.createWriteCursor S mode).data A C := by
  have hsplit := split_at_user (cfg.createWriteCursor S mode).sorted userKey
  refine ⟨((cfg.createWriteCursor S mode).data.filter fun e => e.1.user < userKey).reverse,
    (cfg.createWriteCursor S mode).data.filter fun e => userKey < e.1.user, ?_, by simp, by simp⟩
  rw [List.reverse_reverse, ← filter_user_eq, ← List.append_assoc]
  refine hsplit.trans (congrArg₂ _ (congrArg₂ _ rfl ?_) rfl)
  -- Within the block of a key in range the bounds filter nothing.
  change ((S.write.data.filter fun e => cfg.inRange e.1.user).filter
    fun e => e.1.user = userKey) = _
  rw [List.filter_filter]
  refine List.filter_congr fun e _ => ?_
  by_cases h : e.1.user = userKey <;> simp [h, hin]

variable {A C : List (MvccKey K × Write)}

/-- A forward scanner that has come to a key has the versions of the key ahead. -/
theorem ForwardScanner.atKey_reads
    (hb : Block S userKey (cfg.createWriteCursor S .forward).data A C) :
    (ForwardScanner.atKey S cfg userKey).cursors.write.Reads
      (cfg.createWriteCursor S .forward).data (tag userKey (S.versions userKey).entries ++ C) := by
  refine ⟨rfl, nofun, ?_, Or.inl rfl⟩
  refine Cursor.rest_internalSeek.trans ((hb.dropWhile _).trans ?_)
  rw [dropWhile_versions (Nat.le_succ _)]

/-- A backward scanner that has come to a key has its versions ahead, oldest first. -/
theorem BackwardKvScanner.atKey_readsBack
    (hb : Block S userKey (cfg.createWriteCursor S .mixed).data A C) :
    (atKey S cfg userKey).writeCursor.ReadsBack
      (cfg.createWriteCursor S .mixed).data
      (tag userKey (S.versions userKey).entries.reverse ++ A) := by
  refine ⟨rfl, rfl, rfl, ?_⟩
  exact Cursor.back_internalSeekForPrev.trans hb.takeWhile_zero

section

variable (ho : cfg.omitValue = false)
  (hi : cfg.isolationLevel.Accepts cfg.ts (S.versions userKey).entries)
  (hv : S.HasValues userKey) (hin : cfg.inRange userKey = true)
  (hs : SoundAt (S.versions userKey) cfg.ts)
include ho hi hv hin hs

/-- A forward scanner that has come to a key finds the visible value. -/
theorem ForwardScanner.read_eq {s : ForwardScanner K}
    (hw : s.cursors.write = (atKey S cfg userKey).cursors.write) (hd : s.cursors.default = none) :
    (if s.cursors.write.current.any fun e => e.1.user = userKey then
      (Option.map Prod.snd) <$> (s.readWrite S cfg userKey).1
    else .ok none) = .ok (S.visible userKey cfg.ts) := by
  obtain ⟨A, C, hb⟩ := range_split (S := S) hin .forward
  have hr := hw ▸ atKey_reads hb
  simp only [any_user_eq hr.current fun e he => (hb.above e he).ne']
  by_cases hE : (S.versions userKey).entries = []
  · simp [hE, visible, visibleWrite_of_empty hE]
  · rw [if_pos (by simp [hE])]
    obtain ⟨s', hread, -⟩ := readWrite_eq (Q := fun _ => True) ho hi hv hin hs hE hr hb.above
      (by rw [hd]; exact fun _ h => by cases h) ⟨fun _ _ => trivial, fun _ _ _ _ => trivial⟩
    rw [hread]
    cases S.visible userKey cfg.ts <;> rfl

/-- A backward scanner that has come to a key finds the visible value. -/
theorem BackwardKvScanner.read_eq {s : BackwardKvScanner K}
    (hw : s.writeCursor = (atKey S cfg userKey).writeCursor) (hd : s.defaultCursor = none) :
    (if s.writeCursor.current.any fun e => e.1.user = userKey then
      (s.reverseGet S cfg userKey).1.1
    else .ok none) = .ok (S.visible userKey cfg.ts) := by
  obtain ⟨A, C, hb⟩ := range_split (S := S) hin .mixed
  have hr := hw ▸ atKey_readsBack hb
  simp only [any_user_eq hr.current fun e he => (hb.below e he).ne]
  by_cases hE : (S.versions userKey).entries = []
  · simp [hE, visible, visibleWrite_of_empty hE]
  · rw [if_pos (by simp [hE])]
    obtain ⟨metPrev, newer, cursor, d, state, hgot, -⟩ :=
      reverseGet_spec ho hv hin hs hb (by rw [hd]; exact fun _ h => by cases h) hi hE hr
    rw [hgot]

end

/-- **Reader agreement.** On sound contents without a version at timestamp zero, the point
getter, the forward scanner, the backward scanner and the MVCC reader all find the same value
of a key, with any setting of the check for newer data and in any scan mode of the reader. -/
theorem readers_agree (S : Snapshot K) (userKey : K) (cfg : ScannerConfig K) (g : PointGetter)
    (r : MvccReader K) (hr : r.New S) (hts : g.ts = cfg.ts)
    (ho : cfg.omitValue = false) (hgo : g.omitValue = false)
    (hi : cfg.isolationLevel ≠ .rcCheckTs) (hgi : g.isolationLevel ≠ .rcCheckTs)
    (hin : cfg.inRange userKey = true) (hsound : ReadSound (S.versions userKey))
    (hv : S.HasValues userKey) (hpos : CommitTsPos (S.versions userKey)) :
    ∃ value : Option Value,
      (loadData S g userKey).map Prod.fst = .ok value ∧
      ForwardScanner.getKey S cfg userKey = .ok value ∧
      getKey S cfg userKey = .ok value ∧
      (r.get userKey cfg.ts (some cfg.ts)).map Prod.fst = .ok value := by
  have hs := hsound.soundAt cfg.ts
  obtain ⟨state, hload⟩ := loadData_eq (g := g) hgo (.of_ne hgi)
    (hts ▸ hs) hv
  obtain ⟨r', hget⟩ := MvccReader.get_eq hr hs hpos hv
  have hi' : cfg.isolationLevel.Accepts cfg.ts (S.versions userKey).entries := .of_ne hi
  refine ⟨S.visible userKey cfg.ts, ?_, ForwardScanner.read_eq ho hi' hv hin hs rfl rfl,
    read_eq ho hi' hv hin hs rfl rfl, ?_⟩
  · rw [hload, hts]
    rfl
  · rw [hget]
    rfl

/-- A key with one Put and, above it, a Lock record that points at the Put. -/
def lockOverPut : Snapshot ℕ where
  write := ⟨[(⟨0, 9⟩, { writeType := .lock, startTs := 8, lastChange := .exist 5 1 }),
    (⟨0, 5⟩, { writeType := .put, startTs := 4, shortValue := some [1] })], by simp⟩
  lock := ∅
  default := ∅
  writeTs := by decide

/-- All readers find the Put below the Lock record. -/
theorem readers_agree_lockOverPut :
    ∃ value : Option Value,
      (loadData lockOverPut { ts := 10 } 0).map Prod.fst = .ok value ∧
      ForwardScanner.getKey lockOverPut { ts := 10 } 0 = .ok value ∧
      getKey lockOverPut { ts := 10 } 0 = .ok value ∧
      (({ snapshot := lockOverPut } : MvccReader ℕ).get 0 10 (some 10)).map Prod.fst =
        .ok value := by
  have hE : (lockOverPut.versions 0).entries =
      [(9, { writeType := .lock, startTs := 8, lastChange := .exist 5 1 }),
        (5, { writeType := .put, startTs := 4, shortValue := some [1] })] := rfl
  refine readers_agree lockOverPut 0 { ts := 10 } { ts := 10 } { snapshot := lockOverPut }
    ⟨rfl, nofun, rfl, rfl⟩ rfl rfl rfl nofun nofun rfl ⟨?_, ?_⟩ ?_ ?_
  · simp [hE, Write.isChange, WriteType.isChange, LastChangeSound, NoChangeBetween]
  · simp [hE]
  · simp [Snapshot.HasValues, hE, value]
  · simp [CommitTsPos, hE]

/-- A key whose only version is a Lock record at timestamp zero. -/
def lockAtZero : Snapshot ℕ where
  write := ⟨[(⟨0, 0⟩, { writeType := .lock, startTs := 0 })], by simp⟩
  lock := ∅
  default := ∅
  writeTs := by decide

/-- At timestamp zero the MVCC reader panics where the other readers find that the key does
not exist. -/
theorem reader_panics_at_zero :
    ReadSound (lockAtZero.versions 0) ∧ lockAtZero.HasValues 0 ∧ lockAtZero.lock.get 0 = none ∧
    (loadData lockAtZero { ts := 1 } 0).map Prod.fst = .ok none ∧
    ForwardScanner.getKey lockAtZero { ts := 1 } 0 = .ok none ∧
    getKey lockAtZero { ts := 1 } 0 = .ok none ∧
    (({ snapshot := lockAtZero } : MvccReader ℕ).get 0 1 (some 1)).map Prod.fst =
      .error (.panic .timeStampPrev) := by
  have hE : (lockAtZero.versions 0).entries = [(0, { writeType := .lock, startTs := 0 })] := rfl
  refine ⟨⟨?_, ?_⟩, ?_, rfl, rfl, rfl, rfl, rfl⟩
  · simp [hE, LastChangeSound]
  · simp [hE]
  · simp [Snapshot.HasValues, hE]

end Tikv
