import Tikv.Mvcc.Scan

/-!
# The forward scan reports every key, in ascending order

`ForwardScanner.Left ks s` says that the user keys `ks` are still to come: the lock cursor and
the write cursor of `s` have their entries, and nothing else, left to read. One iteration of
`read_next` takes the first key of `ks` away from both cursors and reports its outcome
(`readKey_spec`), whether the key has a lock, versions or both, and whether the lock blocks
the scan, is accessed or does not matter.
-/

namespace Tikv

open List Option Snapshot

variable {K : Type} [LinearOrder K] {S : Snapshot K} {cfg : ScannerConfig K}

/-- `current` chooses the key `k` over the keys that come after it. -/
structure Chooses (current : Option K → Option K → Option (K × Bool × Bool)) (k : K)
    (After : K → Prop) : Prop where
  write : current (some k) none = some (k, true, false)
  lock : current none (some k) = some (k, false, true)
  both : current (some k) (some k) = some (k, true, true)
  writeFirst : ∀ x, After x → current (some k) (some x) = some (k, true, false)
  lockFirst : ∀ x, After x → current (some x) (some k) = some (k, false, true)

omit [LinearOrder K] in
/-- The key to deal with is the one that comes first in either cursor. -/
theorem Chooses.eq {current : Option K → Option K → Option (K × Bool × Bool)} {k : K}
    {After : K → Prop} {Bw Rw : List (MvccKey K × Write)} {Bl Rl : List (K × Lock K)}
    (h : Chooses current k After) (hBw : ∀ e ∈ Bw, e.1.user = k) (hRw : ∀ e ∈ Rw, After e.1.user)
    (hBl : ∀ e ∈ Bl, e.1 = k) (hRl : ∀ e ∈ Rl, After e.1) (hne : Bw ≠ [] ∨ Bl ≠ []) :
    current ((Bw ++ Rw).head?.map fun e => e.1.user) ((Bl ++ Rl).head?.map Prod.fst) =
      some (k, !Bw.isEmpty, !Bl.isEmpty) := by
  cases Bw with
  | nil =>
    cases Bl with
    | nil => simp at hne
    | cons l Bl =>
      obtain rfl := hBl l mem_cons_self
      cases Rw with
      | nil => exact h.lock
      | cons w Rw => exact h.lockFirst _ (hRw w mem_cons_self)
  | cons w Bw =>
    obtain rfl := hBw w mem_cons_self
    cases Bl with
    | nil =>
      cases Rl with
      | nil => exact h.write
      | cons l Rl => exact h.writeFirst _ (hRl l mem_cons_self)
    | cons l Bl =>
      rw [cons_append, cons_append, head?_cons, head?_cons, map_some,
        map_some, hBl l mem_cons_self]
      exact h.both

theorem chooses_currentUserKey (k : K) : Chooses currentUserKey k (k < ·) where
  write := rfl
  lock := rfl
  both := by simp [currentUserKey]
  writeFirst x h := by simp [currentUserKey, h]
  lockFirst x h := by simp [currentUserKey, h, h.not_gt]

namespace ForwardScanner

variable {s : ForwardScanner K} {k : K} {ks : List K}
  {DL L : List (K × Lock K)} {DW W : List (MvccKey K × Write)}

/-- An iteration has dealt with the key `k`: it has reported the outcome of `k`, and the
cursors have moved past the entries of `k`. -/
def KeyDone (S : Snapshot K) (cfg : ScannerConfig K) (k : K) (DL L : List (K × Lock K))
    (DW W : List (MvccKey K × Write)) (s : ForwardScanner K)
    (res : Res K (Option (K × Value)) × ForwardScanner K) : Prop :=
  ∃ s', res = (answer (S.outcome cfg k), s') ∧ s'.isStarted = s.isStarted ∧
    (∃ c, s'.cursors.lock = some c ∧ c.Reads DL L) ∧ s'.cursors.write.Reads DW W ∧
    DefaultReady S cfg s'.cursors.default fun x => k < x

section

variable (hS : S.WellFormed) (ho : cfg.omitValue = false) (hi : cfg.isolationLevel = .si)
  (hin : cfg.inRange k = true)
include hS ho hi hin

/-- The write half of an iteration. -/
theorem readWrite_if (hr : s.cursors.write.Reads DW (S.writesOf k ++ W))
    (hW : ∀ e ∈ W, k < e.1.user) (hd : DefaultReady S cfg s.cursors.default fun x => k ≤ x) :
    ∃ s', (if !(S.writesOf k).isEmpty then s.readWrite S cfg k else (.ok none, s)) =
        (.ok ((S.visible k cfg.ts).map fun v => (k, v)), s') ∧ DoneWith S cfg k DW W s s' := by
  by_cases hE : (S.versions k).entries = []
  · have hnil : S.writesOf k = [] := by rw [writesOf, hE, tag_nil]
    rw [hnil] at hr ⊢
    refine ⟨s, ?_, rfl, rfl, hr, hd.mono fun x hx => le_of_lt hx⟩
    rw [visible, visibleWrite_of_empty hE]
    rfl
  · rw [if_pos (by simp [writesOf, tag, hE])]
    exact readWrite_spec ho (.of_ne (by simp [hi])) (hS.values k) hin ((hS.sound k).soundAt _)
      hE hr hW hd (hS.commitTsPos k)

omit hS ho hi hin in
theorem defaultReady_getD {d : Option (Cursor (MvccKey K) Value)} {p : K → Prop}
    (hd : DefaultReady S cfg d p) :
    DefaultReady S cfg (some (d.getD (cfg.createDefaultCursor S .forward))) p := by
  cases d with
  | some c => exact hd
  | none =>
    rintro c ⟨⟩
    exact ⟨rfl, rfl, rfl, fun _ _ _ _ i hi => by cases hi⟩

/-- An iteration on a key whose lock blocks the scan or is accessed. -/
theorem handleLock_conflict {cs : Cursors K} {c : Cursor K (Lock K)} {lock : Lock K}
    {e : ErrorInner K} (hget : S.lock.get k = some lock)
    (he : lock.checkTsConflict k cfg.ts cfg.bypassLocks .si = .error e) (hc : cs.lock = some c)
    (hcl : c.Reads DL ((k, lock) :: L)) (hr : cs.write.Reads DW (S.writesOf k ++ W))
    (hW : ∀ e ∈ W, k < e.1.user) (hd : DefaultReady S cfg cs.default fun x => k ≤ x) :
    ∃ cs', cs.handleLock S cfg k = (match S.outcome cfg k with
        | none => .ok .moveToNext
        | some r => .ret <$> r, cs') ∧
      (∃ c, cs'.lock = some c ∧ c.Reads DL L) ∧ cs'.write.Reads DW W ∧
      DefaultReady S cfg cs'.default fun x => k < x := by
  have hcur : c.current = some (k, lock) := hcl.current
  have hwrite : (moveWriteCursorToNextUserKey k seekBound cs.write).Reads DW W :=
    moveWriteCursorToNextUserKey_spec hW hr (hS.commitTsPos k)
  have hd' := hd.mono fun x (hx : k < x) => hx.le
  simp only [Cursors.handleLock, hi, hc, hcur, he, outcome, hget]
  by_cases hacc : lock.ts ∈ cfg.accessLocks
  · simp only [hacc]
    obtain ⟨d, hload, hready⟩ := loadDataByLock_spec
      (nearLoadDataByWrite (cfg.loadDataHint k)
        (cs.default.getD (cfg.createDefaultCursor S .forward)))
      (P := fun c => DefaultReady S cfg (some c) fun x => k < x) ho hS hget
      (Lock.lockType_of_checkTsConflictSi he) (defaultReady_getD hd') fun v hv =>
        loadData_spec (cfg.loadDataHint k) hd le_rfl hin hv
    simp only [Cursors.ensureDefaultCursor, hload]
    cases S.lockValue k lock with
    | none | some v => exact ⟨_, rfl, ⟨_, rfl, hcl.next⟩, hwrite, hready⟩
  · simp only [hacc]
    rw [eq_keyIsLocked he]
    exact ⟨_, rfl, ⟨_, rfl, hcl.next⟩, hwrite, hd'⟩

/-- An iteration on the key `k` deals with it. -/
theorem readKey_spec {c : Cursor K (Lock K)} (hc : s.cursors.lock = some c)
    (hcl : c.Reads DL (S.locksOf k ++ L)) (hr : s.cursors.write.Reads DW (S.writesOf k ++ W))
    (hW : ∀ e ∈ W, k < e.1.user) (hd : DefaultReady S cfg s.cursors.default fun x => k ≤ x) :
    KeyDone S cfg k DL L DW W s
      (s.readKey S cfg k (!(S.writesOf k).isEmpty) (!(S.locksOf k).isEmpty)) := by
  -- The outcome is the visible value unless a lock blocks the scan.
  have hvisible : ∀ {s₁ : ForwardScanner K} {c₁ : Cursor K (Lock K)},
      s₁.isStarted = s.isStarted → s₁.cursors.lock = some c₁ → c₁.Reads DL L →
      s₁.cursors.write = s.cursors.write → s₁.cursors.default = s.cursors.default →
      S.outcome cfg k = (S.visible k cfg.ts).map (fun v => .ok (k, v)) →
      KeyDone S cfg k DL L DW W s (if !(S.writesOf k).isEmpty then s₁.readWrite S cfg k
        else (.ok none, s₁)) := by
    intro s₁ c₁ hst hc₁ hr₁ hw hdef hout
    obtain ⟨s', hread, hst', hlock', hwrite', hdef'⟩ :=
      readWrite_if (s := s₁) hS ho hi hin (by rw [hw]; exact hr) hW (by rw [hdef]; exact hd)
    refine ⟨s', ?_, hst'.trans hst, ⟨c₁, hlock'.trans hc₁, hr₁⟩, hwrite', hdef'⟩
    rw [hread, hout, answer_map_ok]
  cases hget : S.lock.get k with
  | none =>
    have hnil : S.locksOf k = [] := locksOf_eq_nil_iff.mpr hget
    rw [hnil] at hcl ⊢
    exact hvisible rfl hc hcl rfl rfl (by simp only [outcome, hget])
  | some lock =>
    have hlocks : S.locksOf k = [(k, lock)] := by simp [locksOf, hget]
    rw [hlocks] at hcl ⊢
    have hcur : c.current = some (k, lock) := hcl.current
    simp only [readKey]
    cases hconf : lock.checkTsConflict k cfg.ts cfg.bypassLocks .si with
    | ok u =>
      simp only [Cursors.handleLock, hi, hc, hcur, hconf]
      exact hvisible rfl rfl hcl.next rfl rfl (by simp only [outcome, hget, hconf])
    | error e =>
      obtain ⟨cs', hlock, hl', hw', hd'⟩ :=
        handleLock_conflict hS ho hi hin hget hconf hc hcl hr hW hd
      simp only [hlock, KeyDone]
      cases S.outcome cfg k with
      | none => exact ⟨_, rfl, rfl, hl', hw', hd'⟩
      | some r => cases r <;> exact ⟨_, rfl, rfl, hl', hw', hd'⟩

end

/-! ### Whole scans -/

/-- The user keys `ks` are still to come. -/
structure Left (S : Snapshot K) (cfg : ScannerConfig K) (ks : List K)
    (s : ForwardScanner K) : Prop where
  isStarted : s.isStarted = true
  suffix : ks <:+ scanKeys S cfg
  lock : ∃ c, s.cursors.lock = some c ∧
    c.Reads (cfg.createLockCursor S .forward).data (ks.flatMap S.locksOf)
  write : s.cursors.write.Reads (cfg.createWriteCursor S .forward).data (ks.flatMap S.writesOf)
  default : ∀ k ∈ ks, DefaultReady S cfg s.cursors.default fun x => k ≤ x

/-- The iteration of `read_next` finds the first key that is left. -/
theorem Left.currentUserKey_eq (h : Left S cfg (k :: ks) s) :
    currentUserKey (s.cursors.write.current.map fun e => e.1.user)
      ((s.cursors.lock.bind Cursor.current).map Prod.fst) =
      some (k, !(S.writesOf k).isEmpty, !(S.locksOf k).isEmpty) := by
  obtain ⟨c, hc, hcl⟩ := h.lock
  have hsorted := (scanKeys_sorted S cfg).sublist h.suffix.sublist
  rw [hc, bind_some, hcl.current, h.write.current]
  exact (chooses_currentUserKey k).eq (fun e he => user_of_mem_writesOf he)
    (lt_user_of_pairwise hsorted) (fun e he => key_of_mem_locksOf he)
    (lt_key_of_pairwise hsorted) (found_of_mem_scanKeys (h.suffix.subset mem_cons_self))

/-- The loop of `read_next` deals with the keys that are left, one by one. -/
theorem loopsOver (hS : S.WellFormed) (ho : cfg.omitValue = false)
    (hi : cfg.isolationLevel = .si) :
    LoopsOver (readLoop S cfg) (S.outcome cfg) (Left S cfg) where
  nil n s h := by
    obtain ⟨c, hc, hcl⟩ := h.lock
    have hw : s.cursors.write.current = none := h.write.current
    have hl : c.current = none := hcl.current
    rw [readLoop, hw, hc, bind_some, hl]
    rfl
  cons n k ks s h := by
    obtain ⟨c, hc, hcl⟩ := h.lock
    have hsorted := (scanKeys_sorted S cfg).sublist h.suffix.sublist
    have hin := (mem_scanKeys.mp (h.suffix.subset mem_cons_self)).1
    obtain ⟨s', hread, hst, hlock, hwrite, hdef⟩ := readKey_spec hS ho hi hin hc hcl h.write
      (lt_user_of_pairwise hsorted) (h.default k mem_cons_self)
    refine ⟨s', ⟨hst.trans h.isStarted, (suffix_cons k ks).trans h.suffix, hlock, hwrite,
      fun k' hk' => hdef.mono fun x hx => (rel_of_pairwise_cons hsorted hk').trans_le hx⟩, ?_⟩
    simp only [readLoop, h.currentUserKey_eq, hread]
    cases S.outcome cfg k with
    | none => rfl
    | some r => cases r <;> rfl

theorem dropWhile_lt_eq_self {κ α : Type} [LinearOrder κ] {D : List (κ × α)} {bound : κ}
    (h : ∀ e ∈ D, bound ≤ e.1) : D.dropWhile (fun e => e.1 < bound) = D := by
  cases D with
  | nil => rfl
  | cons e D => exact dropWhile_cons_of_neg (by simpa using h e mem_cons_self)

theorem ofUser_le_of_inRange {lower : K} (hlow : cfg.lowerBound = some lower) :
    ∀ e ∈ (cfg.createWriteCursor S .forward).data, MvccKey.ofUser lower ≤ e.1 := by
  intro e he
  obtain ⟨he, hin⟩ := mem_filter.mp he
  have hle : lower ≤ e.1.user := by
    simp only [ScannerConfig.inRange, hlow, all_some, Bool.and_eq_true,
      decide_eq_true_eq] at hin
    exact hin.1
  rcases hle.lt_or_eq with hlt | rfl
  · exact (MvccKey.lt_iff.mpr (Or.inl hlt)).le
  · exact MvccKey.mk_le_mk.mpr ((S.writeTs e he).trans (Nat.le_succ _))

theorem le_of_inRange {lower : K} (hlow : cfg.lowerBound = some lower) :
    ∀ e ∈ (cfg.createLockCursor S .forward).data, lower ≤ e.1 := by
  intro e he
  have hin := (mem_filter.mp he).2
  simp only [ScannerConfig.inRange, hlow, all_some, Bool.and_eq_true,
    decide_eq_true_eq] at hin
  exact hin.1

/-- The first call puts both cursors on the first key. -/
theorem start_spec (hi : cfg.isolationLevel = .si) :
    ∃ s, (build S cfg).start cfg = .ok s ∧ Left S cfg (scanKeys S cfg) s := by
  have hfw : (cfg.createWriteCursor S .forward).Fresh (cfg.createWriteCursor S .forward).data :=
    ⟨rfl, nofun, rfl, rfl⟩
  have hfl : (cfg.createLockCursor S .forward).Fresh (cfg.createLockCursor S .forward).data :=
    ⟨rfl, nofun, rfl, rfl⟩
  have hleft : ∀ {w : Cursor (MvccKey K) Write} {l : Cursor K (Lock K)},
      w.Reads (cfg.createWriteCursor S .forward).data (cfg.createWriteCursor S .forward).data →
      l.Reads (cfg.createLockCursor S .forward).data (cfg.createLockCursor S .forward).data →
      Left S cfg (scanKeys S cfg)
        { cursors := { lock := some l, write := w }, isStarted := true,
          metNewerTsData := .start cfg.checkHasNewerTsData } := by
    intro w l hw hl
    refine ⟨rfl, suffix_rfl, ⟨l, rfl, ?_⟩, ?_, fun k _ c hc => by cases hc⟩
    · rw [← lock_eq_flatMap]
      exact hl
    · rw [← write_eq_flatMap]
      exact hw
  cases hlow : cfg.lowerBound with
  | none =>
    refine ⟨_, ?_, hleft hfw.seekToFirst hfl.seekToFirst⟩
    simp only [start, build, hi, hlow]
    rfl
  | some lower =>
    obtain ⟨w, hw, hrw⟩ := hfw.seek (k := .ofUser lower)
    obtain ⟨l, hl, hrl⟩ := hfl.seek (k := lower)
    rw [dropWhile_lt_eq_self (ofUser_le_of_inRange hlow)] at hrw
    rw [dropWhile_lt_eq_self (le_of_inRange hlow)] at hrl
    refine ⟨_, ?_, hleft hrw hrl⟩
    simp only [start, build, hi, needCheckLocks, hlow, hw, hl, if_true]
    rfl

/-- Call `read_next` until it answers "no more", going on after errors. -/
def readAll (S : Snapshot K) (cfg : ScannerConfig K) : Option (List (Res K (K × Value))) :=
  drain (readNext S cfg) (S.write.data.length + S.lock.data.length + 1) (build S cfg)

/-- A forward scan reports the outcome of every key of the range, in ascending order. -/
theorem readAll_eq (hS : S.WellFormed) (ho : cfg.omitValue = false)
    (hi : cfg.isolationLevel = .si) :
    readAll S cfg = some ((scanKeys S cfg).filterMap (S.outcome cfg)) := by
  obtain ⟨s, hstart, hleft⟩ := start_spec (S := S) hi
  have hlen := length_scanKeys_le S cfg
  refine (loopsOver hS ho hi).drain_eq (fun s s' h => ?_) (fun ks s h => ?_) hstart hleft
    (by omega)
  · rw [readNext, h]
  · simp only [start, h.isStarted]
    rfl

end ForwardScanner

end Tikv
