import Tikv.Mvcc.ScanForward

/-!
# The backward scan reports every key, in descending order

The mirror image of the forward scan, over a separate implementation: the cursors step towards
smaller keys, the versions of a key are met from the oldest to the newest, and the lock of a
key is checked before its versions are read or skipped. `BackwardKvScanner.Left ks s` says that
the user keys `ks`, in descending order, are still to come.

Together with the forward scan this gives the main result, **`scan_complete`**: the two scans
report one outcome for each key that has one, in opposite orders.
-/

namespace Tikv

open List Option Snapshot BackwardKvScanner

variable {K : Type} [LinearOrder K] {S : Snapshot K} {cfg : ScannerConfig K}

namespace BackwardKvScanner

variable {s : BackwardKvScanner K} {k : K} {ks : List K}
  {DL L : List (K × Lock K)} {DW A C : List (MvccKey K × Write)}

theorem chooses_currentUserKey (k : K) : Chooses currentUserKey k (· < k) where
  write := rfl
  lock := rfl
  both := by simp [currentUserKey]
  writeFirst x h := by simp [currentUserKey, h, h.not_gt]
  lockFirst x h := by simp [currentUserKey, h]

/-- An iteration has dealt with the key `k`: its result is the outcome of `k`, and the cursors
have moved past the entries of `k`. -/
def KeyDone (S : Snapshot K) (cfg : ScannerConfig K) (k : K) (DL L : List (K × Lock K))
    (DW A : List (MvccKey K × Write)) (s : BackwardKvScanner K)
    (res : Res K (Option Value) × BackwardKvScanner K) : Prop :=
  ∃ v s', res = (v, s') ∧ (Option.map fun x => (k, x)) <$> v = answer (S.outcome cfg k) ∧
    s'.isStarted = s.isStarted ∧ (∃ c, s'.lockCursor = some c ∧ c.ReadsBack DL L) ∧
    s'.writeCursor.ReadsBack DW A ∧ DefaultReadyBack S cfg s'.defaultCursor

/-- The versions of a key that is blocked or handled are skipped. -/
theorem skipWrites (hb : Block S k DW A C)
    (hr : s.writeCursor.ReadsBack DW ((S.writesOf k).reverse ++ A)) :
    (moveWriteCursorToPrevUserKey k seekBound s.writeCursor).ReadsBack DW A := by
  rw [writesOf, reverse_tag] at hr
  exact moveWriteCursorToPrevUserKey_spec hb hr

section

variable (hS : S.WellFormed) (ho : cfg.omitValue = false) (hi : cfg.isolationLevel = .si)
  (hin : cfg.inRange k = true) (hb : Block S k DW A C)
include hS ho hi hin hb

/-- The write half of an iteration on a key that is not blocked. -/
theorem readWrites (hr : s.writeCursor.ReadsBack DW ((S.writesOf k).reverse ++ A))
    (hd : DefaultReadyBack S cfg s.defaultCursor) :
    ∃ cursor d state, (if !(S.writesOf k).isEmpty then
        if (s.reverseGet S cfg k).2 then (s.reverseGet S cfg k).1
        else ((s.reverseGet S cfg k).1.1, { (s.reverseGet S cfg k).1.2 with
          writeCursor := moveWriteCursorToPrevUserKey k seekBound
            (s.reverseGet S cfg k).1.2.writeCursor })
      else (.ok none, s)) = (.ok (S.visible k cfg.ts),
        { s with writeCursor := cursor, defaultCursor := d, metNewerTsData := state }) ∧
      cursor.ReadsBack DW A ∧ DefaultReadyBack S cfg d := by
  by_cases hE : (S.versions k).entries = []
  · have hnil : S.writesOf k = [] := by rw [writesOf, hE, tag_nil]
    rw [hnil] at hr ⊢
    refine ⟨s.writeCursor, s.defaultCursor, s.metNewerTsData, ?_, hr, hd⟩
    rw [visible, visibleWrite_of_empty hE]
    rfl
  · rw [if_pos (by simp [writesOf, tag, hE])]
    rw [writesOf, reverse_tag] at hr
    obtain ⟨metPrev, newer, cursor, d, state, hgot, hcur, hmet, hdef⟩ :=
      reverseGet_spec ho (hS.values k) hin ((hS.sound k).soundAt _) hb hd
        (.of_ne (by simp [hi])) hE hr
    simp only [hgot]
    cases metPrev with
    | true =>
      rw [hmet rfl] at hcur
      exact ⟨cursor, d, state, rfl, hcur, hdef⟩
    | false => exact ⟨_, d, state, rfl, moveWriteCursorToPrevUserKey_spec hb hcur, hdef⟩

variable {c : Cursor K (Lock K)}

/-- An iteration on a key that no lock blocks. -/
theorem readKey_visible {t : BackwardKvScanner K} (hst : t.isStarted = s.isStarted)
    (hc : t.lockCursor = some c) (hcl : c.ReadsBack DL L)
    (hr : t.writeCursor.ReadsBack DW ((S.writesOf k).reverse ++ A))
    (hd : DefaultReadyBack S cfg t.defaultCursor)
    (hout : S.outcome cfg k = (S.visible k cfg.ts).map fun v => .ok (k, v)) :
    KeyDone S cfg k DL L DW A s (t.readKey S cfg k (!(S.writesOf k).isEmpty) false) := by
  obtain ⟨cursor, d, state, hread, hcur, hdef⟩ := readWrites hS ho hi hin hb hr hd
  refine ⟨_, _, hread, ?_, hst, ⟨c, hc, hcl⟩, hcur, hdef⟩
  rw [hout, answer_map_ok]
  rfl

omit hS ho hi hin in
/-- An iteration on a key whose lock blocks the scan. -/
theorem readKey_blocked {e : ErrorInner K} {t : BackwardKvScanner K} {hasLock : Bool}
    (hlock : (if hasLock then s.handleLock S cfg k (!(S.writesOf k).isEmpty)
      else (.ok none, !(S.writesOf k).isEmpty, s)) =
        (.error (.error e), !(S.writesOf k).isEmpty, t))
    (hst : t.isStarted = s.isStarted) (hc : t.lockCursor = some c) (hcl : c.ReadsBack DL L)
    (hr : t.writeCursor.ReadsBack DW ((S.writesOf k).reverse ++ A))
    (hd : DefaultReadyBack S cfg t.defaultCursor)
    (hout : S.outcome cfg k = some (.error (.error e))) :
    KeyDone S cfg k DL L DW A s (s.readKey S cfg k (!(S.writesOf k).isEmpty) hasLock) := by
  rw [readKey, hlock]
  by_cases hE : S.writesOf k = []
  · rw [hE] at hr ⊢
    exact ⟨_, _, rfl, by rw [hout]; rfl, hst, ⟨c, hc, hcl⟩, hr, hd⟩
  · have hne : (!(S.writesOf k).isEmpty) = true := by simpa using hE
    simp only [hne]
    exact ⟨_, _, rfl, by rw [hout]; rfl, hst, ⟨c, hc, hcl⟩, skipWrites hb hr, hd⟩

omit hS ho hi hin hb in
theorem defaultReadyBack_getD {d : Option (Cursor (MvccKey K) Value)}
    (hd : DefaultReadyBack S cfg d) :
    DefaultReadyBack S cfg (some (d.getD (cfg.createDefaultCursor S .mixed))) := by
  cases d with
  | some c => exact hd
  | none =>
    rintro c ⟨⟩
    exact ⟨rfl, rfl, rfl⟩

/-- The scanner after it has looked at the lock under its lock cursor `c`. -/
def passLock (s : BackwardKvScanner K) (c : Cursor K (Lock K)) : BackwardKvScanner K :=
  { s with lockCursor := some c.prev, metNewerTsData := s.metNewerTsData.meet }

/-- An iteration on a key whose lock is accessed. -/
theorem readKey_accessed {lock : Lock K} {e : ErrorInner K} (hget : S.lock.get k = some lock)
    (he : lock.checkTsConflict k cfg.ts cfg.bypassLocks .si = .error e)
    (hacc : lock.ts ∈ cfg.accessLocks) (hc : s.lockCursor = some c)
    (hcl : c.ReadsBack DL ((k, lock) :: L))
    (hr : s.writeCursor.ReadsBack DW ((S.writesOf k).reverse ++ A))
    (hd : DefaultReadyBack S cfg s.defaultCursor) :
    KeyDone S cfg k DL L DW A s (s.readKey S cfg k (!(S.writesOf k).isEmpty) true) := by
  have hcur : c.current = some (k, lock) := hcl.current
  obtain ⟨d, hload, hready⟩ := loadDataByLock_spec
    (nearReverseLoadDataByWrite (cfg.loadDataHint k)
      (s.defaultCursor.getD (cfg.createDefaultCursor S .mixed)))
    (P := fun c => DefaultReadyBack S cfg (some c)) ho hS hget
    (Lock.lockType_of_checkTsConflictSi he) (defaultReadyBack_getD hd) fun v hv =>
      reverseLoadData_spec (cfg.loadDataHint k) hd hin hv
  have hout : (Option.map fun x => (k, x)) <$> (.ok (S.lockValue k lock) : Res K (Option Value)) =
      answer (S.outcome cfg k) := by
    simp only [outcome, hget, he, hacc, if_true, answer_map_ok]
    rfl
  simp only [readKey, if_true, handleLock, hi, needCheckLocks, Bool.not_true, Bool.false_eq_true,
    if_false, hc, bind_some, hcur, he, hacc, hload, map_some]
  by_cases hE : S.writesOf k = []
  · rw [hE] at hr ⊢
    exact ⟨_, _, rfl, hout, rfl, ⟨_, rfl, hcl.prev⟩, hr, hready⟩
  · have hne : (!(S.writesOf k).isEmpty) = true := by simpa using hE
    simp only [hne]
    exact ⟨_, _, rfl, hout, rfl, ⟨_, rfl, hcl.prev⟩, skipWrites hb hr, hready⟩

/-- An iteration on the key `k` deals with it. -/
theorem readKey_spec (hc : s.lockCursor = some c) (hcl : c.ReadsBack DL (S.locksOf k ++ L))
    (hr : s.writeCursor.ReadsBack DW ((S.writesOf k).reverse ++ A))
    (hd : DefaultReadyBack S cfg s.defaultCursor) :
    KeyDone S cfg k DL L DW A s
      (s.readKey S cfg k (!(S.writesOf k).isEmpty) (!(S.locksOf k).isEmpty)) := by
  cases hget : S.lock.get k with
  | none =>
    have hnil : S.locksOf k = [] := locksOf_eq_nil_iff.mpr hget
    rw [hnil] at hcl ⊢
    exact readKey_visible hS ho hi hin hb rfl hc hcl hr hd (by simp only [outcome, hget])
  | some lock =>
    have hlocks : S.locksOf k = [(k, lock)] := by simp [locksOf, hget]
    rw [hlocks] at hcl ⊢
    have hcur : c.current = some (k, lock) := hcl.current
    cases hconf : lock.checkTsConflict k cfg.ts cfg.bypassLocks .si with
    | ok u =>
      have hlock : s.handleLock S cfg k (!(S.writesOf k).isEmpty) =
          (.ok none, !(S.writesOf k).isEmpty, s.passLock c) := by
        simp only [handleLock, hi, needCheckLocks, Bool.not_true, Bool.false_eq_true, if_false, hc,
          bind_some, hcur, hconf, map_some, passLock]
      have hrest := readKey_visible (s := s) (t := s.passLock c) hS ho hi hin hb rfl rfl hcl.prev
        hr hd (by simp only [outcome, hget, hconf])
      simp only [readKey, hlock]
      exact hrest
    | error e =>
      by_cases hacc : lock.ts ∈ cfg.accessLocks
      · exact readKey_accessed hS ho hi hin hb hget hconf hacc hc hcl hr hd
      · refine readKey_blocked (e := e) (t := s.passLock c) hb ?_ rfl rfl hcl.prev hr hd ?_
        · simp only [isEmpty_cons, Bool.not_false, if_true, handleLock, hi, needCheckLocks,
            Bool.not_true, Bool.false_eq_true, if_false, hc, bind_some, hcur, hconf,
            map_some, hacc, passLock]
        · simp only [outcome, hget, hconf, hacc, if_false, eq_keyIsLocked hconf]

end

/-! ### Whole scans -/

/-- The user keys `ks`, in descending order, are still to come. -/
structure Left (S : Snapshot K) (cfg : ScannerConfig K) (ks : List K)
    (s : BackwardKvScanner K) : Prop where
  isStarted : s.isStarted = true
  isPrefix : ks.reverse <+: scanKeys S cfg
  lock : ∃ c, s.lockCursor = some c ∧
    c.ReadsBack (cfg.createLockCursor S .mixed).data (ks.flatMap S.locksOf)
  write : s.writeCursor.ReadsBack (cfg.createWriteCursor S .mixed).data
    (ks.flatMap fun k => (S.writesOf k).reverse)
  default : DefaultReadyBack S cfg s.defaultCursor

section

variable (h : Left S cfg (k :: ks) s)
include h

theorem Left.split : ∃ done, scanKeys S cfg = ks.reverse ++ k :: done ∧
    (∀ x ∈ ks, x < k) ∧ ∀ x ∈ done, k < x := by
  obtain ⟨done, hsplit⟩ := h.isPrefix
  rw [reverse_cons, append_assoc, singleton_append] at hsplit
  have hsorted := scanKeys_sorted S cfg
  rw [← hsplit, pairwise_append, pairwise_cons] at hsorted
  exact ⟨done, hsplit.symm, fun x hx => hsorted.2.2 x (by simpa using hx) k mem_cons_self,
    hsorted.2.1.1⟩

/-- The versions of the next key are followed by those of the keys still left. -/
theorem Left.block :
    ∃ C, Block S k (cfg.createWriteCursor S .mixed).data
      (ks.flatMap fun k => (S.writesOf k).reverse) C := by
  obtain ⟨done, hsplit, hlt, hgt⟩ := h.split
  refine ⟨done.flatMap S.writesOf, ?_, ?_, ?_⟩
  · have hrev : (ks.flatMap fun k => (S.writesOf k).reverse).reverse =
        ks.reverse.flatMap S.writesOf := by
      rw [reverse_flatMap]
      exact flatMap_congr fun x _ => reverse_reverse _
    rw [hrev]
    exact write_eq_flatMap.trans (by rw [hsplit, flatMap_append]; rfl)
  · intro e he
    obtain ⟨x, hx, he⟩ := mem_flatMap.mp he
    rw [user_of_mem_writesOf (mem_reverse.mp he)]
    exact hlt x hx
  · intro e he
    obtain ⟨x, hx, he⟩ := mem_flatMap.mp he
    rw [user_of_mem_writesOf he]
    exact hgt x hx

/-- The iteration of `read_next` finds the first key that is left. -/
theorem Left.currentUserKey_eq :
    currentUserKey (s.writeCursor.current.map fun e => e.1.user)
      ((s.lockCursor.bind Cursor.current).map Prod.fst) =
      some (k, !(S.writesOf k).isEmpty, !(S.locksOf k).isEmpty) := by
  obtain ⟨c, hc, hcl⟩ := h.lock
  obtain ⟨done, hsplit, hlt, -⟩ := h.split
  obtain ⟨C, hb⟩ := h.block
  have hmem : k ∈ scanKeys S cfg := by simp [hsplit]
  have hfound := found_of_mem_scanKeys hmem
  rw [hc, bind_some, hcl.current, h.write.current, ← @isEmpty_reverse _ (S.writesOf k)]
  refine (chooses_currentUserKey k).eq
    (fun e he => user_of_mem_writesOf (mem_reverse.mp he)) hb.below
    (fun e he => key_of_mem_locksOf he) (fun e he => ?_)
    (hfound.imp_left fun h => mt reverse_eq_nil_iff.mp h)
  obtain ⟨x, hx, he⟩ := mem_flatMap.mp he
  rw [key_of_mem_locksOf he]
  exact hlt x hx

end

/-- The loop of `read_next` deals with the keys that are left, one by one. -/
theorem loopsOver (hS : S.WellFormed) (ho : cfg.omitValue = false)
    (hi : cfg.isolationLevel = .si) :
    LoopsOver (readLoop S cfg) (S.outcome cfg) (Left S cfg) where
  nil n s h := by
    obtain ⟨c, hc, hcl⟩ := h.lock
    have hw : s.writeCursor.current = none := h.write.current
    have hl : c.current = none := hcl.current
    rw [readLoop, hw, hc, bind_some, hl]
    rfl
  cons n k ks s h := by
    obtain ⟨c, hc, hcl⟩ := h.lock
    obtain ⟨done, hsplit, -⟩ := h.split
    obtain ⟨C, hb⟩ := h.block
    have hin := (mem_scanKeys.mp (show k ∈ scanKeys S cfg by simp [hsplit])).1
    obtain ⟨v, s', hread, hv, hst, hlock, hwrite, hdef⟩ :=
      readKey_spec hS ho hi hin hb hc hcl h.write h.default
    refine ⟨s', ⟨hst.trans h.isStarted, ⟨k :: done, hsplit.symm⟩, hlock, hwrite, hdef⟩, ?_⟩
    simp only [readLoop, h.currentUserKey_eq, hread]
    -- The loop adds the key to the value it returns.
    cases hout : S.outcome cfg k with rw [hout] at hv
    | none =>
      rcases v with f | _ | x
      · cases hv
      · rfl
      · cases hv
    | some r => rcases v with f | _ | x <;> rcases r with g | y <;> cases hv <;> rfl

/-- A list that has nothing at or after the bound is read from its end. -/
theorem takeWhile_lt_eq_self {κ α : Type} [LinearOrder κ] {D : List (κ × α)} {bound : κ}
    (h : ∀ e ∈ D, e.1 < bound) : D.takeWhile (fun e => e.1 < bound) = D :=
  takeWhile_eq_self_iff.mpr fun e he => by simpa using h e he

theorem lt_upperBound {upper : K} (hup : cfg.upperBound = some upper) {x : K}
    (h : cfg.inRange x = true) : x < upper := by
  simp only [ScannerConfig.inRange, hup, all_some, Bool.and_eq_true,
    decide_eq_true_eq] at h
  exact h.2

theorem ofUser_lt_of_inRange {upper : K} (hup : cfg.upperBound = some upper) :
    ∀ e ∈ (cfg.createWriteCursor S .mixed).data, e.1 < MvccKey.ofUser upper :=
  fun _ he => MvccKey.lt_iff.mpr (Or.inl (lt_upperBound hup (mem_filter.mp he).2))

theorem lt_of_inRange {upper : K} (hup : cfg.upperBound = some upper) :
    ∀ e ∈ (cfg.createLockCursor S .mixed).data, e.1 < upper :=
  fun _ he => lt_upperBound hup (mem_filter.mp he).2

/-- The first call puts both cursors on the last key. -/
theorem start_spec (hi : cfg.isolationLevel = .si) :
    ∃ s, (build S cfg).start cfg = .ok s ∧ Left S cfg (scanKeys S cfg).reverse s := by
  have hfw : (cfg.createWriteCursor S .mixed).FreshBack (cfg.createWriteCursor S .mixed).data :=
    ⟨rfl, rfl, rfl, rfl⟩
  have hfl : (cfg.createLockCursor S .mixed).FreshBack (cfg.createLockCursor S .mixed).data :=
    ⟨rfl, rfl, rfl, rfl⟩
  have hleft : ∀ {w : Cursor (MvccKey K) Write} {l : Cursor K (Lock K)},
      w.ReadsBack (cfg.createWriteCursor S .mixed).data
        (cfg.createWriteCursor S .mixed).data.reverse →
      l.ReadsBack (cfg.createLockCursor S .mixed).data
        (cfg.createLockCursor S .mixed).data.reverse →
      Left S cfg (scanKeys S cfg).reverse
        { lockCursor := some l, writeCursor := w, isStarted := true,
          metNewerTsData := .start cfg.checkHasNewerTsData } := by
    intro w l hw hl
    refine ⟨rfl, by rw [reverse_reverse], ⟨l, rfl, ?_⟩, ?_, fun c hc => by cases hc⟩
    · have hrev : (cfg.createLockCursor S .mixed).data.reverse =
          (scanKeys S cfg).reverse.flatMap S.locksOf := by
        refine (congrArg List.reverse lock_eq_flatMap).trans ?_
        rw [reverse_flatMap]
        refine flatMap_congr fun x _ => ?_
        cases h : S.lock.get x <;> simp [locksOf, h]
      rwa [hrev] at hl
    · have hrev : (cfg.createWriteCursor S .mixed).data.reverse =
          (scanKeys S cfg).reverse.flatMap fun k => (S.writesOf k).reverse :=
        (congrArg List.reverse write_eq_flatMap).trans (reverse_flatMap ..)
      rwa [hrev] at hw
  cases hup : cfg.upperBound with
  | none =>
    refine ⟨_, ?_, hleft hfw.seekToLast hfl.seekToLast⟩
    simp only [start, build, hi, hup]
    rfl
  | some upper =>
    obtain ⟨fw, w, hw, hrw⟩ := hfw.reverseSeek (k := .ofUser upper)
    obtain ⟨fl, l, hl, hrl⟩ := hfl.reverseSeek (k := upper)
    rw [takeWhile_lt_eq_self (ofUser_lt_of_inRange hup)] at hrw
    rw [takeWhile_lt_eq_self (lt_of_inRange hup)] at hrl
    refine ⟨_, ?_, hleft hrw hrl⟩
    simp only [start, build, hi, needCheckLocks, hup, hw, hl, if_true]
    rfl

/-- Call `read_next` until it answers "no more", going on after errors. -/
def readAll (S : Snapshot K) (cfg : ScannerConfig K) : Option (List (Res K (K × Value))) :=
  drain (readNext S cfg) (S.write.data.length + S.lock.data.length + 1) (build S cfg)

/-- A backward scan reports the outcome of every key of the range, in descending order. -/
theorem readAll_eq (hS : S.WellFormed) (ho : cfg.omitValue = false)
    (hi : cfg.isolationLevel = .si) :
    readAll S cfg = some ((scanKeys S cfg).filterMap (S.outcome cfg)).reverse := by
  obtain ⟨s, hstart, hleft⟩ := start_spec (S := S) hi
  have hlen : (scanKeys S cfg).reverse.length ≤ _ :=
    length_reverse.trans_le (length_scanKeys_le S cfg)
  rw [← filterMap_reverse]
  refine (loopsOver hS ho hi).drain_eq (fun s s' h => ?_) (fun ks s h => ?_) hstart hleft
    (by omega)
  · rw [readNext, h]
  · simp only [start, h.isStarted]
    rfl

end BackwardKvScanner

theorem mem_scanKeys_of_outcome {k : K} (hin : cfg.inRange k = true)
    (h : (S.outcome cfg k).isSome) : k ∈ scanKeys S cfg := by
  refine mem_scanKeys.mpr ⟨hin, ?_⟩
  by_contra hnone
  obtain ⟨hlock, hE⟩ := not_or.mp hnone
  simp [outcome, not_not.mp hlock, visible,
    visibleWrite_of_empty (not_not.mp hE)] at h

theorem map_eq_map_some_filterMap {α β : Type} {f : α → Option β} {l : List α}
    (h : ∀ a ∈ l, (f a).isSome) : l.map f = (l.filterMap f).map some := by
  induction l with
  | nil => rfl
  | cons a l ih =>
    obtain ⟨b, hb⟩ := isSome_iff_exists.mp (h a mem_cons_self)
    rw [map_cons, filterMap_cons_some hb, map_cons, hb,
      ih fun x hx => h x (mem_cons_of_mem _ hx)]

/-- **Scan completeness and order.** Over well-formed contents and under snapshot isolation,
draining the forward scanner reports the outcome of each key of the range that has one, once,
in ascending order of the keys, and draining the backward scanner reports the same in the
opposite order. -/
theorem scan_complete (S : Snapshot K) (cfg : ScannerConfig K) (hS : S.WellFormed)
    (ho : cfg.omitValue = false) (hi : cfg.isolationLevel = .si) :
    ∃ (keys : List K) (outcomes : List (Res K (K × Value))),
      keys.Pairwise (· < ·) ∧
      (∀ k, k ∈ keys ↔ cfg.inRange k = true ∧ (S.outcome cfg k).isSome) ∧
      keys.map (S.outcome cfg) = outcomes.map some ∧
      ForwardScanner.readAll S cfg = some outcomes ∧
      readAll S cfg = some outcomes.reverse := by
  have hmem : ∀ k, k ∈ (scanKeys S cfg).filter (fun k => (S.outcome cfg k).isSome) ↔
      cfg.inRange k = true ∧ (S.outcome cfg k).isSome := by
    intro k
    rw [mem_filter]
    constructor
    · rintro ⟨hk, hout⟩
      exact ⟨(mem_scanKeys.mp hk).1, hout⟩
    · rintro ⟨hin, hout⟩
      exact ⟨mem_scanKeys_of_outcome hin hout, hout⟩
  have hfilter : ((scanKeys S cfg).filter fun k => (S.outcome cfg k).isSome).filterMap
      (S.outcome cfg) = (scanKeys S cfg).filterMap (S.outcome cfg) := by
    rw [filterMap_filter]
    refine filterMap_congr fun k _ => ?_
    cases S.outcome cfg k <;> rfl
  refine ⟨(scanKeys S cfg).filter fun k => (S.outcome cfg k).isSome,
    (scanKeys S cfg).filterMap (S.outcome cfg), (scanKeys_sorted S cfg).filter _, hmem, ?_,
    ForwardScanner.readAll_eq hS ho hi, readAll_eq hS ho hi⟩
  rw [← hfilter]
  exact map_eq_map_some_filterMap fun k hk => ((hmem k).mp hk).2

/-- A key with a Put lock over a Put, and a key with a Put only. -/
def lockedAndFree : Snapshot ℕ where
  write := ⟨[(⟨0, 5⟩, { writeType := .put, startTs := 4, shortValue := some [1] }),
    (⟨1, 5⟩, { writeType := .put, startTs := 4, shortValue := some [2] })],
    by simp [MvccKey.lt_iff]⟩
  lock := ⟨[(0, { lockType := .put, primary := 0, ts := 8, shortValue := some [3] })], by simp⟩
  default := ∅
  writeTs := by decide

/-- The contents of the witness can be relied on. -/
theorem lockedAndFree_wellFormed : lockedAndFree.WellFormed := by
  have hput : ∀ k, ∀ e ∈ (lockedAndFree.versions k).entries, 0 < e.1 ∧ e.2.writeType = .put ∧
      e.2.gcFence = none ∧ e.2.shortValue.isSome := by
    rintro k ⟨t, w⟩ he
    have hmem : ∀ x ∈ lockedAndFree.write.data, 0 < x.1.ts ∧ x.2.writeType = .put ∧
        x.2.gcFence = none ∧ x.2.shortValue.isSome := by decide
    exact hmem _ (mem_versions.mp he)
  refine ⟨fun k => ⟨?_, ?_⟩, ?_, fun k e he => (hput k e he).1, ?_⟩
  · intro e he hch
    simp [Write.isChange, WriteType.isChange, (hput k e he).2.1] at hch
  · intro e he f hf
    simp [(hput k e he).2.2.1] at hf
  · intro k e he _
    rw [value, isSome_or, (hput k e he).2.2.2, Bool.true_or]
  · intro k lock hget ht
    have hmem : ∀ x ∈ lockedAndFree.lock.data, x.2.shortValue.isSome := by decide
    have hsome := hmem _ (Cf.get_eq_some_iff.mp hget)
    simp only [lockValue, ht, isSome_or, hsome, Bool.true_or]

theorem scan_complete_lockedAndFree :
    ∃ (keys : List ℕ) (outcomes : List (Res ℕ (ℕ × Value))),
      keys.Pairwise (· < ·) ∧
      (∀ k, k ∈ keys ↔ ({ ts := 10 } : ScannerConfig ℕ).inRange k = true ∧
        (lockedAndFree.outcome { ts := 10 } k).isSome) ∧
      keys.map (lockedAndFree.outcome { ts := 10 }) = outcomes.map some ∧
      ForwardScanner.readAll lockedAndFree { ts := 10 } = some outcomes ∧
      readAll lockedAndFree { ts := 10 } = some outcomes.reverse :=
  scan_complete lockedAndFree { ts := 10 } lockedAndFree_wellFormed rfl rfl

end Tikv
