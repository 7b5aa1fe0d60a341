import Tikv.Txn.AcquirePessimisticLock

/-!
# Repeating a request for a pessimistic lock

A client whose answer was lost sends its request again. The first call finds no lock and reads the
key from its newest record; the second one finds the lock of the first and reads the key at the
`for_update_ts` of the lock. With a Lock or Rollback record on top, the first call reads from just
below it, while the second one trusts its `last_change` and its fence. So the two agree on contents
that are sound, as long as nothing the transaction may still read has been collected
(`FencesKept`).

* **`SnapshotReader.getWriteWithCommitTs_newest`** and **`getWriteWithCommitTs_below`**: both calls
  find the same record.
* **`AcquirePessimisticLock.readLocked_eq`**: both find the same value.
* **`AcquirePessimisticLock.processWrite_again`**: the second call has the same result, and leaves
  the state as it is.
-/

namespace Tikv

open List Option Versions Write ConflictInfo

variable {K : Type}

/-- A fence above `ts` names a Put or Delete that is still there. -/
def FencesKept (m : Versions Write) (ts : ℕ) : Prop :=
  ∀ e ∈ m.entries, ∀ f, e.2.gcFence = some f → ts < f → ∃ w, (f, w) ∈ m.entries ∧ w.isChange = true

/-- The contents of a key on which a transaction that started at `ts` may rely. -/
structure SoundFor (m : Versions Write) (ts : ℕ) : Prop where
  sound : ReadSound m
  pos : CommitTsPos m
  fences : FencesKept m ts

namespace SnapshotReader

/-! ### Reading from the newest record -/

/-- What `get_write_with_commit_ts` has to find if it starts with the newest record: the newest
Put or Delete settles it. -/
def newestVersion (m : Versions Write) (limit : ℕ) : Option (Write × ℕ) :=
  (m.entries.find? fun e => e.2.isChange).bind fun e => answerChange (some limit) e.1 e.2

section

variable {m : Versions Write} {limit ts T c : ℕ} {w : Write} {e : ℕ × Write}
  {l : List (ℕ × Write)}

theorem newestVersion_eq (hT : ∀ e ∈ m.entries, e.1 ≤ T) :
    newestVersion m limit = (latestChange m T).bind fun e => answerChange (some limit) e.1 e.2 := by
  have hu : Unread m T m.entries := ⟨[], rfl, by simp, hT⟩
  rw [newestVersion, hu.latestChange_eq]

theorem answerChange_of_fence (h : w.checkGcFenceAsLatestVersion limit = false) :
    answerChange (some limit) c w = none := by
  rw [answerChange, isFenced_some, h]
  rfl

/-- A fence on a record above the newest Put or Delete is on that one, too. -/
theorem answerChange_of_fence_above (hs : ReadSound m) (hT : ∀ e ∈ m.entries, e.1 ≤ T)
    (htop : OnTop m T (c, w)) (hf : w.checkGcFenceAsLatestVersion limit = false)
    (hl : latestChange m T = some e) : answerChange (some limit) e.1 e.2 = none := by
  obtain ⟨f, hwf, hf0, hfle⟩ := checkGcFence_eq_false_iff.mp hf
  obtain ⟨hlt, hgone⟩ := hs.fence _ htop.1 f hwf hf0
  rcases hgone with ⟨w', hw', hch⟩ | hgone
  · rw [htop.2.2.2 _ hw' hlt (hT _ hw')] at hch
    cases hch
  · have hbelow : e.1 < f := (htop.latest_lt hl).1.trans hlt
    exact answerChange_of_fence
      (checkGcFence_mono hfle (hgone e (mem_of_latest hl).1 hbelow))

/-- Nothing is found below a record that says so. -/
theorem answerChange_of_notExist (hs : SoundFor m limit) (htop : OnTop m T (c, w))
    (hne : w.lastChange = .notExist) (hl : latestChange m T = some e) :
    answerChange (some limit) e.1 e.2 = none := by
  obtain ⟨hlt, hbetween⟩ := htop.latest_lt hl
  obtain ⟨hmem, -, hch⟩ := mem_of_latest hl
  have hnone := hs.sound.lastChange _ htop.1 htop.2.2.1
  rw [hne] at hnone
  have hnone : e.2.asLatest c = none := hnone e hmem hlt hch hbetween
  rcases isChange_iff.mp hch with hp | hd
  · -- A Put is fenced off by a record up to `c`; one that is there would be newer than the Put.
    have hf : e.2.checkGcFenceAsLatestVersion c = false := by
      by_contra hf
      rw [asLatest_put hp (by simpa using hf)] at hnone
      cases hnone
    obtain ⟨f, hef, hf0, hfc⟩ := checkGcFence_eq_false_iff.mp hf
    by_cases hfl : f ≤ limit
    · exact answerChange_of_fence (checkGcFence_eq_false_iff.mpr ⟨f, hef, hf0, hfl⟩)
    · obtain ⟨w', hw', hch'⟩ := hs.fences e hmem f hef (not_le.mp hfl)
      have hef' := (hs.sound.fence e hmem f hef hf0).1
      rcases hfc.lt_or_eq with hfc | rfl
      · rw [hbetween _ hw' hef' hfc] at hch'
        cases hch'
      · rw [mem_unique hw' htop.1, htop.2.2.1] at hch'
        cases hch'
  · rw [answerChange]
    simp [hd]

/-- The loop finds the newest Put or Delete, wherever it starts above it. -/
theorem getWriteLoop_newestVersion (hs : SoundFor m limit) (hT : ∀ e ∈ m.entries, e.1 ≤ T)
    (hu : Unread m T l) (hts : ∀ e ∈ l, e.1 ≤ ts) :
    (getWriteLoop m (some limit) ts l : Res K _) = .ok (newestVersion m limit) := by
  rw [newestVersion_eq hT]
  -- Induction on the records left to read; each Lock or Rollback that is passed takes one.
  induction l generalizing ts with
  | nil =>
    rw [hu.latestChange_eq]
    rfl
  | cons e l ih =>
    obtain ⟨c, w⟩ := e
    by_cases hw : w.isChange = true
    · rw [getWriteLoop_change hw, hu.change hw]
      rfl
    have hw : w.isChange = false := by simpa using hw
    have htop := hu.onTop hw
    have hnext : (seekBelow (getWriteLoop m (some limit) · l) ts c : Res K _) =
        .ok ((latestChange m T).bind fun e => answerChange (some limit) e.1 e.2) := by
      have hc : 0 < c := hs.pos _ hu.mem_head.1
      have hcts : c ≤ ts := hts _ mem_cons_self
      rw [seekBelow, if_neg (by omega), TimeStamp.prev, if_pos hc]
      refine ih (hu.tail hw) fun e he => ?_
      have := hu.lt_head he
      omega
    -- Where the loop ends without an answer, the newest Put or Delete would give none.
    have hnone : (∀ e, latestChange m T = some e → answerChange (some limit) e.1 e.2 = none) →
        (.ok none : Res K _) =
          .ok ((latestChange m T).bind fun e => answerChange (some limit) e.1 e.2) := by
      intro h
      cases hl : latestChange m T with
      | none => rfl
      | some e => rw [bind_some, h e hl]
    by_cases hf : w.checkGcFenceAsLatestVersion limit = true
    · rw [getWriteLoop_skip hw (by simp [hf])]
      cases hlc : w.lastChange with
      | unknown => exact hnext
      | notExist => exact hnone fun e hl => answerChange_of_notExist hs htop hlc hl
      | exist t estimated =>
        dsimp only
        split
        · obtain ⟨-, ⟨w', hl⟩ | ⟨hl, hgone⟩⟩ := (hs.sound.soundAt T).exist _ t estimated htop hlc
          · have hget : m.get t = some w' := get_eq_some_iff.mpr (mem_of_latest hl).1
            simp only [hget, (mem_of_latest hl).2.2, if_true, hl, bind_some]
          · have hget : m.get t = none :=
              get_eq_none_iff.mpr fun a ha => absurd (hgone _ ha) (lt_irrefl _)
            simp only [hget, hl, bind_none]
        · exact hnext
    · have hf : w.checkGcFenceAsLatestVersion limit = false := by simpa using hf
      rw [getWriteLoop, isFenced_some, hf]
      exact hnone fun e hl => answerChange_of_fence_above hs.sound hT htop hf hl

variable {r : SnapshotReader K}

theorem getWriteUpTo_of_newest (hnew : r.write.newest = some (c, w)) (hle : c ≤ ts)
    (lim : Option ℕ) : ∃ rest, r.write.entries = (c, w) :: rest ∧
      r.getWriteUpTo ts lim = getWriteLoop r.write lim ts ((c, w) :: rest) := by
  obtain ⟨rest, hE⟩ : ∃ rest, r.write.entries = (c, w) :: rest :=
    ⟨r.write.entries.tail, (cons_head?_tail hnew).symm⟩
  refine ⟨rest, hE, ?_⟩
  rw [getWriteUpTo, hE, dropWhile_cons_of_neg (by simpa using hle)]

/-- A read at or above the newest record. -/
theorem getWriteWithCommitTs_newest (hs : SoundFor r.write r.startTs)
    (hnew : r.write.newest = some (c, w)) (hle : c ≤ ts) :
    r.getWriteWithCommitTs ts = .ok (newestVersion r.write r.startTs) := by
  have hmax : ∀ e ∈ r.write.entries, e.1 ≤ c := (newest_eq_some_iff.mp hnew).2
  obtain ⟨rest, hE, hread⟩ := getWriteUpTo_of_newest hnew hle (some r.startTs)
  rw [getWriteWithCommitTs, hread, ← hE]
  exact getWriteLoop_newestVersion hs hmax ⟨[], rfl, by simp, hmax⟩ fun e he =>
    (hmax e he).trans hle

/-- A read just below the newest record, which is a Lock or Rollback. -/
theorem getWriteWithCommitTs_below (hs : SoundFor r.write r.startTs)
    (hnew : r.write.newest = some (c, w)) (hw : w.isChange = false) :
    r.getWriteWithCommitTs (c - 1) = .ok (newestVersion r.write r.startTs) := by
  obtain ⟨hmem, hmax⟩ := newest_eq_some_iff.mp hnew
  obtain ⟨rest, hE⟩ : ∃ rest, r.write.entries = (c, w) :: rest :=
    ⟨r.write.entries.tail, (cons_head?_tail hnew).symm⟩
  have hu : Unread r.write c ((c, w) :: rest) := ⟨[], hE, by simp, hE ▸ hmax⟩
  have hc : 0 < c := hs.pos _ hmem
  have hrest : ∀ e ∈ rest, e.1 ≤ c - 1 := fun e he => by
    have := hu.lt_head he
    omega
  have hdrop : (r.write.entries.dropWhile fun e => c - 1 < e.1) = rest := by
    rw [hE, dropWhile_cons_of_pos (by simpa using Nat.sub_one_lt_of_lt hc)]
    cases rest with
    | nil => rfl
    | cons e rest =>
      exact dropWhile_cons_of_neg (by simpa using hrest e mem_cons_self)
  rw [getWriteWithCommitTs, getWriteUpTo, hdrop]
  exact getWriteLoop_newestVersion hs hmax (hu.tail hw) hrest

/-- The newest record is what `get_old_value` would search. -/
theorem getOldValue_newest (hnew : r.write.newest = some (c, w)) (hle : c ≤ ts) :
    r.getOldValue ts true (some w) = r.getOldValue ts false none := by
  obtain ⟨rest, -, hread⟩ := getWriteUpTo_of_newest hnew hle (some ts)
  rw [getOldValue, getOldValue, hread]
  by_cases hf : w.checkGcFenceAsLatestVersion ts = true
  · cases ht : w.writeType with
    | put | delete =>
      have hw : w.isChange = true := by simp [isChange, WriteType.isChange, ht]
      rw [getWriteLoop_change hw, answerChange, isFenced_some, hf]
      simp [ht]
    | lock | rollback => simp [hf]
  · have hf : w.checkGcFenceAsLatestVersion ts = false := by simpa using hf
    rw [getWriteLoop, isFenced_some, hf]
    rfl

theorem getOldValue_empty (hnew : r.write.newest = none) :
    r.getOldValue ts true none = r.getOldValue ts false none := by
  have hE := newest_eq_none_iff.mp hnew
  rw [getOldValue, getOldValue, getWriteUpTo, hE]
  rfl

theorem fenced_of_newest (hs : ReadSound r.write) (hnew : r.write.newest = some (c, w))
    (hf : (w.gcFence.any fun f => f != 0) = true) (he : e ∈ r.write.entries) :
    (e.2.gcFence.any fun f => f != 0) = true := by
  obtain ⟨hmem, hmax⟩ := newest_eq_some_iff.mp hnew
  cases hwf : w.gcFence with
  | none => simp [hwf] at hf
  | some f =>
    have hf0 : f ≠ 0 := by simpa [hwf] using hf
    obtain ⟨hlt, ⟨w', hw', -⟩ | hgone⟩ := hs.fence _ hmem f hwf hf0
    · exact absurd (hmax _ hw') (not_le.mpr hlt)
    · obtain ⟨f', hef, hf0', -⟩ := checkGcFence_eq_false_iff.mp
        (hgone e he ((hmax e he).trans_lt hlt))
      simpa [hef] using hf0'

theorem newestVersion_of_change (hnew : m.newest = some (c, w)) (hw : w.isChange = true) :
    newestVersion m limit = answerChange (some limit) c w := by
  have hfind : (m.entries.find? fun e => e.2.isChange) = some (c, w) := by
    rw [← cons_head?_tail hnew]
    exact find?_cons_of_pos hw
  rw [newestVersion, hfind, bind_some]

theorem mem_of_newestVersion {limit : ℕ} (h : newestVersion m limit = some (w, c)) :
    (c, w) ∈ m.entries := by
  obtain ⟨x, hx, hans⟩ := bind_eq_some_iff.mp h
  rw [answerChange] at hans
  split at hans
  · cases hans
  · split at hans
    · cases hans
      exact mem_of_find?_eq_some hx
    · cases hans

end

end SnapshotReader

namespace AcquirePessimisticLock

open SnapshotReader

variable {a : AcquirePessimisticLock K} {reader : SnapshotReader K}

/-! ### The two calls -/

/-- The value a request reads on a key the transaction has locked. -/
def readLocked (a : AcquirePessimisticLock K) (reader : SnapshotReader K) (forUpdateTs : ℕ)
    (needLoadValue : Bool) : Res K (Option Value) :=
  if needLoadValue || a.needCheckExistence || a.shouldNotExist then do
    match ← reader.getWriteWithCommitTs forUpdateTs with
    | some (write, commitTs) =>
      let conflictInfo := if a.forUpdateTs < commitTs
        then some ⟨write.startTs, commitTs⟩ else none
      a.retryOnConflict reader.key conflictInfo
        (checkDataConstraint reader a.shouldNotExist write commitTs)
      if needLoadValue then some <$> reader.loadData write
      else pure (if a.needCheckExistence then some [] else none)
    | none => pure none
  else pure none

/-- The request on a lock, with what it reads as one step. -/
theorem acquireLocked_eq (lock : Lock K) : a.acquireLocked reader lock =
    let conflict := a.allowLockWithConflict && a.forUpdateTs < lock.forUpdateTs
    let forUpdateTs := if conflict then lock.forUpdateTs else a.forUpdateTs
    let needLoadValue := conflict || a.needLoadValue
    do
    let val ← a.readLocked reader forUpdateTs needLoadValue
    let oldValue ← a.loadOldValue reader needLoadValue val forUpdateTs false none
    let modifies : List (Modify K) := if lock.forUpdateTs < forUpdateTs then
      [.putLock (a.newLock forUpdateTs lock.lastChange lock.isPessimisticLockWithConflict)] else []
    return (modifies, .newSuccess a.needValue a.needCheckExistence
      (if conflict then some lock.forUpdateTs else none) val, oldValue) := rfl

variable {info : Option ConflictInfo}

theorem retryOnConflict_eq_ok {key : K} {res : Res K Unit} :
    a.retryOnConflict key info res = .ok () ↔ res = .ok () := by
  constructor
  · intro h
    unfold retryOnConflict at h
    split at h
    · cases h
    · exact h
  · rintro rfl
    rfl

section

variable (hs : SoundFor reader.write reader.startTs)
include hs

/-- A constraint that holds on a Lock or Rollback record on top holds on the record a read from
there finds. -/
theorem checkDataConstraint_newestVersion {c c' : ℕ} {w w' : Write} {b : Bool}
    (hnew : reader.write.newest = some (c, w)) (hw : w.isChange = false)
    (h : checkDataConstraint reader b w c = .ok ())
    (hfound : newestVersion reader.write reader.startTs = some (w', c')) :
    checkDataConstraint reader b w' c' = .ok () := by
  cases b with
  | false => rfl
  | true =>
    have hpos : 0 < c := hs.pos _ (newest_eq_some_iff.mp hnew).1
    by_cases hf : (w.gcFence.any fun f => f != 0) = true
    · have hf' := fenced_of_newest hs.sound hnew hf (mem_of_newestVersion hfound)
      simp only [checkDataConstraint, show (w'.gcFence.any fun f => f != 0) = true from hf',
        Bool.or_true, if_true]
      rfl
    · -- The constraint was checked with the same read.
      have hread := getWriteWithCommitTs_below hs hnew hw
      rw [hfound] at hread
      rcases not_isChange_iff.mp hw with ht | ht <;>
        simp [checkDataConstraint, hf, ht, TimeStamp.prev, hpos, getWrite, hread] at h

/-- What a request makes of the record it has found. -/
def valueOf (a : AcquirePessimisticLock K) (reader : SnapshotReader K) (needLoadValue : Bool) :
    Option Write → Res K (Option Value)
  | none => .ok none
  | some write =>
    if needLoadValue then some <$> reader.loadData write
    else .ok (if a.needCheckExistence then some [] else none)

/-- The first call. -/
theorem loadValue_eq {c : ℕ} {w : Write} (hnew : reader.write.newest = some (c, w))
    (info : Option ConflictInfo) :
    a.loadValue reader c w info = a.valueOf reader (info.isSome || a.needLoadValue)
      ((newestVersion reader.write reader.startTs).map Prod.fst) := by
  by_cases hread : (a.needValue || a.needCheckExistence || info.isSome) = true
  · -- Without the value itself, the request is about its existence.
    have hexists : (info.isSome || a.needLoadValue) = false → a.needCheckExistence = true := by
      intro hno
      simp only [needLoadValue, Bool.or_eq_false_iff] at hno
      simpa [hno] using hread
    rw [loadValue]
    simp only [hread]
    cases ht : w.writeType with
    | put =>
      have hw : w.isChange = true := by simp [isChange, WriteType.isChange, ht]
      rw [newestVersion_of_change hnew hw, answerChange, isFenced_some, ht]
      by_cases hf : w.checkGcFenceAsLatestVersion reader.startTs = true
      · simp only [hf]
        cases hnl : info.isSome || a.needLoadValue with
        | true => rfl
        | false => simp [valueOf, hexists hnl, pure, Except.pure]
      · simp [hf]
        rfl
    | delete =>
      have hw : w.isChange = true := by simp [isChange, WriteType.isChange, ht]
      rw [newestVersion_of_change hnew hw, answerChange, ht]
      simp [valueOf]
      rfl
    | lock | rollback =>
      have hw : w.isChange = false := by simp [isChange, WriteType.isChange, ht]
      have hpos : 0 < c := hs.pos _ (newest_eq_some_iff.mp hnew).1
      have hprev : (liftPanic (TimeStamp.prev c) : Res K ℕ) = .ok (c - 1) := by
        rw [TimeStamp.prev, if_pos hpos]
        rfl
      have hread : reader.getWrite (c - 1) =
          .ok ((newestVersion reader.write reader.startTs).map Prod.fst) := by
        rw [getWrite, getWriteWithCommitTs_below hs hnew hw]
        rfl
      simp only [hprev, ok_bind]
      rw [SnapshotReader.get, hread]
      cases hnl : info.isSome || a.needLoadValue with
      | true => cases (newestVersion reader.write reader.startTs).map Prod.fst <;> rfl
      | false =>
        cases (newestVersion reader.write reader.startTs).map Prod.fst with
        | none => rfl
        | some w' => simp [valueOf, hexists hnl]
  · -- Nothing is to be read.
    have hno : a.needValue = false ∧ a.needCheckExistence = false ∧ info.isSome = false := by
      simpa [and_assoc] using hread
    rw [loadValue]
    cases (newestVersion reader.write reader.startTs).map Prod.fst <;>
      simp [hno, valueOf, needLoadValue] <;> rfl

/-- The second call. -/
theorem readLocked_eq {c F : ℕ} {w : Write} {needLoadValue : Bool}
    (hnew : reader.write.newest = some (c, w)) (hF : c ≤ F)
    (hc : checkDataConstraint reader a.shouldNotExist w c = .ok ()) :
    a.readLocked reader F needLoadValue = a.valueOf reader needLoadValue
      ((newestVersion reader.write reader.startTs).map Prod.fst) := by
  have hcheck : ∀ w' c', newestVersion reader.write reader.startTs = some (w', c') →
      checkDataConstraint reader a.shouldNotExist w' c' = .ok () := by
    intro w' c' hfound
    by_cases hw : w.isChange = true
    · rw [newestVersion_of_change hnew hw, answerChange] at hfound
      split at hfound
      · cases hfound
      · split at hfound <;> cases hfound
        exact hc
    · exact checkDataConstraint_newestVersion hs hnew (by simpa using hw) hc hfound
  rw [readLocked, getWriteWithCommitTs_newest hs hnew hF]
  rcases hfound : newestVersion reader.write reader.startTs with _ | ⟨w', c'⟩
  · rw [ok_bind]
    split <;> rfl
  · rw [ok_bind]
    simp only [retryOnConflict_eq_ok.mpr (hcheck w' c' hfound)]
    cases needLoadValue with
    | true => rfl
    | false =>
      cases hn : a.needCheckExistence with
      | true => simp [valueOf, hn]
      | false => simp [valueOf, hn, pure, Except.pure]

omit hs in
/-- A conflict is ignored only if the request allows it, and the constraint was checked. -/
theorem checkNewest_granted {c : ℕ} {w : Write} {lc : LastChange}
    (h : a.checkNewest reader c w = .ok (info, lc)) :
    (a.forUpdateTs < c → a.allowLockWithConflict = true) ∧
      checkDataConstraint reader a.shouldNotExist w c = .ok () := by
  obtain ⟨info', hinfo, h⟩ := bind_eq_ok.mp h
  refine ⟨fun hlt => ?_, ?_⟩
  · rw [if_pos hlt] at hinfo
    split_ifs at hinfo
    assumption
  · split at h
    · split at h <;> cases h
    split_ifs at h
    obtain ⟨_, hcheck, -⟩ := bind_eq_ok.mp h
    exact retryOnConflict_eq_ok.mp hcheck

omit hs in
/-- The second call under a lock granted with the conflict `info`, if there was one. -/
theorem acquireLocked_of_granted {l : Lock K} (info : Option ConflictInfo) {val : Option Value}
    {old : OldValue}
    (hl : l.forUpdateTs = (info.map conflictCommitTs).getD a.forUpdateTs)
    (hinfo : (a.allowLockWithConflict && decide (a.forUpdateTs < l.forUpdateTs)) = info.isSome)
    (hread : a.readLocked reader l.forUpdateTs (info.isSome || a.needLoadValue) = .ok val)
    (hold : a.loadOldValue reader (info.isSome || a.needLoadValue) val l.forUpdateTs false none =
      .ok old) :
    a.acquireLocked reader l = .ok ([], .newSuccess a.needValue a.needCheckExistence
      (info.map conflictCommitTs) val, old) := by
  have hF : (if info.isSome then l.forUpdateTs else a.forUpdateTs) = l.forUpdateTs := by
    cases info with
    | none => exact hl.symm
    | some i => rfl
  have hts : (if info.isSome then some l.forUpdateTs else none) =
      info.map conflictCommitTs := by
    cases info with
    | none => rfl
    | some i => simpa using hl
  rw [acquireLocked_eq]
  simp only [hinfo, hF, hread, hold, ok_bind, lt_irrefl, hts]
  rfl

omit hs in
/-- The old value does not depend on whether the newest record was at hand. -/
theorem loadOldValue_eq {F : ℕ} (hF : ∀ e, reader.write.newest = some e → e.1 ≤ F)
    (needLoadValue : Bool) (val : Option Value) :
    a.loadOldValue reader needLoadValue val F true
        (if a.needOldValue then reader.write.newest.map Prod.snd else none) =
      a.loadOldValue reader needLoadValue val F false none := by
  unfold loadOldValue
  cases ho : a.needOldValue with
  | false => rfl
  | true =>
    cases needLoadValue with
    | true => rfl
    | false =>
      rcases hn : reader.write.newest with _ | ⟨c, w⟩
      · exact getOldValue_empty hn
      · exact getOldValue_newest hn (hF _ hn)

/-- The request has changed nothing, or it has put a lock under which it is granted with the same
result and changes nothing. -/
def GrantedAgain (a : AcquirePessimisticLock K) (reader : SnapshotReader K)
    (ms : List (Modify K)) (res : PessimisticLockKeyResult × OldValue) : Prop :=
  ms = [] ∨ ∃ l, ms = [.putLock l] ∧ l.ts = a.startTs ∧ l.isPessimisticLock = true ∧
    a.acquireLocked reader l = .ok ([], res)

variable {res : PessimisticLockKeyResult × OldValue} {ms : List (Modify K)}

/-- A lock that was put on a free key is found by the second request. -/
theorem acquireUnlocked_again (h : a.acquireUnlocked reader = .ok (ms, res)) :
    a.GrantedAgain reader ms res := by
  obtain ⟨⟨info, lc, val⟩, hnew, h⟩ := bind_eq_ok.mp h
  obtain ⟨old, hold, h⟩ := bind_eq_ok.mp h
  dsimp only at h
  split at h
  · cases h
    refine Or.inr ⟨_, rfl, rfl, rfl, ?_⟩
    split at hnew
    · rename_i c w hn
      obtain ⟨⟨info', lc'⟩, hcheck, hnew⟩ := bind_eq_ok.mp hnew
      obtain ⟨val', hval, hnew⟩ := bind_eq_ok.mp hnew
      cases hnew
      obtain ⟨hallow, hcon⟩ := checkNewest_granted hcheck
      obtain ⟨hinfo, -, -⟩ := checkNewest_spec hn hcheck
      have hF : c ≤ (info.map conflictCommitTs).getD a.forUpdateTs := by
        rw [hinfo]
        split
        · exact le_rfl
        · exact not_lt.mp ‹_›
      refine acquireLocked_of_granted info rfl ?_ ?_ ?_
      · rw [hinfo]
        by_cases hlt : a.forUpdateTs < c
        · simp [newLock, hlt, hallow hlt]
        · simp [newLock, hlt]
      · exact (readLocked_eq hs hn hF hcon).trans ((loadValue_eq hs hn info).symm.trans hval)
      · refine (loadOldValue_eq (fun e he => ?_) _ val).symm.trans hold
        cases hn.symm.trans he
        exact hF
    · rename_i hn
      cases hnew
      refine acquireLocked_of_granted none rfl (by simp [newLock]) ?_ ?_
      · have hE := newest_eq_none_iff.mp hn
        rw [readLocked, getWriteWithCommitTs, getWriteUpTo, hE, dropWhile_nil, getWriteLoop,
          ok_bind]
        split <;> rfl
      · exact (loadOldValue_eq (fun e he => by cases hn.symm.trans he) _ none).symm.trans hold
  · split at h
    · cases h
    · cases h
      exact Or.inl rfl

omit hs in
/-- A lock that was replaced is found by the second request. -/
theorem acquireLocked_again {l : Lock K} (h : a.acquireLocked reader l = .ok (ms, res)) :
    a.GrantedAgain reader ms res := by
  rcases acquireLocked_spec h with rfl | ⟨hlt, rfl⟩
  · exact Or.inl rfl
  · refine Or.inr ⟨_, rfl, rfl, rfl, ?_⟩
    -- A larger `for_update_ts` is no conflict, then or now.
    have hno : (a.allowLockWithConflict && decide (a.forUpdateTs < l.forUpdateTs)) = false := by
      simp [hlt.le]
    rw [acquireLocked_eq] at h
    simp only [hno, Bool.false_eq_true, if_false, hlt] at h
    obtain ⟨val, hread, h⟩ := bind_eq_ok.mp h
    obtain ⟨old, hold, h⟩ := bind_eq_ok.mp h
    cases h
    exact acquireLocked_of_granted none rfl (by simp [newLock]) hread hold

/-- The second call finds the lock of the first. -/
theorem acquire_again (h : a.acquire reader = .ok (ms, res)) :
    ms = [] ∨ ∃ l, ms = [.putLock l] ∧
      a.acquire { reader with lock := some l } = .ok ([], res) := by
  have hagain : a.GrantedAgain reader ms res := by
    rw [acquire] at h
    split at h
    · split at h
      · cases h
      · split_ifs at h
        exact acquireLocked_again h
    · exact acquireUnlocked_again hs h
  rcases hagain with rfl | ⟨l, rfl, hts, hpess, hl⟩
  · exact Or.inl rfl
  · refine Or.inr ⟨l, rfl, ?_⟩
    simp only [acquire, hts, ne_eq, not_true_eq_false, if_false, hpess, Bool.not_true,
      Bool.false_eq_true]
    exact hl

end

/-- The read of the key at `for_update_ts` raises `max_ts`. -/
def touched (a : AcquirePessimisticLock K) (st : KeyState K) : KeyState K :=
  if a.shouldNotExist || a.needValue || a.needCheckExistence
  then st.updateMaxTs a.forUpdateTs else st

theorem touched_touched (st : KeyState K) (lock : Option (Lock K)) :
    a.touched { a.touched st with lock := lock } = { a.touched st with lock := lock } := by
  have hidem : ∀ m t, updateMaxTs (updateMaxTs m t) t = updateMaxTs m t := by
    intro m t
    simp only [updateMaxTs]
    split
    · rfl
    · rw [max_assoc, max_self]
  unfold touched
  split
  · simp only [KeyState.updateMaxTs, hidem]
  · rfl

/-- **Acquiring a pessimistic lock is idempotent.** On sound contents of which nothing above the
start of the transaction has been collected, a request that succeeds succeeds again with the same
result and the same old value, and the second call changes nothing. -/
theorem processWrite_again (a : AcquirePessimisticLock K) (key : K) (st : KeyState K)
    (hs : SoundFor st.write a.startTs) (res : PessimisticLockKeyResult × OldValue)
    (h : (a.processWrite key st).1 = .ok res) :
    a.processWrite key (a.processWrite key st).2 = (.ok res, (a.processWrite key st).2) := by
  by_cases hlo : a.lockOnlyIfExists ∧ !a.needValue
  · rw [processWrite, if_pos hlo] at h
    cases h
  have hproc : ∀ {st : KeyState K} {ms res},
      a.acquire ((a.touched st).reader key a.startTs) = .ok (ms, res) →
      a.processWrite key st = (.ok res, (a.touched st).applyAll ms) := by
    intro st ms res hacq
    rw [touched] at hacq ⊢
    rw [processWrite, if_neg hlo]
    dsimp only
    rw [hacq]
  have hwrite : (a.touched st).write = st.write := by
    rw [touched]
    split <;> rfl
  rcases hacq : a.acquire ((a.touched st).reader key a.startTs) with e | ⟨ms, res'⟩
  · rw [touched] at hacq
    rw [processWrite, if_neg hlo] at h
    dsimp only at h
    rw [hacq] at h
    cases h
  rw [hproc hacq] at h ⊢
  cases h
  have hsound : SoundFor ((a.touched st).reader key a.startTs).write a.startTs := by
    rw [← hwrite] at hs
    exact hs
  rcases acquire_again hsound hacq with rfl | ⟨l, rfl, hagain⟩
  · have htouch : a.touched (a.touched st) = a.touched st := touched_touched st (a.touched st).lock
    rw [KeyState.applyAll_nil, hproc (htouch.symm ▸ hacq), htouch, KeyState.applyAll_nil]
  · have htouch : a.touched ((a.touched st).applyAll [.putLock l]) =
      (a.touched st).applyAll [.putLock l] := touched_touched st (some l)
    have hread : ((a.touched st).applyAll [.putLock l]).reader key a.startTs =
      { (a.touched st).reader key a.startTs with lock := some l } := rfl
    rw [hproc (by rw [htouch, hread, hagain]), htouch]
    rfl

/-- A Put below a Lock record that knows of it. -/
def lockAbovePut : KeyState ℕ where
  write := ⟨[(9, { writeType := .lock, startTs := 8, lastChange := .exist 5 1 }),
    (5, { writeType := .put, startTs := 4, shortValue := some [1] })], by decide⟩

/-- A request that is granted with a conflict, twice. -/
theorem processWrite_again_lockAbovePut :
    ∃ a : AcquirePessimisticLock ℕ, a.processWrite 0 (a.processWrite 0 lockAbovePut).2 =
      (.ok (.lockedWithConflict (some [1]) 9, .value [1]), (a.processWrite 0 lockAbovePut).2) := by
  have hfence : ∀ e ∈ lockAbovePut.write.entries, e.2.gcFence = none := by decide
  let a : AcquirePessimisticLock ℕ :=
    { startTs := 7, primary := 0, forUpdateTs := 8, needOldValue := true,
      allowLockWithConflict := true }
  refine ⟨a, processWrite_again a 0 lockAbovePut
    ⟨⟨?_, ?_⟩, by unfold CommitTsPos; decide, ?_⟩ _ rfl⟩
  · intro e he hch
    rcases mem_cons.mp he with rfl | he
    · exact ⟨by decide, by unfold NoChangeBetween; decide,
        Or.inl ⟨_, mem_cons_of_mem _ mem_cons_self, rfl⟩⟩
    · cases mem_singleton.mp he
      cases hch
  · intro e he f hf
    cases (hfence e he).symm.trans hf
  · intro e he f hf
    cases (hfence e he).symm.trans hf

/-- A Lock record that denies the Put below it. -/
def lockDenyingPut : KeyState ℕ where
  write := ⟨[(9, { writeType := .lock, startTs := 8, lastChange := .notExist }),
    (5, { writeType := .put, startTs := 4, shortValue := some [1] })], by decide⟩

/-- A Put that was deleted at 20, with the Delete collected, below a Lock record. -/
def lockAboveCollected : KeyState ℕ where
  write := ⟨[(30, { writeType := .lock, startTs := 29, lastChange := .notExist }),
    (5, { writeType := .put, startTs := 4, gcFence := some 20, shortValue := some [1] })],
    by decide⟩

/-- Where the record on top does not tell the truth, or the transaction has started before what
was collected, the second call does not find the value the first one has found. -/
theorem processWrite_differs :
    (∃ a : AcquirePessimisticLock ℕ,
      (a.processWrite 0 lockDenyingPut).1 = .ok (.value (some [1]), .unspecified) ∧
      (a.processWrite 0 (a.processWrite 0 lockDenyingPut).2).1 =
        .ok (.value none, .unspecified)) ∧
    ReadSound lockAboveCollected.write ∧ CommitTsPos lockAboveCollected.write ∧
    ∃ a : AcquirePessimisticLock ℕ,
      (a.processWrite 0 lockAboveCollected).1 = .ok (.value (some [1]), .unspecified) ∧
      (a.processWrite 0 (a.processWrite 0 lockAboveCollected).2).1 =
        .ok (.value none, .unspecified) := by
  have hbelow : ∀ e ∈ lockAboveCollected.write.entries, e.1 < 30 →
      e.2.checkGcFenceAsLatestVersion 20 = false := by decide
  refine ⟨⟨{ startTs := 10, primary := 0, forUpdateTs := 10, needValue := true }, rfl, rfl⟩,
    ⟨?_, ?_⟩, by unfold CommitTsPos; decide,
    { startTs := 10, primary := 0, forUpdateTs := 40, needValue := true }, rfl, rfl⟩
  · intro e he hch
    rcases mem_cons.mp he with rfl | he
    · intro x hx hlt _ _
      exact asLatest_of_fence (checkGcFence_mono (by decide) (hbelow x hx hlt))
    · cases mem_singleton.mp he
      cases hch
  · intro e he f hf _
    rcases mem_cons.mp he with rfl | he
    · cases hf
    · cases mem_singleton.mp he
      cases hf
      exact ⟨by decide, Or.inr fun x hx hlt => hbelow x hx (hlt.trans (by decide))⟩

end AcquirePessimisticLock

end Tikv
