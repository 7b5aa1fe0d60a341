import Tikv.Mvcc.Reader

/-!
# The fate of a transaction

`get_txn_commit_record` looks for the record of a transaction on a key. In pessimistic transactions
the order of the commit timestamps is not that of the start timestamps, so the loop reads the
records from the newest one down to the start timestamp. The last Put or Delete it has passed is the
next one above the start timestamp, and becomes the fence of an overlapped record.

With enough fuel the loop of the reader is the loop over the versions of the key
(`New.getTxnCommitRecord`). What that loop answers is `SnapshotReader.getTxnCommitRecord_spec`; here
it is completed by the fence (`commitRecordLoop_isNextChange`).
-/

namespace Tikv

open List TimeStamp

variable {K : Type} [LinearOrder K]

namespace MvccReader

/-- The loop of `MvccReader::get_txn_commit_record`. -/
def commitRecordLoop (key : K) (startTs : ℕ) :
    ℕ → MvccReader K → ℕ → ℕ → Res K (TxnCommitRecord × MvccReader K)
  | 0, _, _, _ => .error .outOfFuel
  | n + 1, r, seekTs, gcFence => do
    match ← r.seekWrite key seekTs with
    | (none, r) => return (.none none, r)
    | (some (commitTs, write), r) =>
      if write.startTs = startTs then return (.singleRecord commitTs write, r)
      else if commitTs = startTs then
        if write.hasOverlappedRollback then return (.overlappedRollback commitTs, r)
        else return (.none (some ⟨write, gcFence⟩), r)
      else
        let gcFence := if write.isChange then commitTs else gcFence
        if commitTs < startTs then return (.none none, r)
        else
          let seekTs ← liftPanic (prev commitTs)
          commitRecordLoop key startTs n r seekTs gcFence

/-- `MvccReader::get_txn_commit_record`. -/
def getTxnCommitRecord (r : MvccReader K) (key : K) (startTs : ℕ) :
    Res K (TxnCommitRecord × MvccReader K) :=
  commitRecordLoop key startTs (r.snapshot.write.data.length + 1) r max 0

variable {S : Snapshot K} {r r' : MvccReader K} {key : K} {s : ℕ}

/-- The loop of the reader, with enough fuel, is the loop over the versions left to read. -/
theorem At.commitRecordLoop {l : List (ℕ × Write)} {n seekTs gcFence : ℕ}
    (hseek : r.seekWrite key seekTs = .ok (l.head?, r')) (hat : r'.At S key l)
    (hl : l.Pairwise fun a b => b.1 < a.1) (hn : l.length < n) :
    ∃ r'', commitRecordLoop key s n r seekTs gcFence =
      .ok (SnapshotReader.commitRecordLoop s gcFence l, r'') := by
  -- Induction on the versions left to read; each record that is passed takes one.
  induction l generalizing r r' n seekTs gcFence with
  | nil =>
    obtain ⟨n, rfl⟩ : ∃ k, n = k + 1 := ⟨n - 1, by simp at hn; omega⟩
    refine ⟨r', ?_⟩
    rw [MvccReader.commitRecordLoop, hseek]
    rfl
  | cons e l ih =>
    obtain ⟨c, w⟩ := e
    rw [pairwise_cons] at hl
    obtain ⟨n, rfl⟩ : ∃ k, n = k + 1 := ⟨n - 1, by simp at hn; omega⟩
    rw [MvccReader.commitRecordLoop, hseek, ok_bind, SnapshotReader.commitRecordLoop]
    dsimp only [head?_cons]
    by_cases hw : w.startTs = s
    · rw [if_pos hw, if_pos hw]
      exact ⟨r', rfl⟩
    rw [if_neg hw, if_neg hw]
    by_cases hc : c = s
    · rw [if_pos hc]
      split <;> exact ⟨r', rfl⟩
    rw [if_neg hc, if_neg hc]
    by_cases hlt : c < s
    · rw [if_pos hlt, if_pos hlt]
      exact ⟨r', rfl⟩
    rw [if_neg hlt, if_neg hlt, TimeStamp.prev, if_pos (by omega), liftPanic_ok]
    -- The seek below `c` finds the next version.
    have hdrop : ((c, w) :: l).dropWhile (fun e => c - 1 < e.1) = l := by
      rw [dropWhile_cons_of_pos (by simp; omega)]
      rcases l with - | ⟨e, l⟩
      · rfl
      · have := hl.1 e mem_cons_self
        rw [dropWhile_cons_of_neg (by simp; omega)]
    obtain ⟨r'', hseek', hat'⟩ := hat.seekWrite (t := c - 1) (by omega)
    rw [hdrop] at hseek' hat'
    exact ih hseek' hat' hl.2 (by simpa using hn)

/-- A new reader finds the record in the versions of the key. -/
theorem New.getTxnCommitRecord (h : r.New S) (key : K) (s : ℕ) :
    ∃ r', r.getTxnCommitRecord key s =
      .ok (SnapshotReader.commitRecordLoop s 0 (S.versions key).entries, r') := by
  obtain ⟨r', hseek, hat⟩ := h.seekWrite key max
  have hall : (S.versions key).entries.dropWhile (fun e => max < e.1) =
      (S.versions key).entries := by
    rw [dropWhile_eq_self_iff]
    intro hne
    obtain ⟨e, he, heq⟩ := mem_map.mp (getElem_mem hne)
    have hle := S.writeTs e (mem_filter.mp he).1
    rw [← heq]
    simpa using hle
  rw [hall] at hseek hat
  refine hat.commitRecordLoop hseek (S.versions key).desc ?_
  have hlen : (S.versions key).entries.length ≤ S.write.data.length := by
    rw [Snapshot.versions, length_map]
    exact length_filter_le _ _
  rw [h.snapshot]
  omega

end MvccReader

namespace SnapshotReader

variable {m : Versions Write} {s : ℕ}

/-- The timestamp of the next Put or Delete above `s`, or zero if there is none. -/
def IsNextChange (m : Versions Write) (s f : ℕ) : Prop :=
  (∃ w, (f, w) ∈ m.entries ∧ w.isChange = true ∧ s < f ∧
    ∀ e ∈ m.entries, s < e.1 → e.2.isChange = true → f ≤ e.1) ∨
  f = 0 ∧ ∀ e ∈ m.entries, s < e.1 → e.2.isChange = false

theorem IsNextChange.unique {f f' : ℕ} (h : IsNextChange m s f) (h' : IsNextChange m s f') :
    f = f' := by
  rcases h with ⟨w, hw, hch, hlt, hle⟩ | ⟨rfl, hnone⟩
  · rcases h' with ⟨w', hw', hch', hlt', hle'⟩ | ⟨rfl, hnone⟩
    · exact le_antisymm (hle _ hw' hlt' hch') (hle' _ hw hlt hch)
    · exact absurd (hnone _ hw hlt) (by rw [hch]; decide)
  · rcases h' with ⟨w', hw', hch', hlt', -⟩ | ⟨rfl, -⟩
    · exact absurd (hnone _ hw' hlt') (by rw [hch']; decide)
    · rfl

/-- The loop has passed the records above the next one, and remembers the last change. -/
theorem commitRecordLoop_isNextChange {passed l : List (ℕ × Write)} {gcFence : ℕ}
    {ov : OverlappedWrite} (hm : m.entries = passed ++ l) (hpassed : ∀ e ∈ passed, s < e.1)
    (hfence : (∃ w, (gcFence, w) ∈ passed ∧ w.isChange = true ∧
        ∀ e ∈ passed, e.2.isChange = true → gcFence ≤ e.1) ∨
      gcFence = 0 ∧ ∀ e ∈ passed, e.2.isChange = false)
    (h : commitRecordLoop s gcFence l = .none (some ov)) : IsNextChange m s ov.gcFence := by
  induction l generalizing passed gcFence with
  | nil => cases h
  | cons x l ih =>
    obtain ⟨c, w⟩ := x
    have hdesc := m.desc
    rw [hm, pairwise_append] at hdesc
    rw [commitRecordLoop] at h
    split at h
    · cases h
    split at h
    · rename_i hc
      subst hc
      split_ifs at h
      cases h
      -- What is above `c` has been passed.
      have habove : ∀ e ∈ m.entries, c < e.1 → e ∈ passed := by
        intro e he hlt
        rcases Versions.mem_cases hm he with ⟨he, -⟩ | rfl | ⟨-, hlt'⟩
        · exact he
        · exact absurd hlt (Nat.lt_irrefl _)
        · exact absurd hlt' (Nat.lt_asymm hlt)
      rcases hfence with ⟨w', hw', hch, hle⟩ | ⟨hzero, hnone⟩
      · refine .inl ⟨w', ?_, hch, hpassed _ hw', fun e he hlt => hle e (habove e he hlt)⟩
        rw [hm]
        exact mem_append_left _ hw'
      · exact .inr ⟨hzero, fun e he hlt => hnone e (habove e he hlt)⟩
    split at h
    · cases h
    have hm' : m.entries = (passed ++ [(c, w)]) ++ l := by simp [hm]
    refine ih hm' (forall_mem_append.mpr ⟨hpassed, forall_mem_singleton.mpr ?_⟩) ?_ h
    · dsimp only
      omega
    split
    · -- The passed records are newer than this one.
      rename_i hch
      refine .inl ⟨w, by simp, hch, forall_mem_append.mpr ⟨fun e he _ => ?_,
        forall_mem_singleton.mpr fun _ => le_rfl⟩⟩
      exact (hdesc.2.2 e he _ mem_cons_self).le
    · rename_i hch
      rcases hfence with ⟨w', hw', hch', hle⟩ | ⟨hzero, hnone⟩
      · exact .inl ⟨w', mem_append_left _ hw', hch', forall_mem_append.mpr
          ⟨hle, forall_mem_singleton.mpr fun hech => absurd hech hch⟩⟩
      · exact .inr ⟨hzero, forall_mem_append.mpr
          ⟨hnone, forall_mem_singleton.mpr (Bool.eq_false_iff.mpr hch)⟩⟩

/-- The records of a key as transactions write them. -/
structure TxnRecords (m : Versions Write) : Prop where
  /-- Each transaction has at most one record. -/
  one : ∀ e ∈ m.entries, ∀ e' ∈ m.entries, e.2.startTs = e'.2.startTs → e = e'
  commit : ∀ e ∈ m.entries, e.2.writeType ≠ .rollback → e.2.startTs < e.1
  rollback : ∀ e ∈ m.entries, e.2.writeType = .rollback → e.1 = e.2.startTs

theorem TxnRecords.startTs_le (h : TxnRecords m) {e : ℕ × Write} (he : e ∈ m.entries) :
    e.2.startTs ≤ e.1 := by
  by_cases ht : e.2.writeType = .rollback
  · exact (h.rollback e he ht).ge
  · exact (h.commit e he ht).le

theorem TxnRecords.of_noRecordOf (h : TxnRecords m) (hno : NoRecordOf m s) :
    ∀ e ∈ m.entries, e.2.startTs ≠ s := by
  intro e he heq
  exact hno e he (heq ▸ h.startTs_le he) heq

end SnapshotReader

open SnapshotReader

/-- On records as transactions write them, `get_txn_commit_record` returns the record of the
transaction if there is one; if not, that the transaction is rolled back if the record at its start
timestamp says so; and else that record if there is one, with the next Put or Delete above it. -/
theorem MvccReader.getTxnCommitRecord_finds_fate {S : Snapshot K} {r : MvccReader K} (h : r.New S)
    (key : K) (s : ℕ) (htxn : TxnRecords (S.versions key)) :
    ∃ record r', r.getTxnCommitRecord key s = .ok (record, r') ∧
      (∀ c w, record = .singleRecord c w ↔ (c, w) ∈ (S.versions key).entries ∧ w.startTs = s) ∧
      ((∀ e ∈ (S.versions key).entries, e.2.startTs ≠ s) →
        (record = .overlappedRollback s ↔
          ∃ w, (s, w) ∈ (S.versions key).entries ∧ w.hasOverlappedRollback = true) ∧
        ((∀ w, (s, w) ∈ (S.versions key).entries → w.hasOverlappedRollback = false) →
          ∃ ov, record = .none ov ∧
            ∀ w f, ov = some ⟨w, f⟩ ↔
              (s, w) ∈ (S.versions key).entries ∧ IsNextChange (S.versions key) s f)) := by
  obtain ⟨r', heq⟩ := h.getTxnCommitRecord key s
  refine ⟨_, r', heq, ?_⟩
  have hspec : CommitRecordSpec (S.versions key) s
      (SnapshotReader.commitRecordLoop s 0 (S.versions key).entries) :=
    commitRecordLoop_spec (nil_append _).symm (by simp) (by simp)
  have hfence : ∀ ov,
      SnapshotReader.commitRecordLoop s 0 (S.versions key).entries = .none (some ov) →
        IsNextChange (S.versions key) s ov.gcFence := fun ov =>
    commitRecordLoop_isNextChange (nil_append _).symm (by simp) (.inr ⟨rfl, by simp⟩)
  generalize SnapshotReader.commitRecordLoop s 0 (S.versions key).entries = record at hspec hfence
  cases record with
  | singleRecord c w =>
    obtain ⟨hmem, hw, -⟩ := hspec
    refine ⟨fun c' w' => ⟨?_, ?_⟩, fun hno => absurd hw (hno _ hmem)⟩
    · intro heq
      cases heq
      exact ⟨hmem, hw⟩
    · rintro ⟨hmem', hw'⟩
      cases htxn.one _ hmem _ hmem' (hw.trans hw'.symm)
      rfl
  | overlappedRollback c =>
    obtain ⟨rfl, hno, w, hmem, hover⟩ := hspec
    have hno := htxn.of_noRecordOf hno
    refine ⟨fun c' w' => ⟨nofun, fun hw' => absurd hw'.2 (hno _ hw'.1)⟩, fun _ => ?_⟩
    refine ⟨⟨fun _ => ⟨w, hmem, hover⟩, fun _ => rfl⟩, fun hnone => ?_⟩
    exact absurd (hnone w hmem) (by rw [hover]; decide)
  | none ov =>
    cases ov with
    | none =>
      obtain ⟨hno, hnone⟩ := hspec
      have hno := htxn.of_noRecordOf hno
      refine ⟨fun c' w' => ⟨nofun, fun hw' => absurd hw'.2 (hno _ hw'.1)⟩, fun _ => ?_⟩
      refine ⟨⟨nofun, fun ⟨w, hmem, _⟩ => absurd hmem (hnone w)⟩, fun _ => ⟨_, rfl, ?_⟩⟩
      exact fun w f => ⟨nofun, fun hw => absurd hw.1 (hnone w)⟩
    | some ov =>
      obtain ⟨hmem, hover, hno, -⟩ := hspec
      have hno := htxn.of_noRecordOf hno
      refine ⟨fun c' w' => ⟨nofun, fun hw' => absurd hw'.2 (hno _ hw'.1)⟩, fun _ => ?_⟩
      refine ⟨⟨nofun, fun ⟨w, hmem', hover'⟩ => ?_⟩, fun _ => ⟨_, rfl, fun w f => ⟨?_, ?_⟩⟩⟩
      · cases (S.versions key).mem_unique hmem hmem'
        exact absurd hover' (by rw [hover]; decide)
      · intro heq
        cases heq
        exact ⟨hmem, hfence _ rfl⟩
      · rintro ⟨hmem', hnext⟩
        cases (S.versions key).mem_unique hmem hmem'
        rw [hnext.unique (hfence _ rfl)]

/-- A key with a Put of the transaction `10` at `20`, below a Lock and a Put. -/
def putAtStart : Snapshot ℕ where
  write := ⟨[(⟨1, 40⟩, { writeType := .put, startTs := 35 }),
    (⟨1, 30⟩, { writeType := .delete, startTs := 5 }),
    (⟨1, 25⟩, { writeType := .lock, startTs := 22 }),
    (⟨1, 20⟩, { writeType := .put, startTs := 10 }),
    (⟨1, 8⟩, { writeType := .rollback, startTs := 8 })], by decide⟩
  lock := ∅
  default := ∅
  writeTs := by decide

theorem txnRecords_putAtStart : TxnRecords (putAtStart.versions 1) where
  one := by decide
  commit := by decide
  rollback := by decide

/-- The transaction `20` has no record, and the record at its start timestamp is the Put. -/
theorem MvccReader.getTxnCommitRecord_finds_fate_of_putAtStart :
    (∃ r', ({ snapshot := putAtStart } : MvccReader ℕ).getTxnCommitRecord 1 20 =
      .ok (.none (some ⟨{ writeType := .put, startTs := 10 }, 30⟩), r')) ∧
    ∃ r', ({ snapshot := putAtStart } : MvccReader ℕ).getTxnCommitRecord 1 5 =
      .ok (.singleRecord 30 { writeType := .delete, startTs := 5 }, r') := by
  have hnew : ({ snapshot := putAtStart } : MvccReader ℕ).New putAtStart := ⟨rfl, nofun, rfl, rfl⟩
  obtain ⟨record, r', heq, -, hnone⟩ :=
    getTxnCommitRecord_finds_fate hnew 1 20 txnRecords_putAtStart
  obtain ⟨-, hnone⟩ := hnone (by decide)
  have hflag : ∀ e ∈ (putAtStart.versions 1).entries, e.2.hasOverlappedRollback = false := by
    decide
  obtain ⟨ov, rfl, hov⟩ := hnone fun w hw => hflag _ hw
  have hput := (hov { writeType := .put, startTs := 10 } 30).mpr
    ⟨by decide, .inl ⟨{ writeType := .delete, startTs := 5 }, by decide, by decide, by decide,
      by decide⟩⟩
  obtain ⟨record', r'', heq', hsingle, -⟩ :=
    getTxnCommitRecord_finds_fate hnew 1 5 txnRecords_putAtStart
  have hdelete := (hsingle 30 { writeType := .delete, startTs := 5 }).mpr ⟨by decide, rfl⟩
  exact ⟨⟨r', hput ▸ heq⟩, r'', hdelete ▸ heq'⟩

end Tikv
