import Tikv.Txn.KeyState

/-!
# The records of a key

The write CF of a key holds commit records (Put, Delete and Lock), at a commit timestamp above
the start timestamp of their transaction, and Rollback records, at the start timestamp of
theirs (**`RecordsOk`**). A rollback record and a commit record of two transactions may fall on
the same timestamp; then the commit record is kept and carries the flag
`has_overlapped_rollback`.

A rollback changes one record at most, and removes at most one (**`RolledBackTo`**). All commit
records stay, up to their flag and GC fence (`Write.core`), so an invariant that does not look
at those is kept by every rollback (`RolledBackTo.core_of_mem`, `RolledBackTo.mem_core`).
-/

namespace Tikv

open Versions Write

variable {K : Type}

namespace Write

/-- The record without its flag of an overlapped rollback and without its GC fence. -/
def core (w : Write) : Write := { w with hasOverlappedRollback := false, gcFence := none }

variable {w w' : Write}

section

variable (h : w.core = w'.core)
include h

theorem writeType_of_core : w.writeType = w'.writeType := by
  have hfield := congrArg writeType h
  exact hfield

theorem startTs_of_core : w.startTs = w'.startTs := by
  have hfield := congrArg startTs h
  exact hfield

theorem lastChange_of_core : w.lastChange = w'.lastChange := by
  have hfield := congrArg lastChange h
  exact hfield

theorem isProtected_of_core : w.isProtected = w'.isProtected := by
  have hfield := congrArg shortValue h
  rw [isProtected, writeType_of_core h]
  exact congrArg _ (congrArg (· == some protectedRollbackShortValue) hfield)

theorem isChange_of_core : w.isChange = w'.isChange := by
  rw [isChange, isChange, writeType_of_core h]

end

end Write

/-- Where the records of a key are. -/
structure RecordsOk (m : Versions Write) : Prop where
  commit : ∀ e ∈ m.entries, e.2.writeType ≠ .rollback → e.2.startTs < e.1
  rollback : ∀ e ∈ m.entries, e.2.writeType = .rollback →
    e.2.startTs = e.1 ∧ e.2.hasOverlappedRollback = false ∧ e.2.lastChange = .unknown

/-- The record at `s` says that the transaction `s` was rolled back. -/
def SelfRolledBack (m : Versions Write) (s : ℕ) : Prop :=
  ∃ w, (s, w) ∈ m.entries ∧ (w.writeType = .rollback ∨ w.hasOverlappedRollback = true)

/-- A protected rollback of the transaction `s` is on the key. -/
def ProtectedRollback (m : Versions Write) (s : ℕ) : Prop :=
  ∃ w, (s, w) ∈ m.entries ∧ (w.isProtected = true ∨ w.hasOverlappedRollback = true)

section Rollback

variable {m m' : Versions Write} {s c : ℕ} {isProt : Bool} {record : Option Write}
  {collapsed : Option ℕ} {w : Write} {e : ℕ × Write}

theorem RecordsOk.startTs_le (h : RecordsOk m) (he : e ∈ m.entries) : e.2.startTs ≤ e.1 := by
  by_cases ht : e.2.writeType = .rollback
  · exact (h.rollback e he ht).1.le
  · exact (h.commit e he ht).le

/-- The record that marks the rollback of a transaction without a record: a new Rollback, the
flag on another transaction's record at its start timestamp, or nothing. -/
inductive RollbackRecord (m : Versions Write) (s : ℕ) : Bool → Option Write → Prop
  | new {isProt : Bool} (hfree : ∀ w, (s, w) ∉ m.entries) :
    RollbackRecord m s isProt (some (newRollback s isProt))
  | overlap (w : Write) (fence : ℕ) (hw : (s, w) ∈ m.entries)
      (hfence : fence ≠ 0 → s < fence ∧ ∃ w', (fence, w') ∈ m.entries ∧ w'.isChange = true) :
    RollbackRecord m s true (some (w.setOverlappedRollback true (some fence)))
  | unmarked (w : Write) (hw : (s, w) ∈ m.entries) : RollbackRecord m s false none

variable {reader : SnapshotReader K} {ov : Option OverlappedWrite}

/-- What `make_rollback` makes of the answer of `get_txn_commit_record`. -/
theorem makeRollback_spec (hrec : reader.getTxnCommitRecord = .none ov)
    (h : (makeRollback reader.startTs isProt ov : Res K _) = .ok record) :
    SnapshotReader.NoRecordOf reader.write reader.startTs ∧
      RollbackRecord reader.write reader.startTs isProt record := by
  have hspec := reader.getTxnCommitRecord_spec
  rw [hrec] at hspec
  rcases ov with - | ⟨w, fence⟩
  · cases h
    exact ⟨hspec.1, .new hspec.2⟩
  · obtain ⟨hw, -, hno, hfence⟩ := hspec
    rw [makeRollback] at h
    split at h
    · cases h
    split at h
    · rename_i hp
      cases h
      rw [hp]
      exact ⟨hno, .overlap w fence hw hfence⟩
    · rename_i hp
      cases h
      rw [Bool.eq_false_iff.mpr hp]
      exact ⟨hno, .unmarked w hw⟩

/-- Under the invariant of the records, `make_rollback` does not panic. -/
theorem makeRollback_ok (hok : RecordsOk reader.write)
    (hrec : reader.getTxnCommitRecord = .none ov) (isProt : Bool) :
    ∃ record, (makeRollback reader.startTs isProt ov : Res K _) = .ok record := by
  have hspec := reader.getTxnCommitRecord_spec
  rw [hrec] at hspec
  rcases ov with - | ⟨w, fence⟩
  · exact ⟨_, rfl⟩
  · obtain ⟨hw, -, hno, -⟩ := hspec
    have hle := hok.startTs_le hw
    have hne := hno _ hw le_rfl
    dsimp only at hle hne
    have hlt : w.startTs < reader.startTs := by omega
    simp only [makeRollback, hlt, not_true_eq_false, if_false]
    split <;> exact ⟨_, rfl⟩

/-- The write CF after the record has been put at `s` and another one removed. -/
def rollbackTo (m : Versions Write) (s : ℕ) (record : Option Write) (collapsed : Option ℕ) :
    Versions Write :=
  let m := record.elim m (m.insert s)
  collapsed.elim m m.erase

theorem mem_rollbackTo : e ∈ (rollbackTo m s record collapsed).entries ↔
    ((∃ w, record = some w ∧ e = (s, w)) ∨ (record.isSome → e.1 ≠ s) ∧ e ∈ m.entries) ∧
      collapsed ≠ some e.1 := by
  rcases record with - | w <;> rcases collapsed with - | c <;>
    simp [rollbackTo, mem_insert, mem_erase, and_comm, eq_comm]

/-- The removed record is an unprotected Rollback record of another transaction. -/
def Collapses (m : Versions Write) (s : ℕ) (collapsed : Option ℕ) : Prop :=
  ∀ c, collapsed = some c → c ≠ s ∧
    ∃ w, (c, w) ∈ m.entries ∧ w.writeType = .rollback ∧ w.isProtected = false

theorem collapses_none : Collapses m s none := nofun

theorem collapses_prevRollback (hok : RecordsOk reader.write)
    (hno : SnapshotReader.NoRecordOf reader.write reader.startTs) :
    Collapses reader.write reader.startTs (prevRollback reader) := by
  intro c hc
  rw [prevRollback] at hc
  split at hc
  · rename_i t w hseek
    split_ifs at hc with hw
    cases hc
    obtain ⟨hmem, -, -⟩ := seek_eq_some_iff.mp hseek
    refine ⟨?_, w, hmem, hw.1, by simpa using hw.2⟩
    rintro rfl
    exact hno _ hmem le_rfl (hok.rollback _ hmem hw.1).1
  · cases hc

/-- The write CF after a rollback of the transaction `s`, which had no record there. -/
structure RolledBackTo (m : Versions Write) (s : ℕ) (isProt : Bool) (m' : Versions Write) :
    Prop where
  noRecord : SnapshotReader.NoRecordOf m s
  written : ∃ record collapsed, RollbackRecord m s isProt record ∧ Collapses m s collapsed ∧
    m' = rollbackTo m s record collapsed

namespace RolledBackTo

section

variable (h : RolledBackTo m s isProt m')
include h

/-- A record after the rollback was there before, or it marks the rollback. -/
theorem of_mem (he : e ∈ m'.entries) :
    e ∈ m.entries ∨ e = (s, newRollback s isProt) ∧ (∀ w, (s, w) ∉ m.entries) ∨
      ∃ w fence, (s, w) ∈ m.entries ∧ e = (s, w.setOverlappedRollback true (some fence)) ∧
        isProt = true ∧
        (fence ≠ 0 → s < fence ∧ ∃ w', (fence, w') ∈ m.entries ∧ w'.isChange = true) := by
  obtain ⟨record, collapsed, hrec, -, rfl⟩ := h.written
  rcases (mem_rollbackTo.mp he).1 with ⟨w, rfl, rfl⟩ | ⟨-, he⟩
  · rcases hrec with ⟨hfree⟩ | ⟨w, fence, hw, hfence⟩
    · exact Or.inr (Or.inl ⟨rfl, hfree⟩)
    · exact Or.inr (Or.inr ⟨w, fence, hw, rfl, rfl, hfence⟩)
  · exact Or.inl he

/-- A commit record after the rollback was there before, up to flag and fence. -/
theorem core_of_mem (he : e ∈ m'.entries) (ht : e.2.writeType ≠ .rollback) :
    ∃ w, (e.1, w) ∈ m.entries ∧ w.core = e.2.core := by
  rcases h.of_mem he with he | ⟨rfl, -⟩ | ⟨w, fence, hw, rfl, -, -⟩
  · exact ⟨e.2, he, rfl⟩
  · exact absurd rfl ht
  · exact ⟨w, hw, rfl⟩

/-- A Rollback record after the rollback was there before, or it is the new one. -/
theorem of_mem_rollback (hok : RecordsOk m) (he : e ∈ m'.entries) (ht : e.2.writeType = .rollback) :
    e ∈ m.entries ∨ e = (s, newRollback s isProt) ∧ ∀ w, (s, w) ∉ m.entries := by
  rcases h.of_mem he with he | he | ⟨w, fence, hw, rfl, -, -⟩
  · exact Or.inl he
  · exact Or.inr he
  · -- A Rollback record at `s` would be one of `s`.
    exact absurd (hok.rollback _ hw ht).1 (h.noRecord _ hw le_rfl)

/-- A record that is not collapsed stays, up to flag and fence. -/
theorem mem_core (he : e ∈ m.entries) (ht : e.2.writeType ≠ .rollback ∨ e.2.isProtected = true) :
    ∃ w, (e.1, w) ∈ m'.entries ∧ w.core = e.2.core ∧
      (e.2.hasOverlappedRollback = true → w.hasOverlappedRollback = true) ∧
      (e.1 ≠ s → w = e.2) := by
  obtain ⟨record, collapsed, hrec, hcol, rfl⟩ := h.written
  have hkeep : collapsed ≠ some e.1 := by
    intro hc
    obtain ⟨-, w, hw, hwt, hwp⟩ := hcol _ hc
    cases mem_unique he hw
    rcases ht with ht | ht
    · exact ht hwt
    · rw [hwp] at ht
      cases ht
  by_cases hs : e.1 = s
  · obtain ⟨c, w'⟩ := e
    subst hs
    rcases hrec with ⟨hfree⟩ | ⟨w, fence, hw, -⟩ | -
    · exact absurd he (hfree w')
    · cases mem_unique he hw
      exact ⟨_, mem_rollbackTo.mpr ⟨Or.inl ⟨_, rfl, rfl⟩, hkeep⟩, rfl, fun _ => rfl,
        fun h => absurd rfl h⟩
    · exact ⟨w', mem_rollbackTo.mpr ⟨Or.inr ⟨by simp, he⟩, hkeep⟩, rfl, id, fun _ => rfl⟩
  · exact ⟨e.2, mem_rollbackTo.mpr ⟨Or.inr ⟨fun _ => hs, he⟩, hkeep⟩, rfl, id, fun _ => rfl⟩

theorem recordsOk (hok : RecordsOk m) : RecordsOk m' where
  commit e he ht := by
    obtain ⟨w, hw, hcore⟩ := h.core_of_mem he ht
    rw [← startTs_of_core hcore]
    exact hok.commit _ hw (by rwa [writeType_of_core hcore])
  rollback e he ht := by
    rcases h.of_mem_rollback hok he ht with he | ⟨rfl, -⟩
    · exact hok.rollback e he ht
    · exact ⟨rfl, rfl, rfl⟩

end

theorem protectedRollback (h : RolledBackTo m s true m') : ProtectedRollback m' s := by
  obtain ⟨record, collapsed, hrec, hcol, rfl⟩ := h.written
  have hkeep : collapsed ≠ some s := fun hc => (hcol s hc).1 rfl
  rcases hrec with - | ⟨w, fence, hw, -⟩
  · exact ⟨_, mem_rollbackTo.mpr ⟨Or.inl ⟨_, rfl, rfl⟩, hkeep⟩, Or.inl rfl⟩
  · exact ⟨_, mem_rollbackTo.mpr ⟨Or.inl ⟨_, rfl, rfl⟩, hkeep⟩, Or.inr rfl⟩

end RolledBackTo

/-! ### All changes of the records -/

/-- The same commit records, up to flags and fences. -/
structure SameCommits (m m' : Versions Write) : Prop where
  mem : ∀ e ∈ m.entries, e.2.writeType ≠ .rollback →
    ∃ w, (e.1, w) ∈ m'.entries ∧ w.core = e.2.core
  of_mem : ∀ e ∈ m'.entries, e.2.writeType ≠ .rollback →
    ∃ w, (e.1, w) ∈ m.entries ∧ w.core = e.2.core

theorem SameCommits.symm (h : SameCommits m m') : SameCommits m' m := ⟨h.of_mem, h.mem⟩

theorem RolledBackTo.sameCommits (h : RolledBackTo m s isProt m') : SameCommits m m' where
  mem e he ht := by
    obtain ⟨w, hw, hcore, -, -⟩ := h.mem_core he (Or.inl ht)
    exact ⟨w, hw, hcore⟩
  of_mem e he ht := h.core_of_mem he ht

/-- A record written again, up to flag and fence. -/
theorem SameCommits.insert {w₀ : Write} (hw : (c, w₀) ∈ m.entries) (hcore : w₀.core = w.core) :
    SameCommits m (m.insert c w) where
  mem e he _ := by
    by_cases hc : e.1 = c
    · obtain ⟨t, w'⟩ := e
      subst hc
      cases mem_unique he hw
      exact ⟨w, mem_insert.mpr (Or.inl rfl), hcore.symm⟩
    · exact ⟨e.2, mem_insert.mpr (Or.inr ⟨hc, he⟩), rfl⟩
  of_mem e he _ := by
    rcases mem_insert.mp he with rfl | ⟨-, he⟩
    · exact ⟨w₀, hw, hcore⟩
    · exact ⟨e.2, he, rfl⟩

/-- The ways in which the records of a key can change. -/
inductive WriteChange (m : Versions Write) : Versions Write → Prop
  | same : WriteChange m m
  | commit {c : ℕ} {w : Write} (ht : w.writeType ≠ .rollback) (hs : w.startTs < c)
      (hfence : w.gcFence = none) : WriteChange m (m.insert c w)
  | rollback {s : ℕ} {isProt : Bool} {m' : Versions Write} (h : RolledBackTo m s isProt m') :
    WriteChange m m'

theorem WriteChange.recordsOk (h : WriteChange m m') (hok : RecordsOk m) : RecordsOk m' := by
  rcases h with - | ⟨ht, hs, -⟩ | h
  · exact hok
  · constructor
    · intro e he het
      rcases mem_insert.mp he with rfl | ⟨-, he⟩
      · exact hs
      · exact hok.commit e he het
    · intro e he het
      rcases mem_insert.mp he with rfl | ⟨-, he⟩
      · exact absurd het ht
      · exact hok.rollback e he het
  · exact h.recordsOk hok

end Rollback

end Tikv
