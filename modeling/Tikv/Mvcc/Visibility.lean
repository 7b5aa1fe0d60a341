import Mathlib.Data.List.Find
import Mathlib.Data.List.TakeWhile
import Tikv.Foundation.Versions
import Tikv.TxnTypes

/-!
# What a read of one key should see

The versions of a user key are its write records by commit timestamp, newest first. A read at `ts`
should see the newest Put or Delete at or below `ts`, unless that record is a Delete or carries a
GC fence at or below `ts` (**`visibleWrite`**).

A reader trusts the `lastChange` pointers of Lock and Rollback records and the GC fences it meets,
so its answer is right only for contents on which these are sound:

* **`ReadSound`** is the store-wide condition, stated for every record;
* **`SoundAt ts`** is the part of it a read at `ts` relies on. It can hold of contents from which
  garbage collection has removed versions no such read needs.

A reader walks down the versions. `Unread m ts l` says that the records `l` are what is left
to read, and the lemmas below it say what each record a reader can meet means for the answer.
-/

namespace Tikv

open List Versions Write

namespace Write

/-- Put and Delete records. -/
def isChange (w : Write) : Bool := w.writeType.isChange

theorem isChange_iff {w : Write} :
    w.isChange = true ↔ w.writeType = .put ∨ w.writeType = .delete := by
  cases h : w.writeType <;> simp [isChange, WriteType.isChange, h]

theorem not_isChange_iff {w : Write} :
    w.isChange = false ↔ w.writeType = .lock ∨ w.writeType = .rollback := by
  cases h : w.writeType <;> simp [isChange, WriteType.isChange, h]

theorem checkGcFence_eq_false_iff {w : Write} {ts : ℕ} :
    w.checkGcFenceAsLatestVersion ts = false ↔ ∃ f, w.gcFence = some f ∧ f ≠ 0 ∧ f ≤ ts := by
  cases h : w.gcFence <;> simp [checkGcFenceAsLatestVersion, h]

/-- A fence stays in force for later reads. -/
theorem checkGcFence_mono {w : Write} {ts ts' : ℕ} (hle : ts ≤ ts')
    (h : w.checkGcFenceAsLatestVersion ts = false) :
    w.checkGcFenceAsLatestVersion ts' = false := by
  obtain ⟨f, hf, h0, hfts⟩ := checkGcFence_eq_false_iff.mp h
  exact checkGcFence_eq_false_iff.mpr ⟨f, hf, h0, hfts.trans hle⟩

/-- What a read at `ts` makes of the record, if it is the newest Put or Delete. -/
def asLatest (w : Write) (ts : ℕ) : Option Write :=
  if w.writeType = .put ∧ w.checkGcFenceAsLatestVersion ts then some w else none

theorem asLatest_of_fence {w : Write} {ts : ℕ}
    (h : w.checkGcFenceAsLatestVersion ts = false) : w.asLatest ts = none := by
  simp [asLatest, h]

theorem asLatest_put {w : Write} {ts : ℕ} (hp : w.writeType = .put)
    (h : w.checkGcFenceAsLatestVersion ts = true) : w.asLatest ts = some w := by
  simp [asLatest, hp, h]

theorem asLatest_delete {w : Write} {ts : ℕ} (hd : w.writeType = .delete) :
    w.asLatest ts = none := by
  simp [asLatest, hd]

end Write

/-- The isolation level does not refuse the versions `l` to a read at `ts`: under `RcCheckTs`
none of them may be newer than the read. -/
def IsolationLevel.Accepts (level : IsolationLevel) (ts : ℕ) (l : List (ℕ × Write)) : Prop :=
  level = .rcCheckTs → ∀ e ∈ l, e.1 ≤ ts

theorem IsolationLevel.Accepts.of_ne {level : IsolationLevel} {ts : ℕ} {l : List (ℕ × Write)}
    (h : level ≠ .rcCheckTs) : level.Accepts ts l :=
  fun heq => absurd heq h

theorem IsolationLevel.Accepts.tail {level : IsolationLevel} {ts : ℕ} {e : ℕ × Write}
    {l : List (ℕ × Write)} (h : level.Accepts ts (e :: l)) : level.Accepts ts l :=
  fun heq x hx => h heq x (mem_cons_of_mem _ hx)

variable {m : Versions Write} {ts c t : ℕ} {w : Write} {l : List (ℕ × Write)}

/-- The newest Put or Delete at or below `ts`. -/
def latestChange (m : Versions Write) (ts : ℕ) : Option (ℕ × Write) :=
  m.latest isChange ts

/-- The record whose value a read at `ts` returns. -/
def visibleWrite (m : Versions Write) (ts : ℕ) : Option Write :=
  (latestChange m ts).bind fun e => e.2.asLatest ts

/-! ### Sound pointers and fences -/

/-- No Put or Delete is strictly between the two timestamps. -/
def NoChangeBetween (m : Versions Write) (lo hi : ℕ) : Prop :=
  ∀ e ∈ m.entries, lo < e.1 → e.1 < hi → e.2.isChange = false

/-- The last-change pointer of a record at `c` tells the truth. A pointer may lead to a
version that is gone, as long as everything older is gone with it. -/
def LastChangeSound (m : Versions Write) (c : ℕ) : LastChange → Prop
  | .unknown => True
  | .exist t _ => t < c ∧ NoChangeBetween m t c ∧
      ((∃ w, (t, w) ∈ m.entries ∧ w.isChange = true) ∨ ∀ e ∈ m.entries, t < e.1)
  | .notExist => ∀ e ∈ m.entries, e.1 < c → e.2.isChange = true → NoChangeBetween m e.1 c →
      e.2.asLatest c = none

/-- The contents of a key on which its readers may rely. -/
structure ReadSound (m : Versions Write) : Prop where
  /-- The pointers of Lock and Rollback records are sound. -/
  lastChange : ∀ e ∈ m.entries, e.2.isChange = false → LastChangeSound m e.1 e.2.lastChange
  /-- A fence is newer than its record and names a Put or Delete; once that is gone, every
  older record that is left is fenced off as well. -/
  fence : ∀ e ∈ m.entries, ∀ f, e.2.gcFence = some f → f ≠ 0 → e.1 < f ∧
    ((∃ w, (f, w) ∈ m.entries ∧ w.isChange = true) ∨
      ∀ e' ∈ m.entries, e'.1 < f → e'.2.checkGcFenceAsLatestVersion f = false)

/-- No version of the key is at timestamp zero. -/
def CommitTsPos (m : Versions Write) : Prop := ∀ e ∈ m.entries, 0 < e.1

/-- The record is what a read at `ts` finds above the newest Put or Delete. -/
def OnTop (m : Versions Write) (ts : ℕ) (e : ℕ × Write) : Prop :=
  e ∈ m.entries ∧ e.1 ≤ ts ∧ e.2.isChange = false ∧
    ∀ e' ∈ m.entries, e.1 < e'.1 → e'.1 ≤ ts → e'.2.isChange = false

/-- The contents of a key on which a read at `ts` may rely. -/
structure SoundAt (m : Versions Write) (ts : ℕ) : Prop where
  fence : ∀ e, OnTop m ts e → e.2.checkGcFenceAsLatestVersion ts = false →
    visibleWrite m ts = none
  notExist : ∀ e, OnTop m ts e → e.2.lastChange = .notExist → visibleWrite m ts = none
  exist : ∀ e t n, OnTop m ts e → e.2.lastChange = .exist t n → t < e.1 ∧
    ((∃ w, latestChange m ts = some (t, w)) ∨
      latestChange m ts = none ∧ ∀ e ∈ m.entries, t < e.1)

theorem visibleWrite_of_latest (h : latestChange m ts = some (c, w)) :
    visibleWrite m ts = w.asLatest ts := by
  rw [visibleWrite, h, Option.bind_some]

theorem visibleWrite_of_none (h : latestChange m ts = none) : visibleWrite m ts = none := by
  rw [visibleWrite, h, Option.bind_none]

theorem visibleWrite_of_empty (h : m.entries = []) : visibleWrite m ts = none :=
  visibleWrite_of_none (latest_eq_none_iff.mpr (by simp [h]))

theorem mem_of_latest (h : latestChange m ts = some (c, w)) :
    (c, w) ∈ m.entries ∧ c ≤ ts ∧ w.isChange = true := by
  obtain ⟨hmem, ⟨hle, hch⟩, -⟩ := latest_eq_some_iff.mp h
  exact ⟨hmem, hle, hch⟩

theorem OnTop.latest_lt {e e' : ℕ × Write} (he : OnTop m ts e) (h : latestChange m ts = some e') :
    e'.1 < e.1 ∧ NoChangeBetween m e'.1 e.1 := by
  obtain ⟨hmem, ⟨hle, hch⟩, hmax⟩ := latest_eq_some_iff.mp h
  obtain ⟨het, hets, hec, habove⟩ := he
  refine ⟨?_, fun x hx hlo hhi => ?_⟩
  · by_contra hge
    rcases Nat.lt_or_eq_of_le (not_lt.mp hge) with hlt | heq
    · rw [habove e' hmem hlt hle] at hch
      cases hch
    · have : e = e' := Prod.ext heq (mem_unique het (by rw [heq]; exact hmem))
      rw [this, hch] at hec
      cases hec
  · by_contra hx'
    have := hmax x hx (by omega) (by simpa using hx')
    omega

/-- Contents that are sound for all readers are sound for a read at `ts`. -/
theorem ReadSound.soundAt (h : ReadSound m) (ts : ℕ) : SoundAt m ts where
  fence := by
    intro e he hf
    obtain ⟨f, hef, hf0, hfts⟩ := checkGcFence_eq_false_iff.mp hf
    obtain ⟨hlt, hgone⟩ := h.fence e he.1 f hef hf0
    cases hl : latestChange m ts with
    | none => exact visibleWrite_of_none hl
    | some e' =>
      have hlt' := (he.latest_lt hl).1
      have hmem' := (latest_eq_some_iff.mp hl).1
      rcases hgone with ⟨w, hw, hwc⟩ | hgone
      · -- The fencing record would be a newer Put or Delete at or below `ts`.
        rw [he.2.2.2 _ hw hlt hfts] at hwc
        cases hwc
      · rw [visibleWrite_of_latest hl]
        exact asLatest_of_fence
          (checkGcFence_mono hfts (hgone e' hmem' (hlt'.trans hlt)))
  notExist := by
    intro e he hne
    cases hl : latestChange m ts with
    | none => exact visibleWrite_of_none hl
    | some e' =>
      obtain ⟨hlt, hbetween⟩ := he.latest_lt hl
      obtain ⟨hmem', ⟨-, hch⟩, -⟩ := latest_eq_some_iff.mp hl
      have hs := h.lastChange e he.1 he.2.2.1
      rw [hne] at hs
      have hnone : e'.2.asLatest e.1 = none := hs e' hmem' hlt hch hbetween
      rw [visibleWrite_of_latest hl]
      cases hf : e'.2.checkGcFenceAsLatestVersion ts with
      | false => exact asLatest_of_fence hf
      | true =>
        have hf' : e'.2.checkGcFenceAsLatestVersion e.1 = true := by
          by_contra hn
          rw [checkGcFence_mono he.2.1 (by simpa using hn)] at hf
          cases hf
        rcases isChange_iff.mp hch with hp | hd
        · rw [asLatest_put hp hf'] at hnone
          cases hnone
        · exact asLatest_delete hd
  exist := by
    intro e t n he hex
    have hs := h.lastChange e he.1 he.2.2.1
    rw [hex] at hs
    obtain ⟨hlt, hbetween, hpt⟩ := hs
    refine ⟨hlt, ?_⟩
    -- Up to `ts` there is no Put or Delete above the pointer's target.
    have habove : ∀ e' ∈ m.entries, e'.1 ≤ ts → e'.2.isChange = true → e'.1 ≤ t := by
      intro e' he' hle hch
      by_contra hgt
      rcases lt_trichotomy e'.1 e.1 with h1 | h1 | h1
      · rw [hbetween e' he' (by omega) h1] at hch
        cases hch
      · have : e' = e := Prod.ext h1 (mem_unique he' (by rw [h1]; exact he.1))
        rw [this, he.2.2.1] at hch
        cases hch
      · rw [he.2.2.2 e' he' h1 hle] at hch
        cases hch
    rcases hpt with ⟨w, hw, hwc⟩ | hgone
    · exact Or.inl ⟨w, latest_eq_some_iff.mpr ⟨hw, ⟨hlt.le.trans he.2.1, hwc⟩, habove⟩⟩
    · refine Or.inr ⟨latest_eq_none_iff.mpr fun e' he' hle => ?_, hgone⟩
      by_contra hch
      exact absurd (habove e' he' hle (by simpa using hch)) (not_le.mpr (hgone e' he'))

/-! ### Walking down the versions -/

/-- The records `l` are still to be read: they are the older part of the versions, all at or
below `ts`, and no newer record up to `ts` is a Put or Delete. -/
def Unread (m : Versions Write) (ts : ℕ) (l : List (ℕ × Write)) : Prop :=
  ∃ read, m.entries = read ++ l ∧ (∀ e ∈ read, e.1 ≤ ts → e.2.isChange = false) ∧
    ∀ e ∈ l, e.1 ≤ ts

/-- Past the newer versions, the others are still to be read. -/
theorem unread_dropWhile (m : Versions Write) (ts : ℕ) :
    Unread m ts (m.entries.dropWhile fun e => ts < e.1) := by
  refine ⟨m.entries.takeWhile fun e => ts < e.1, takeWhile_append_dropWhile.symm,
    fun e he hle => ?_, fun e he => ?_⟩
  · have : ts < e.1 := by simpa using mem_takeWhile_imp he
    omega
  · -- The first record kept is at or below `ts` and the others are older.
    have hsub : (m.entries.dropWhile fun e => ts < e.1).Pairwise fun a b => b.1 < a.1 :=
      m.desc.sublist (dropWhile_sublist _)
    cases hd : m.entries.dropWhile fun e => ts < e.1 with
    | nil => rw [hd] at he; cases he
    | cons x l =>
      have hx : ¬ ts < x.1 := by
        have := head?_dropWhile_not (fun e : ℕ × Write => decide (ts < e.1)) m.entries
        rw [hd] at this
        simpa using this
      rw [hd, pairwise_cons] at hsub
      rw [hd] at he
      rcases mem_cons.mp he with rfl | he'
      · omega
      · have := hsub.1 _ he'
        omega

namespace Unread

theorem nil (h : Unread m ts []) : visibleWrite m ts = none := by
  obtain ⟨read, hm, hread, -⟩ := h
  refine visibleWrite_of_none (latest_eq_none_iff.mpr fun e he hle => hread e ?_ hle)
  rwa [hm, append_nil] at he

section

variable (h : Unread m ts ((c, w) :: l))
include h

theorem above_head {e : ℕ × Write} (he : e ∈ m.entries) (hlt : c < e.1) (hle : e.1 ≤ ts) :
    e.2.isChange = false := by
  obtain ⟨read, hm, hread, -⟩ := h
  rcases mem_cases hm he with ⟨he, -⟩ | rfl | ⟨-, hlt'⟩
  · exact hread e he hle
  · exact absurd hlt (lt_irrefl _)
  · exact absurd hlt (lt_asymm hlt')

theorem mem_head : (c, w) ∈ m.entries ∧ c ≤ ts := by
  obtain ⟨read, hm, -, hle⟩ := h
  rw [hm]
  exact ⟨by simp, hle _ mem_cons_self⟩

theorem lt_head {e : ℕ × Write} (he : e ∈ l) : e.1 < c := by
  obtain ⟨read, hm, -, -⟩ := h
  have hdesc := m.desc
  rw [hm, pairwise_append, pairwise_cons] at hdesc
  exact hdesc.2.1.1 e he

omit h in
theorem subset (h : Unread m ts l) {e : ℕ × Write} (he : e ∈ l) : e ∈ m.entries := by
  obtain ⟨read, hm, -, -⟩ := h
  rw [hm]
  exact mem_append_right _ he

omit h in
theorem dropWhile_of_mem (h : Unread m ts l) {e : ℕ × Write} (he : e ∈ l) :
    ∃ l', (l.dropWhile fun x => e.1 < x.1) = e :: l' := by
  obtain ⟨read, hm, -, -⟩ := h
  have hdesc : l.Pairwise fun a b => b.1 < a.1 := by
    have := m.desc
    rw [hm, pairwise_append] at this
    exact this.2.1
  clear hm
  induction l with
  | nil => cases he
  | cons x l ih =>
    rw [pairwise_cons] at hdesc
    rcases mem_cons.mp he with rfl | he'
    · exact ⟨l, by simp⟩
    · rw [dropWhile_cons_of_pos (by simpa using hdesc.1 _ he')]
      exact ih he' hdesc.2

theorem mem_of_lt {e : ℕ × Write} (he : e ∈ m.entries) (hlt : e.1 < c) : e ∈ l := by
  obtain ⟨read, hm, -, -⟩ := h
  rcases mem_cases hm he with ⟨-, hlt'⟩ | rfl | ⟨he, -⟩
  · exact absurd hlt (lt_asymm hlt')
  · exact absurd hlt (lt_irrefl _)
  · exact he

/-- The first unread Put or Delete decides the answer. -/
theorem change (hw : w.isChange = true) :
    latestChange m ts = some (c, w) := by
  refine latest_eq_some_iff.mpr ⟨h.mem_head.1, ⟨h.mem_head.2, hw⟩, fun e he hle hch => ?_⟩
  by_contra hgt
  rw [h.above_head he (not_le.mp hgt) hle] at hch
  cases hch

omit h in
theorem latestChange_eq (h : Unread m ts l) :
    latestChange m ts = l.find? fun e => e.2.isChange := by
  obtain ⟨read, hm, hread, hle⟩ := h
  have hnone : (read.find? fun e => e.1 ≤ ts && e.2.isChange) = none :=
    find?_eq_none.mpr fun e he hp => by
      simp only [Bool.and_eq_true, decide_eq_true_eq] at hp
      rw [hread e he hp.1] at hp
      simp at hp
  rw [latestChange, latest, hm, find?_append, hnone]
  refine find?_congr fun e he => ?_
  simp [hle e he]

theorem onTop (hw : w.isChange = false) : OnTop m ts (c, w) :=
  ⟨h.mem_head.1, h.mem_head.2, hw, fun _ he hlt hle => h.above_head he hlt hle⟩

/-- Nothing is visible below a Lock or Rollback record whose fence is in force. -/
theorem fence (hs : SoundAt m ts) (hw : w.isChange = false)
    (hf : w.checkGcFenceAsLatestVersion ts = false) : visibleWrite m ts = none :=
  hs.fence (c, w) (h.onTop hw) hf

theorem notExist (hs : SoundAt m ts) (hw : w.isChange = false) (hne : w.lastChange = .notExist) :
    visibleWrite m ts = none :=
  hs.notExist (c, w) (h.onTop hw) hne

/-- A pointer leads to the record that decides the answer, or to a version that is gone with
everything older. -/
theorem exist (hs : SoundAt m ts) (hw : w.isChange = false) {n : ℕ}
    (hex : w.lastChange = .exist t n) : t < c ∧
      ((∃ w', latestChange m ts = some (t, w') ∧ m.get t = some w') ∨
        visibleWrite m ts = none ∧ m.get t = none ∧ ∀ e ∈ m.entries, t < e.1) := by
  obtain ⟨hlt, hcase⟩ := hs.exist (c, w) t n (h.onTop hw) hex
  refine ⟨hlt, hcase.imp (fun ⟨w', hw'⟩ => ⟨w', hw', ?_⟩) fun ⟨hn, hgone⟩ => ⟨?_, ?_, hgone⟩⟩
  · exact get_eq_some_iff.mpr (mem_of_latest hw').1
  · exact visibleWrite_of_none hn
  · exact get_eq_none_iff.mpr fun a ha => absurd (hgone _ ha) (lt_irrefl _)

/-- A Lock or Rollback record may be passed over. -/
theorem tail (hw : w.isChange = false) : Unread m ts l := by
  obtain ⟨read, hm, hread, hle⟩ := h
  exact ⟨read ++ [(c, w)], by simp [hm],
    forall_mem_append.mpr ⟨hread, forall_mem_singleton.mpr fun _ => hw⟩,
    fun e he => hle e (mem_cons_of_mem _ he)⟩

end

end Unread

end Tikv
