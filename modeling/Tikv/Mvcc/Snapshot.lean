import Mathlib.Data.Prod.Lex
import Tikv.Kv.CursorView
import Tikv.Mvcc.Visibility

/-!
# Snapshots of the three column families

A `Snapshot` is what a read works on: the write CF with the commit records, the lock CF and
the default CF with the long values. Keys of the write and default CFs are a user key with a
timestamp; they sort by user key first and **newest first** within a user key, as their
encoding does. A bare user key, which is what range bounds are, sorts before all of its
versions (`MvccKey.ofUser`).

The versions of one user key form one contiguous block of the write CF (`write_split`), and
`Snapshot.versions` is that block as a finite map. `Snapshot.visible` is the value a read of
the key at a timestamp should return.
-/

namespace Tikv

open List OrderDual

/-! ### Keys with a timestamp -/

/-- A user key with a timestamp appended. -/
structure MvccKey (K : Type) where
  user : K
  ts : ℕ
  deriving DecidableEq

namespace MvccKey

variable {K : Type} [LinearOrder K]

instance : LinearOrder (MvccKey K) :=
  LinearOrder.lift' (fun k => toLex (k.user, toDual k.ts)) fun a b h => by
    cases a
    cases b
    simpa using h

theorem lt_iff {a b : MvccKey K} :
    a < b ↔ a.user < b.user ∨ a.user = b.user ∧ b.ts < a.ts := by
  change toLex (a.user, toDual a.ts) < toLex (b.user, toDual b.ts) ↔ _
  rw [Prod.Lex.lt_iff]
  simp

theorem le_iff {a b : MvccKey K} :
    a ≤ b ↔ a.user < b.user ∨ a.user = b.user ∧ b.ts ≤ a.ts := by
  change toLex (a.user, toDual a.ts) ≤ toLex (b.user, toDual b.ts) ↔ _
  rw [Prod.Lex.le_iff]
  simp

@[simp] theorem mk_lt_mk {k : K} {s t : ℕ} : (⟨k, s⟩ : MvccKey K) < ⟨k, t⟩ ↔ t < s := by
  simp [lt_iff]

@[simp] theorem mk_le_mk {k : K} {s t : ℕ} : (⟨k, s⟩ : MvccKey K) ≤ ⟨k, t⟩ ↔ t ≤ s := by
  simp [le_iff]

/-- A user key without a timestamp: above every version of smaller keys and below its own. -/
def ofUser (k : K) : MvccKey K := ⟨k, TimeStamp.max + 1⟩

end MvccKey

open MvccKey

/-! ### Column families -/

/-- `MvccReader::get_scan_mode` with backward scans allowed, of a reader's `scan_mode`. -/
def getScanMode (scanMode : Option ScanMode) : ScanMode :=
  match scanMode with
  | some .forward => .forward
  | some .backward => .backward
  | _ => .mixed

theorem getScanMode_ne_backward {scanMode : Option ScanMode} (h : scanMode ≠ some .backward) :
    getScanMode scanMode ≠ .backward := by
  unfold getScanMode
  split <;> simp_all

/-- A column family: entries in strictly ascending key order. -/
structure Cf (κ α : Type) [LinearOrder κ] where
  data : List (κ × α)
  sorted : data.Pairwise fun a b => a.1 < b.1

namespace Cf

instance {κ α : Type} [LinearOrder κ] : EmptyCollection (Cf κ α) := ⟨⟨[], .nil⟩⟩

variable {κ α : Type} [LinearOrder κ]

/-- `get_cf`. -/
def get (cf : Cf κ α) (k : κ) : Option α := (cf.data.find? fun e => e.1 = k).map Prod.snd

/-- The part of the column family an iterator with bounds or a key prefix can see. -/
def restrict (cf : Cf κ α) (p : κ → Bool) : Cf κ α where
  data := cf.data.filter fun e => p e.1
  sorted := cf.sorted.filter _

/-- A new cursor. -/
def cursor (cf : Cf κ α) (scanMode : ScanMode) (prefixSeek : Bool) : Cursor κ α where
  data := cf.data
  sorted := cf.sorted
  scanMode := scanMode
  prefixSeek := prefixSeek

theorem get_eq_some_iff {cf : Cf κ α} {k : κ} {a : α} :
    cf.get k = some a ↔ (k, a) ∈ cf.data :=
  keyed_find?_eq_some_iff (R := (· < ·)) lt_irrefl cf.sorted

end Cf

/-! ### Versions of one key -/

section Tag

variable {K α : Type} {k : K} {l : List (ℕ × α)}

/-- Versions of the user key `k` as entries of a column family. -/
def tag (k : K) (l : List (ℕ × α)) : List (MvccKey K × α) :=
  l.map fun e => (⟨k, e.1⟩, e.2)

@[simp] theorem tag_nil (k : K) : tag (α := α) k [] = [] := rfl

@[simp] theorem tag_cons (k : K) (e : ℕ × α) (l : List (ℕ × α)) :
    tag k (e :: l) = (⟨k, e.1⟩, e.2) :: tag k l := rfl

theorem tag_append (k : K) (l₁ l₂ : List (ℕ × α)) :
    tag k (l₁ ++ l₂) = tag k l₁ ++ tag k l₂ := map_append

theorem reverse_tag (k : K) (l : List (ℕ × α)) : (tag k l).reverse = tag k l.reverse :=
  map_reverse.symm

@[simp] theorem length_tag (k : K) (l : List (ℕ × α)) :
    (tag k l).length = l.length := length_map _

theorem mem_tag {t : ℕ} {a : α} :
    ((⟨k, t⟩ : MvccKey K), a) ∈ tag k l ↔ (t, a) ∈ l := by
  simp [tag]

end Tag

/-! ### Snapshots -/

/-- A consistent view of the three column families. -/
structure Snapshot (K : Type) [LinearOrder K] where
  write : Cf (MvccKey K) Write
  lock : Cf K (Lock K)
  default : Cf (MvccKey K) Value
  /-- Commit timestamps are 64-bit values. -/
  writeTs : ∀ e ∈ write.data, e.1.ts ≤ TimeStamp.max

variable {K : Type} [LinearOrder K]

theorem dropWhile_tag {α : Type} (k : K) (l : List (ℕ × α)) (ts : ℕ) :
    (tag k l).dropWhile (fun e => e.1 < (⟨k, ts⟩ : MvccKey K)) =
      tag k (l.dropWhile fun e => ts < e.1) := by
  rw [tag, dropWhile_map]
  congr 2
  funext e
  simp

/-- A seek for a version of `key` stays within the versions of `key` if there is one, and
otherwise stops at the next user key. -/
theorem dropWhile_tag_append {α : Type} {key : K} {ts : ℕ} {l : List (ℕ × α)}
    {C : List (MvccKey K × α)} (hC : ∀ e ∈ C, key < e.1.user) :
    (tag key l ++ C).dropWhile (fun e => e.1 < (⟨key, ts⟩ : MvccKey K)) =
      tag key (l.dropWhile fun e => ts < e.1) ++ C := by
  induction l with
  | nil =>
    cases C with
    | nil => rfl
    | cons e C =>
      have h : ¬ e.1 < (⟨key, ts⟩ : MvccKey K) := fun hlt => by
        rcases lt_iff.mp hlt with h | h
        · exact lt_asymm h (hC e mem_cons_self)
        · exact (hC e mem_cons_self).ne' h.1
      simp [h]
  | cons e l ih =>
    by_cases he : ts < e.1
    · simp only [tag_cons, cons_append, dropWhile_cons, mk_lt_mk, he,
        decide_true, if_true]
      exact ih
    · simp [he]

/-- A cursor that has versions of `key` and then larger keys to read moves to an older version
of `key`. -/
theorem Cursor.Reads.seek_tag {α : Type} {cursor : Cursor (MvccKey K) α}
    {D C : List (MvccKey K × α)} {key : K} {e : ℕ × α} {l : List (ℕ × α)} {ts : ℕ}
    (hr : cursor.Reads D (tag key (e :: l) ++ C)) (he : ts ≤ e.1) (hC : ∀ e ∈ C, key < e.1.user) :
    ∃ cursor', cursor.seek ⟨key, ts⟩ = .ok (cursor'.valid, cursor') ∧
      cursor'.Reads D (tag key ((e :: l).dropWhile fun x => ts < x.1) ++ C) := by
  rw [← dropWhile_tag_append hC]
  exact hr.seek (mk_le_mk.mpr he)

namespace Snapshot

variable (S : Snapshot K)

/-- The versions of a user key, newest first. -/
def versions (k : K) : Versions Write where
  entries := (S.write.data.filter fun e => e.1.user = k).map fun e => (e.1.ts, e.2)
  desc := by
    rw [List.pairwise_map]
    refine (S.write.sorted.filter fun e => decide (e.1.user = k)).imp_of_mem
      fun {a b} ha hb hab => ?_
    have h₁ : a.1.user = k := by simpa using (List.mem_filter.mp ha).2
    have h₂ : b.1.user = k := by simpa using (List.mem_filter.mp hb).2
    rcases lt_iff.mp hab with h | h
    · exact absurd h (by rw [h₁, h₂]; exact lt_irrefl k)
    · exact h.2

/-- The value a Put record stands for. -/
def value (k : K) (w : Write) : Option Value :=
  w.shortValue.or (S.default.get ⟨k, w.startTs⟩)

/-- The value a read of `k` at `ts` should return. -/
def visible (k : K) (ts : ℕ) : Option Value :=
  (visibleWrite (S.versions k) ts).bind (S.value k)

/-- Every Put of the key carries its value or has it in the default CF. -/
def HasValues (k : K) : Prop :=
  ∀ e ∈ (S.versions k).entries, e.2.writeType = .put → (S.value k e.2).isSome

variable {S : Snapshot K} {k : K}

theorem filter_user_eq : (S.write.data.filter fun e => e.1.user = k) =
    tag k (S.versions k).entries := by
  rw [versions, tag, map_map]
  refine (map_id' _).symm.trans (map_congr_left fun e he => ?_)
  have h : e.1.user = k := by simpa using (mem_filter.mp he).2
  subst h
  rfl

theorem mem_versions {t : ℕ} {w : Write} :
    (t, w) ∈ (S.versions k).entries ↔ (⟨k, t⟩, w) ∈ S.write.data := by
  rw [← mem_tag (k := k), ← filter_user_eq]
  simp

theorem get_write (t : ℕ) : S.write.get ⟨k, t⟩ = (S.versions k).get t := by
  refine Option.ext fun w => ?_
  rw [Cf.get_eq_some_iff, Versions.get_eq_some_iff, mem_versions]

theorem le_max_of_mem_versions {e : ℕ × Write} (h : e ∈ (S.versions k).entries) :
    e.1 ≤ TimeStamp.max := S.writeTs _ (mem_versions.mp h)

theorem dropWhile_versions {t : ℕ} (ht : TimeStamp.max ≤ t) :
    ((S.versions k).entries.dropWhile fun e => t < e.1) = (S.versions k).entries := by
  cases hE : (S.versions k).entries with
  | nil => rfl
  | cons e l =>
    have := le_max_of_mem_versions (S := S) (k := k) (e := e) (by simp [hE])
    exact dropWhile_cons_of_neg (by simp; omega)

/-- The value of a visible Put exists. -/
theorem HasValues.isSome_value (h : S.HasValues k) {ts : ℕ} {w : Write}
    (hw : visibleWrite (S.versions k) ts = some w) : (S.value k w).isSome := by
  obtain ⟨e, he, hew⟩ := Option.bind_eq_some_iff.mp hw
  rw [Write.asLatest] at hew
  split_ifs at hew with hp
  cases hew
  exact h e (Versions.latest_eq_some_iff.mp he).1 hp.1

end Snapshot

/-! ### One key's block of the write CF -/

/-- The versions of a user key are one block. -/
theorem split_at_user {α : Type} {l : List (MvccKey K × α)}
    (hl : l.Pairwise fun a b => a.1 < b.1) (k : K) :
    l = (l.filter fun e => e.1.user < k) ++ (l.filter fun e => e.1.user = k) ++
      l.filter fun e => k < e.1.user := by
  induction l with
  | nil => rfl
  | cons e l ih =>
    rw [pairwise_cons] at hl
    have hge : ∀ x ∈ l, e.1.user ≤ x.1.user := fun x hx => by
      rcases lt_iff.mp (hl.1 x hx) with h | h
      · exact h.le
      · exact h.1.le
    -- Entries after `e` have a user key at least as large, so the earlier parts are empty.
    have hlt : k ≤ e.1.user → (l.filter fun x => x.1.user < k) = [] := fun h =>
      filter_eq_nil_iff.mpr fun x hx => by simpa using h.trans (hge x hx)
    have heq : k < e.1.user → (l.filter fun x => x.1.user = k) = [] := fun h =>
      filter_eq_nil_iff.mpr fun x hx => by simpa using (h.trans_le (hge x hx)).ne'
    have ih' := ih hl.2
    rcases lt_trichotomy e.1.user k with h | h | h
    · simpa [h, h.ne, h.le] using ih'
    · rw [hlt h.ge] at ih'
      simpa [h, hlt h.ge] using ih'
    · rw [heq h] at ih'
      simpa [h, h.ne', hlt h.le, heq h, h.le] using ih'

end Tikv
