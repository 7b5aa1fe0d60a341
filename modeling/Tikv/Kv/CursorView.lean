import Tikv.Foundation.Versions
import Tikv.Kv.Cursor

/-!
# What a cursor has still to read

A reader that runs through a column family has a list of entries in front of it: `rest`, the entries
from the position on, when it reads towards larger keys, and `back`, the entries from the position
down, when it reads towards smaller keys. `next` and `prev` take the tail of these lists, and a seek
drops the entries before its target.

`Reads D l` and `ReadsBack D l` say that a cursor over the entries `D` has `l` in front of it
and will not be misled by a key bound recorded earlier.
-/

namespace Tikv

open List Option

universe u v

namespace Cursor

variable {κ : Type u} {α : Type v} [LinearOrder κ]

/-- The entries from the position on. -/
def rest (c : Cursor κ α) : List (κ × α) := c.pos.elim [] fun i => c.data.drop i

/-- The entries from the position down. -/
def back (c : Cursor κ α) : List (κ × α) := c.pos.elim [] fun i => (c.data.take (i + 1)).reverse

variable {c : Cursor κ α} {k : κ} {i : ℕ}

/-! ### The two sides of a position -/

theorem mem_of_current {e : κ × α} (h : c.current = some e) : e ∈ c.data := by
  obtain ⟨i, -, rfl⟩ := map_eq_some_iff.mp h
  exact get_mem _ _

theorem current_eq_head? : c.current = c.rest.head? := by
  cases h : c.pos with
  | none | some i => simp [current, rest, h]

theorem rest_goto : (c.goto i).rest = c.data.drop i := by
  rcases Nat.lt_or_ge i c.data.length with h | h
  · rw [rest, pos_goto h]
    rfl
  · have hp : (c.goto i).pos = none := posOf_of_le h
    rw [rest, hp, eq_comm]
    exact drop_eq_nil_of_le h

theorem rest_internalSeek : (c.internalSeek k).rest = c.data.dropWhile (·.1 < k) := by
  rw [internalSeek, rest_goto]
  exact (congrArg _ takeWhile_append_dropWhile.symm).trans drop_left

theorem rest_next : c.next.rest = c.rest.tail := by
  cases h : c.pos with
  | none => simp [next, rest, h]
  | some i =>
    rw [← goto_of_pos h, next_goto, rest_goto, rest_goto, tail_drop]

theorem valid_iff_rest_ne_nil : c.valid = true ↔ c.rest ≠ [] := by
  cases h : c.pos with
  | none | some i => simp [valid, rest, h]

theorem below_mono {k' : κ} (h : k ≤ k') : c.below k ≤ c.below k' := by
  by_contra hlt
  have hl := below_le_length (c := c) (k := k)
  have h₁ := (lt_below_iff (c := c) (k := k) (i := c.below k') (by omega)).mp (by omega)
  exact absurd ((lt_below_iff (by omega)).mpr (h₁.trans_le h)) (lt_irrefl _)

theorem dropWhile_lt_of_mem {l : List (κ × α)} {a : α} (hl : l.Pairwise fun a b => a.1 < b.1)
    (h : (k, a) ∈ l) : ∃ t, l.dropWhile (·.1 < k) = (k, a) :: t := by
  induction l with
  | nil => cases h
  | cons e l ih =>
    rw [pairwise_cons] at hl
    rcases mem_cons.mp h with rfl | h'
    · exact ⟨l, by simp⟩
    · rw [dropWhile_cons_of_pos (by simpa using hl.1 _ h')]
      exact ih hl.2 h'

/-! ### Reading towards larger keys -/

@[simp] theorem valid_recordMax : (c.recordMax k).valid = c.valid := by
  rw [recordMax]
  split <;> rfl

@[simp] theorem rest_recordMax : (c.recordMax k).rest = c.rest := by
  rw [recordMax]
  split <;> rfl

/-- The cursor reads the entries `D` towards larger keys and `l` is what it has still to read.
A recorded `maxKey` means that there is nothing left. -/
structure Reads (c : Cursor κ α) (D l : List (κ × α)) : Prop where
  data : c.data = D
  mode : c.scanMode ≠ .backward
  rest : c.rest = l
  maxKey : c.maxKey = none ∨ l = []

namespace Reads

variable {D l : List (κ × α)} {e : κ × α}

theorem current (h : c.Reads D l) : c.current = l.head? := by rw [current_eq_head?, h.rest]

theorem valid_iff (h : c.Reads D l) : c.valid = true ↔ l ≠ [] := by
  rw [valid_iff_rest_ne_nil, h.rest]

theorem eq_nil (h : c.Reads D l) (hv : c.valid = false) : l = [] :=
  not_not.mp (mt h.valid_iff.mpr (Bool.eq_false_iff.mp hv))

theorem next (h : c.Reads D l) : c.next.Reads D l.tail where
  data := h.data
  mode := h.mode
  rest := by rw [rest_next, h.rest]
  maxKey := h.maxKey.imp id fun h => by rw [h]; rfl

theorem length_le (h : c.Reads D l) : l.length ≤ D.length := by
  rw [← h.rest, ← h.data, Cursor.rest]
  cases c.pos with
  | none => exact Nat.zero_le _
  | some i => exact (drop_sublist _ _).length_le

section

variable (h : c.Reads D (e :: l))
include h

theorem exists_pos :
    ∃ j : Fin c.data.length, c.pos = some j ∧ c.data.drop j = e :: l ∧ c.data.get j = e := by
  have hr := h.rest
  cases hp : c.pos with
  | none => simp [Cursor.rest, hp] at hr
  | some j =>
    simp only [Cursor.rest, hp, elim_some] at hr
    refine ⟨j, rfl, hr, ?_⟩
    have := head?_drop (l := c.data) (i := j)
    rw [hr, getElem?_eq_getElem j.isLt] at this
    exact (some.inj this).symm

/-- A target at or above the current entry is still ahead. -/
theorem le_below (hk : e.1 ≤ k) :
    c.NotPast k ∧ c.data.dropWhile (·.1 < k) = (e :: l).dropWhile (·.1 < k) := by
  obtain ⟨j, hj, hd, hg⟩ := h.exists_pos
  have hlt : ∀ i : ℕ, i < j → i < c.below k := by
    intro i hi
    refine (lt_below_iff (by omega)).mpr (lt_of_lt_of_le ?_ (hg ▸ hk))
    exact pairwise_iff_getElem.mp c.sorted _ _ _ _ hi
  have hle : j ≤ c.below k := by
    by_contra hn
    exact absurd (hlt (c.below k) (by omega)) (lt_irrefl _)
  refine ⟨fun _ i hi => by rw [hj] at hi; cases hi; exact hle, ?_⟩
  rw [← hd]
  conv_lhs => rw [← take_append_drop j c.data]
  refine dropWhile_append_of_pos fun x hx => ?_
  obtain ⟨i, hi, rfl⟩ := mem_iff_getElem.mp hx
  rw [length_take] at hi
  simpa using (lt_below_iff (i := i) (by omega)).mp (hlt i (by omega))

theorem openAt : c.Open k := by
  have : c.maxKey = none := h.maxKey.resolve_right (by simp)
  simp [Open, this]

omit h in
/-- After a seek the entries from the target on are to be read. -/
theorem of_finishSeek (hD : c.data = D) (hm : c.scanMode ≠ .backward) (hk : c.maxKey = none) :
    ∃ c', (c.internalSeek k).finishSeek k = .ok (c'.valid, c') ∧
      c'.Reads D (D.dropWhile (·.1 < k)) := by
  have hrest : (c.internalSeek k).rest = D.dropWhile (·.1 < k) := by rw [rest_internalSeek, hD]
  rw [finishSeek]
  by_cases hv : (c.internalSeek k).valid = true
  · exact ⟨c.internalSeek k, by rw [if_pos hv, hv], hD, hm, hrest, Or.inl hk⟩
  · have hnil : D.dropWhile (fun x => decide (x.1 < k)) = [] := by
      by_contra hne
      exact hv (valid_iff_rest_ne_nil.mpr (by rwa [hrest]))
    have hdata : ((c.internalSeek k).recordMax k).data = D ∧
        ((c.internalSeek k).recordMax k).scanMode ≠ .backward := by
      rw [recordMax]
      split <;> exact ⟨hD, hm⟩
    refine ⟨(c.internalSeek k).recordMax k, ?_, hdata.1, hdata.2, by rw [rest_recordMax, hrest],
      Or.inr hnil⟩
    rw [if_neg hv, valid_recordMax, (Bool.not_eq_true _).mp hv]

theorem seek (hk : e.1 ≤ k) :
    ∃ c', c.seek k = .ok (c'.valid, c') ∧ c'.Reads D ((e :: l).dropWhile (·.1 < k)) := by
  rw [seek_eq h.mode h.openAt (h.le_below hk).1, ← (h.le_below hk).2, h.data]
  exact of_finishSeek h.data h.mode (h.maxKey.resolve_right (by simp))

theorem nearSeek (hk : e.1 ≤ k) :
    ∃ c', c.nearSeek k = .ok (c'.valid, c') ∧ c'.Reads D ((e :: l).dropWhile (·.1 < k)) := by
  rw [nearSeek_eq h.mode h.openAt (h.le_below hk).1, ← (h.le_below hk).2, h.data]
  exact of_finishSeek h.data h.mode (h.maxKey.resolve_right (by simp))

theorem internalSeek (hk : e.1 ≤ k) :
    (c.internalSeek k).Reads D ((e :: l).dropWhile (·.1 < k)) where
  data := h.data
  mode := h.mode
  rest := by rw [rest_internalSeek, (h.le_below hk).2]
  maxKey := Or.inl (h.maxKey.resolve_right (by simp))

end

end Reads

/-- A cursor that has not been positioned yet. -/
structure Fresh (c : Cursor κ α) (D : List (κ × α)) : Prop where
  data : c.data = D
  mode : c.scanMode ≠ .backward
  pos : c.pos = none
  maxKey : c.maxKey = none

namespace Fresh

variable {D : List (κ × α)}

section

variable (h : c.Fresh D)
include h

theorem notPast : c.NotPast k := fun _ i hi => by
  rw [h.pos] at hi
  cases hi

theorem openAt : c.Open k := by simp [Open, h.maxKey]

theorem seek :
    ∃ c', c.seek k = .ok (c'.valid, c') ∧ c'.Reads D (D.dropWhile (·.1 < k)) := by
  rw [seek_eq h.mode h.openAt h.notPast]
  exact Reads.of_finishSeek h.data h.mode h.maxKey

theorem nearSeek :
    ∃ c', c.nearSeek k = .ok (c'.valid, c') ∧ c'.Reads D (D.dropWhile (·.1 < k)) := by
  rw [nearSeek_eq h.mode h.openAt h.notPast]
  exact Reads.of_finishSeek h.data h.mode h.maxKey

theorem seekToFirst : c.seekToFirst.Reads D D where
  data := h.data
  mode := h.mode
  rest := by
    rw [Cursor.seekToFirst, rest_goto, drop_zero, h.data]
  maxKey := Or.inl h.maxKey

end

end Fresh

/-! ### Reading towards smaller keys -/

theorem current_eq_head?_back : c.current = c.back.head? := by
  cases h : c.pos with
  | none => simp [current, back, h]
  | some i => simp [current, back, h, getLast?_take]

theorem back_gotoPred (hi : i ≤ c.data.length) : (c.gotoPred i).back = (c.data.take i).reverse := by
  cases i with
  | zero => rfl
  | succ i =>
    have hp : (c.gotoPred (i + 1)).pos = some ⟨i, hi⟩ := posOf_of_lt hi
    rw [back, hp]
    rfl

theorem reverse_take_succ_tail (j : Fin c.data.length) :
    (c.data.take (j + 1)).reverse = c.data.get j :: (c.data.take j).reverse := by
  simp

theorem back_prev : c.prev.back = c.back.tail := by
  cases h : c.pos with
  | none => simp [prev, back, h]
  | some i =>
    have hp : c.prev = c.gotoPred i := by
      rw [prev, h]
      rfl
    rw [hp, back_gotoPred i.isLt.le, back, h, elim_some, reverse_take_succ_tail,
      tail_cons]

theorem valid_iff_back_ne_nil : c.valid = true ↔ c.back ≠ [] := by
  cases h : c.pos with
  | none => simp [valid, back, h]
  | some i => simp [valid, back, h, ne_nil_of_length_pos (Fin.pos i)]

theorem back_internalSeekForPrev :
    (c.internalSeekForPrev k).back = (c.data.takeWhile (·.1 ≤ k)).reverse := by
  rw [internalSeekForPrev, back_gotoPred upTo_le_length]
  congr 1
  exact (congrArg _ takeWhile_append_dropWhile.symm).trans take_left

/-- The cursor reads the entries `D` towards smaller keys and `l` is what it has still to
read. -/
structure ReadsBack (c : Cursor κ α) (D l : List (κ × α)) : Prop where
  data : c.data = D
  mode : c.scanMode = .mixed
  maxKey : c.maxKey = none
  back : c.back = l

namespace ReadsBack

variable {D l : List (κ × α)} {e : κ × α}

theorem current (h : c.ReadsBack D l) : c.current = l.head? := by
  rw [current_eq_head?_back, h.back]

theorem valid_iff (h : c.ReadsBack D l) : c.valid = true ↔ l ≠ [] := by
  rw [valid_iff_back_ne_nil, h.back]

theorem prev (h : c.ReadsBack D l) : c.prev.ReadsBack D l.tail where
  data := h.data
  mode := h.mode
  maxKey := h.maxKey
  back := by rw [back_prev, h.back]

theorem internalSeekForPrev (h : c.ReadsBack D l) (k : κ) :
    (c.internalSeekForPrev k).ReadsBack D (D.takeWhile (·.1 ≤ k)).reverse where
  data := h.data
  mode := h.mode
  maxKey := h.maxKey
  back := by rw [back_internalSeekForPrev, h.data]

end ReadsBack

theorem Reads.readsBack {D p r : List (κ × α)} {e : κ × α} (h : c.Reads D (e :: r))
    (hm : c.scanMode = .mixed) (hD : D = p ++ e :: r) : c.ReadsBack D (e :: p.reverse) := by
  obtain ⟨j, hj, hd, hg⟩ := h.exists_pos
  refine ⟨h.data, hm, h.maxKey.resolve_right (by simp), ?_⟩
  have hlen : (j : ℕ) = p.length := by
    have h₁ := congrArg List.length hd
    have h₂ := congrArg List.length (h.data.trans hD)
    simp at h₁ h₂
    omega
  rw [back, hj, elim_some, reverse_take_succ_tail, hg, hlen, h.data, hD, take_left]

/-- The entries at or below a key are those below it and the entry of the key, if any. -/
theorem takeWhile_le_cases {l : List (κ × α)} (hl : l.Pairwise fun a b => a.1 < b.1) (k : κ) :
    (∃ a, l.takeWhile (·.1 ≤ k) = l.takeWhile (·.1 < k) ++ [(k, a)]) ∨
      l.takeWhile (·.1 ≤ k) = l.takeWhile (·.1 < k) ∧ ∀ a, (k, a) ∉ l := by
  induction l with
  | nil => exact Or.inr ⟨rfl, by simp⟩
  | cons e l ih =>
    rw [pairwise_cons] at hl
    rcases lt_trichotomy e.1 k with h | h | h
    · rw [takeWhile_cons_of_pos (by simpa using h.le),
        takeWhile_cons_of_pos (by simpa using h)]
      refine (ih hl.2).imp (fun ⟨a, ha⟩ => ⟨a, by rw [ha]; rfl⟩) fun ⟨ha, hk⟩ => ⟨by rw [ha], ?_⟩
      intro a hmem
      rcases mem_cons.mp hmem with rfl | hmem'
      · exact lt_irrefl _ h
      · exact hk a hmem'
    · have hnil : l.takeWhile (fun x => x.1 ≤ k) = [] := by
        cases l with
        | nil => rfl
        | cons x l =>
          have := hl.1 x mem_cons_self
          exact takeWhile_cons_of_neg (by simpa [← h] using this)
      refine Or.inl ⟨e.2, ?_⟩
      rw [takeWhile_cons_of_pos (by simpa using h.le),
        takeWhile_cons_of_neg (by simp [h]), hnil, ← h]
      rfl
    · rw [takeWhile_cons_of_neg (by simpa using h),
        takeWhile_cons_of_neg (by simpa using h.le)]
      refine Or.inr ⟨rfl, fun a hmem => ?_⟩
      rcases mem_cons.mp hmem with rfl | hmem'
      · exact lt_irrefl _ h
      · exact lt_asymm h (hl.1 _ hmem')

theorem back_internalSeekForPrev_of_mem {a : α} (h : (k, a) ∈ c.data) :
    ∃ l, (c.internalSeekForPrev k).back = (k, a) :: l := by
  rw [back_internalSeekForPrev]
  rcases takeWhile_le_cases c.sorted k with ⟨b, hb⟩ | ⟨-, hk⟩
  · have hmem : (k, b) ∈ c.data :=
      (takeWhile_sublist _).subset (by rw [hb]; exact mem_append_right _ (by simp))
    rw [hb, keyed_unique (R := (· < ·)) lt_irrefl c.sorted h hmem, reverse_append]
    exact ⟨_, rfl⟩
  · exact absurd h (hk a)

/-- A cursor for reading towards smaller keys that has not been positioned yet. -/
structure FreshBack (c : Cursor κ α) (D : List (κ × α)) : Prop where
  data : c.data = D
  mode : c.scanMode = .mixed
  maxKey : c.maxKey = none
  minKey : c.minKey = none

namespace FreshBack

variable {D : List (κ × α)}

theorem seekToLast (h : c.FreshBack D) : c.seekToLast.ReadsBack D D.reverse where
  data := h.data
  mode := h.mode
  maxKey := h.maxKey
  back := by rw [Cursor.seekToLast, back_gotoPred le_rfl, take_length, h.data]

/-- What is still to be read backwards are the smaller keys. -/
theorem reverseSeek (h : c.FreshBack D) : ∃ found c', c.reverseSeek k = .ok (found, c') ∧
    c'.ReadsBack D (D.takeWhile (·.1 < k)).reverse := by
  have ho : c.OpenBelow k := by simp [OpenBelow, h.minKey]
  have hr : (c.internalSeekForPrev k).ReadsBack D (D.takeWhile (·.1 ≤ k)).reverse :=
    ⟨h.data, h.mode, h.maxKey, by rw [back_internalSeekForPrev, h.data]⟩
  have hD : D.Pairwise fun a b => a.1 < b.1 := h.data ▸ c.sorted
  rw [Cursor.reverseSeek, seekForPrev_eq h.mode ho, finishSeekForPrev]
  rcases takeWhile_le_cases hD k with ⟨a, ha⟩ | ⟨ha, hk⟩
  · -- The target itself is there and is stepped over.
    rw [ha, reverse_append] at hr
    have hv : (c.internalSeekForPrev k).valid = true := hr.valid_iff.mpr (by simp)
    have hkey : (c.internalSeekForPrev k).keyIs (fun x => decide (x = k)) = true := by
      rw [keyIs, hr.current]
      simp
    simp only [hv, if_true, ok_bind, hkey]
    exact ⟨_, _, rfl, hr.prev⟩
  · rw [ha] at hr
    by_cases hv : (c.internalSeekForPrev k).valid = true
    · have hkey : (c.internalSeekForPrev k).keyIs (fun x => decide (x = k)) = false := by
        rw [keyIs, hr.current]
        cases hh : (D.takeWhile fun x => x.1 < k).reverse with
        | nil => rfl
        | cons e l =>
          have he : e ∈ D.takeWhile fun x => x.1 < k := by
            rw [← mem_reverse, hh]
            exact mem_cons_self
          have hlt : e.1 < k := by simpa using mem_takeWhile_imp he
          simpa using hlt.ne
      simp only [hv, if_true, ok_bind, hkey]
      exact ⟨_, _, rfl, hr⟩
    · simp only [hv]
      refine ⟨_, _, rfl, ?_⟩
      rw [recordMin]
      split
      · exact hr
      · exact ⟨h.data, h.mode, h.maxKey, hr.back⟩

end FreshBack

end Cursor

end Tikv
