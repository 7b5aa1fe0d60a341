import Mathlib.Data.List.TakeWhile
import Tikv.TxnTypes

/-!
# Cursors over a sorted column family

`Cursor` is the wrapper every reader puts around an engine iterator: it remembers whether a
seek has run off the end of the data (`minKey`, `maxKey`) and, when the target is near,
replaces a seek by a bounded number of `next` or `prev` calls (`near_loop!`).

A cursor carries the sorted list of entries its iterator can see and the index of its position
in it (`goto`, `gotoPred`). The main result is that the near loop is invisible: however many
steps it takes, a near seek ends exactly where the engine's own seek does (`nearSeek_eq`,
`nearSeekForPrev_eq`).
-/

namespace Tikv

open Option

universe u v

/-- The direction a cursor is created for. -/
inductive ScanMode
  | forward
  | backward
  | mixed
  deriving DecidableEq

/-- `SEEK_BOUND`: how many steps are tried before a real seek. -/
def seekBound : ℕ := 8

/-- A cursor over the entries `data` of a column family. A valid position is an index into
`data`; `none` is an iterator that has run off either end, or has not been positioned. -/
structure Cursor (κ : Type u) (α : Type v) [LinearOrder κ] where
  data : List (κ × α)
  sorted : data.Pairwise fun a b => a.1 < b.1
  pos : Option (Fin data.length) := none
  scanMode : ScanMode := .mixed
  prefixSeek : Bool := false
  /-- No entry is at or below this key. -/
  minKey : Option κ := none
  /-- No entry is at or above this key. -/
  maxKey : Option κ := none

namespace Cursor

variable {κ : Type u} {α : Type v} [LinearOrder κ] (c : Cursor κ α)

/-- `Cursor::valid`. -/
def valid : Bool := c.pos.isSome

/-- The entry under the cursor. -/
def current : Option (κ × α) := c.pos.map c.data.get

/-! ### The engine iterator -/

/-- The position `i`, if it is inside the data. -/
def posOf {β : Type*} (data : List β) (i : ℕ) : Option (Fin data.length) :=
  if h : i < data.length then some ⟨i, h⟩ else none

/-- Move to the next entry. -/
def next : Cursor κ α :=
  { c with pos := c.pos.bind fun i => posOf c.data (i + 1) }

/-- Move to the previous entry. -/
def prev : Cursor κ α :=
  { c with pos := c.pos.bind fun i => if i.1 = 0 then none else posOf c.data (i.1 - 1) }

/-- How many entries are below `k`. -/
def below (k : κ) : ℕ := (c.data.takeWhile (·.1 < k)).length

/-- How many entries are at or below `k`. -/
def upTo (k : κ) : ℕ := (c.data.takeWhile (·.1 ≤ k)).length

/-- Put the iterator on the entry with index `i`, or off the end. -/
def goto (i : ℕ) : Cursor κ α := { c with pos := posOf c.data i }

/-- Put the iterator on the entry before the index `i`, or off the start. -/
def gotoPred (i : ℕ) : Cursor κ α :=
  { c with pos := if i = 0 then none else posOf c.data (i - 1) }

/-- Move to the first entry at or above `k`. -/
def internalSeek (k : κ) : Cursor κ α := c.goto (c.below k)

/-- Move to the last entry at or below `k`. -/
def internalSeekForPrev (k : κ) : Cursor κ α := c.gotoPred (c.upTo k)

/-- Move to the first entry. -/
def seekToFirst : Cursor κ α := c.goto 0

/-- Move to the last entry. -/
def seekToLast : Cursor κ α := c.gotoPred c.data.length

/-! ### Seeks towards larger keys -/

/-- Remember that a seek of `k` found nothing. A prefix seek that finds nothing has only left
its key prefix, so it is not remembered. -/
def recordMax (k : κ) : Cursor κ α :=
  if c.prefixSeek then c else { c with maxKey := some k }

/-- Whether the current entry satisfies `p`. -/
def keyIs (p : κ → Bool) : Bool := c.current.any fun e => p e.1

/-- `Cursor::seek`. -/
def seek (k : κ) : Except Panic (Bool × Cursor κ α) :=
  if c.scanMode = .backward then .error .scanMode
  else if c.maxKey.any (· ≤ k) then .ok (false, c)
  else if c.scanMode = .forward ∧ c.keyIs (k ≤ ·) then .ok (true, c)
  else
    let c := c.internalSeek k
    if c.valid then .ok (true, c) else .ok (false, c.recordMax k)

/-- `near_loop!` with `next`: step while the key is below `k`, at most `n` times. The flag is
set when the bound was used up. -/
def nearNext (k : κ) : ℕ → Cursor κ α → Bool × Cursor κ α
  | 0, c => (true, c)
  | n + 1, c => if c.next.keyIs (· < k) then nearNext k n c.next else (false, c.next)

/-- `near_loop!` with `prev`: step while the key is above `k`, at most `n` times. -/
def nearPrev (k : κ) : ℕ → Cursor κ α → Bool × Cursor κ α
  | 0, c => (true, c)
  | n + 1, c => if c.prev.keyIs (k < ·) then nearPrev k n c.prev else (false, c.prev)

/-- The common end of `near_seek`. -/
def finishSeek (k : κ) : Except Panic (Bool × Cursor κ α) :=
  if c.valid then .ok (true, c) else .ok (false, c.recordMax k)

/-- `Cursor::near_seek`. -/
def nearSeek (k : κ) : Except Panic (Bool × Cursor κ α) :=
  if c.scanMode = .backward then .error .scanMode
  else match c.current with
    | none => c.seek k
    | some (ck, _) =>
      if ck = k ∨ c.scanMode = .forward ∧ k < ck then .ok (true, c)
      else if c.maxKey.any (· ≤ k) then .ok (false, c)
      else if k < ck then
        match c.nearPrev k seekBound with
        | (true, c) => c.seek k
        | (false, c) =>
          if c.valid then (if c.keyIs (· < k) then c.next else c).finishSeek k
          else if c.prefixSeek then c.seek k
          else if c.seekToFirst.valid then .ok (true, c.seekToFirst)
          else .error .seekToEnd
      else
        match c.nearNext k seekBound with
        | (true, c) => c.seek k
        | (false, c) => c.finishSeek k

/-! ### Seeks towards smaller keys -/

/-- Remember that a seek towards smaller keys from `k` found nothing. -/
def recordMin (k : κ) : Cursor κ α :=
  if c.prefixSeek then c else { c with minKey := some k }

/-- `Cursor::seek_for_prev`. -/
def seekForPrev (k : κ) : Except Panic (Bool × Cursor κ α) :=
  if c.scanMode = .forward then .error .scanMode
  else if c.minKey.any (k ≤ ·) then .ok (false, c)
  else if c.scanMode = .backward ∧ c.keyIs (· ≤ k) then .ok (true, c)
  else
    let c := c.internalSeekForPrev k
    if c.valid then .ok (true, c) else .ok (false, c.recordMin k)

/-- The common end of `near_seek_for_prev`. -/
def finishSeekForPrev (k : κ) : Except Panic (Bool × Cursor κ α) :=
  if c.valid then .ok (true, c) else .ok (false, c.recordMin k)

/-- `Cursor::near_seek_for_prev`. -/
def nearSeekForPrev (k : κ) : Except Panic (Bool × Cursor κ α) :=
  if c.scanMode = .forward then .error .scanMode
  else match c.current with
    | none => c.seekForPrev k
    | some (ck, _) =>
      if ck = k ∨ c.scanMode = .backward ∧ ck < k then .ok (true, c)
      else if c.minKey.any (k ≤ ·) then .ok (false, c)
      else if ck < k then
        match c.nearNext k seekBound with
        | (true, c) => c.seekForPrev k
        | (false, c) =>
          if c.valid then (if c.keyIs (k < ·) then c.prev else c).finishSeekForPrev k
          else if c.prefixSeek then c.seekForPrev k
          else if c.seekToLast.valid then .ok (true, c.seekToLast)
          else .error .seekToEnd
      else
        match c.nearPrev k seekBound with
        | (true, c) => c.seekForPrev k
        | (false, c) => c.finishSeekForPrev k

/-- `Cursor::reverse_seek`: the last entry strictly below `k`. -/
def reverseSeek (k : κ) : Except Panic (Bool × Cursor κ α) := do
  let (found, c) ← c.seekForPrev k
  if !found then return (false, c)
  if c.keyIs (· = k) then return (c.prev.valid, c.prev)
  return (true, c)

/-- `Cursor::get`. -/
def get {κ α : Type} [LinearOrder κ] (c : Cursor κ α) (k : κ) :
    Except Panic (Option α × Cursor κ α) := do
  let (found, c) ← if c.scanMode ≠ .backward then c.nearSeek k else c.nearSeekForPrev k
  match c.current with
  | some e => return (if found ∧ e.1 = k then some e.2 else none, c)
  | none => return (none, c)

/-! ### Positions -/

theorem posOf_of_lt {β : Type*} {data : List β} {i : ℕ} (h : i < data.length) :
    posOf data i = some ⟨i, h⟩ := dif_pos h

theorem posOf_of_le {β : Type*} {data : List β} {i : ℕ} (h : data.length ≤ i) :
    posOf data i = none := dif_neg (not_lt.mpr h)

variable {p : κ → Bool}

/-- An initial segment cut at a downward closed condition: an index is inside it exactly when
its entry satisfies the condition. -/
private theorem lt_length_takeWhile_iff {l : List (κ × α)} (hl : l.Pairwise fun a b => a.1 < b.1)
    (hp : ∀ a b, a < b → p b = true → p a = true) {i : ℕ} (hi : i < l.length) :
    i < (l.takeWhile fun e => p e.1).length ↔ p (l.get ⟨i, hi⟩).1 = true := by
  induction l generalizing i with
  | nil => simp at hi
  | cons e l ih =>
    rw [List.pairwise_cons] at hl
    rw [List.takeWhile_cons]
    cases he : p e.1 with
    | true =>
      cases i with
      | zero => simp [he]
      | succ i =>
        have := ih hl.2 (i := i) (by simpa using hi)
        simpa using this
    | false =>
      cases i with
      | zero => simp [he]
      | succ i =>
        -- A later entry is above `e`, so it fails the condition as well.
        have hlt : e.1 < (l.get ⟨i, by simpa using hi⟩).1 := hl.1 _ (List.get_mem _ _)
        have hn : p (l.get ⟨i, by simpa using hi⟩).1 ≠ true := fun h => by
          simp [hp _ _ hlt h] at he
        simpa using hn

variable {c : Cursor κ α} {k : κ} {i : ℕ}

theorem lt_below_iff (hi : i < c.data.length) : i < c.below k ↔ (c.data.get ⟨i, hi⟩).1 < k := by
  rw [below, lt_length_takeWhile_iff (p := fun a => a < k) c.sorted ?_ hi]
  · simp
  · intro a b hab hb
    simpa using hab.trans (by simpa using hb)

theorem lt_upTo_iff (hi : i < c.data.length) : i < c.upTo k ↔ (c.data.get ⟨i, hi⟩).1 ≤ k := by
  rw [upTo, lt_length_takeWhile_iff (p := fun a => a ≤ k) c.sorted ?_ hi]
  · simp
  · intro a b hab hb
    simpa using hab.le.trans (by simpa using hb)

theorem below_le_length : c.below k ≤ c.data.length := (List.takeWhile_prefix _).length_le

theorem upTo_le_length : c.upTo k ≤ c.data.length := (List.takeWhile_prefix _).length_le

theorem goto_of_pos {j : Fin c.data.length} (h : c.pos = some j) : c.goto j = c := by
  have hp : posOf c.data j = c.pos := by rw [h, posOf_of_lt j.isLt]
  rw [goto, hp]

theorem pos_goto (h : i < c.data.length) : (c.goto i).pos = some ⟨i, h⟩ := posOf_of_lt h

theorem next_goto : (c.goto i).next = c.goto (i + 1) := by
  rcases lt_or_ge i c.data.length with h | h
  · simp [goto, next, posOf_of_lt h]
  · simp [goto, next, posOf_of_le h, posOf_of_le (h.trans (Nat.le_succ i))]

theorem prev_goto (h : i < c.data.length) : (c.goto i).prev = c.gotoPred i := by
  simp [goto, prev, gotoPred, posOf_of_lt h]

theorem keyIs_goto (h : i < c.data.length) :
    (c.goto i).keyIs p = p (c.data.get ⟨i, h⟩).1 := by
  simp [keyIs, current, goto, posOf_of_lt h]

theorem keyIs_lt_goto : (c.goto i).keyIs (· < k) = decide (i < c.below k) := by
  rcases lt_or_ge i c.data.length with h | h
  · rw [keyIs_goto h, decide_eq_decide, lt_below_iff h]
  · have := below_le_length (c := c) (k := k)
    simp [keyIs, current, goto, posOf_of_le h]
    omega

theorem keyIs_gt_goto (h : i < c.data.length) :
    (c.goto i).keyIs (k < ·) = decide (c.upTo k ≤ i) := by
  rw [keyIs_goto h, decide_eq_decide, ← not_le, ← lt_upTo_iff h, not_lt]

theorem below_le_upTo : c.below k ≤ c.upTo k := by
  by_contra h
  have hi : c.upTo k < c.data.length := by
    have := below_le_length (c := c) (k := k)
    omega
  have h₁ := (lt_below_iff (k := k) hi).mp (by omega)
  exact lt_irrefl _ ((lt_upTo_iff hi).mpr h₁.le)

/-- Keys are distinct, so at most one entry separates the two bounds. -/
theorem upTo_le_below_succ : c.upTo k ≤ c.below k + 1 := by
  by_contra h
  have hl := upTo_le_length (c := c) (k := k)
  have h₁ := (lt_upTo_iff (c := c) (k := k) (i := c.below k + 1) (by omega)).mp (by omega)
  have h₂ : ¬ (c.data.get ⟨c.below k, by omega⟩).1 < k := fun hlt =>
    lt_irrefl _ ((lt_below_iff _).mpr hlt)
  have h₃ : (c.data.get ⟨c.below k, by omega⟩).1 < (c.data.get ⟨c.below k + 1, by omega⟩).1 :=
    List.pairwise_iff_getElem.mp c.sorted _ _ _ _ (Nat.lt_succ_self _)
  exact h₂ (h₃.trans_le h₁)

/-! ### The near loops -/

/-- Stepping forward from below the target ends on it, or uses up the bound. -/
theorem nearNext_goto {n : ℕ} (hi : i < c.below k) :
    (c.goto i).nearNext k n =
      if c.below k ≤ i + n then (false, c.goto (c.below k)) else (true, c.goto (i + n)) := by
  induction n generalizing i with
  | zero => simp [nearNext, hi]
  | succ n ih =>
    rw [nearNext, next_goto, keyIs_lt_goto]
    by_cases h : i + 1 < c.below k
    · rw [if_pos (by simpa using h), ih h, show i + 1 + n = i + (n + 1) by omega]
    · rw [if_neg (by simpa using h), if_pos (by omega), show i + 1 = c.below k by omega]

/-- Stepping backward from above the target ends before it, or uses up the bound. -/
theorem nearPrev_goto {n : ℕ} (hi : c.upTo k ≤ i) (hl : i < c.data.length) :
    (c.goto i).nearPrev k n =
      if i < c.upTo k + n then (false, c.gotoPred (c.upTo k)) else (true, c.goto (i - n)) := by
  induction n generalizing i with
  | zero => simp [nearPrev, hi]
  | succ n ih =>
    rw [nearPrev, prev_goto hl]
    cases i with
    | zero =>
      have h0 : c.upTo k = 0 := by omega
      have hk : (c.gotoPred 0).keyIs (fun x => decide (k < x)) = false := by
        simp [keyIs, current, gotoPred]
      rw [hk, if_neg (by simp), if_pos (by omega), h0]
    | succ i =>
      have hg : c.gotoPred (i + 1) = c.goto i := by simp [gotoPred, goto]
      rw [hg, keyIs_gt_goto (by omega)]
      by_cases h : c.upTo k ≤ i
      · rw [if_pos (by simpa using h), ih h (by omega)]
        simp only [show i + 1 < c.upTo k + (n + 1) ↔ i < c.upTo k + n by omega,
          show i + 1 - (n + 1) = i - n by omega]
      · rw [if_neg (by simpa using h), if_pos (by omega), show c.upTo k = i + 1 by omega, hg]

/-! ### Near seeks are seeks -/

/-- The cursor has not run past the target: required of a forward cursor, which never moves
back. -/
def NotPast (c : Cursor κ α) (k : κ) : Prop :=
  c.scanMode = .forward → ∀ i, c.pos = some i → i ≤ c.below k

/-- No earlier seek has shown that nothing is at or above the target. -/
def Open (c : Cursor κ α) (k : κ) : Prop := ∀ m ∈ c.maxKey, k < m

theorem maxKey_any_of_open (h : c.Open k) : c.maxKey.any (· ≤ k) = false := by
  cases hm : c.maxKey with
  | none => rfl
  | some m => simpa using h m hm

section

variable (hb : c.scanMode ≠ .backward)
include hb

/-- A seek lands on the first entry at or above the target. -/
theorem seek_eq (ho : c.Open k) (hp : c.NotPast k) :
    c.seek k = (c.internalSeek k).finishSeek k := by
  rw [seek, if_neg hb, maxKey_any_of_open ho, if_neg (by simp)]
  split
  · rename_i h
    obtain ⟨hf, hk⟩ := h
    cases hpos : c.pos with
    | none => simp [keyIs, current, hpos] at hk
    | some j =>
      -- A forward cursor already at or above the target is exactly on it.
      have hle : c.below k ≤ j := by
        by_contra hlt
        have := (lt_below_iff (k := k) j.isLt).mp (by omega)
        rw [← goto_of_pos hpos, keyIs_goto j.isLt] at hk
        exact absurd this (not_lt.mpr (by simpa using hk))
      have hj : c.below k = j := le_antisymm hle (hp hf j hpos)
      rw [internalSeek, hj, goto_of_pos hpos, finishSeek, valid, hpos]
      rfl
  · rfl

omit hb in
theorem eq_of_pos_goto {j : Fin c.data.length} (h : (c.goto i).pos = some j) : i = j := by
  change posOf c.data i = some j at h
  rw [posOf] at h
  split_ifs at h
  exact congrArg Fin.val (some.inj h)

theorem seek_goto (ho : c.Open k) (hi : c.scanMode = .forward → i ≤ c.below k) :
    (c.goto i).seek k = (c.internalSeek k).finishSeek k := by
  refine seek_eq (c := c.goto i) hb ho fun hf j hj => ?_
  rw [← eq_of_pos_goto hj]
  exact hi hf

omit hb in
theorem valid_goto (h : i < c.data.length) : (c.goto i).valid = true := by
  rw [valid, pos_goto h]
  rfl

omit hb in
theorem finishSeek_goto (h : i < c.data.length) :
    (c.goto i).finishSeek k = .ok (true, c.goto i) := by
  rw [finishSeek, if_pos (valid_goto h)]

/-- `near_seek` after the loop over `prev` has left the larger keys. -/
theorem finish_nearPrev (ho : c.Open k) (hd : 0 < c.data.length) :
    (if (c.gotoPred (c.upTo k)).valid then
        (if (c.gotoPred (c.upTo k)).keyIs (· < k) then (c.gotoPred (c.upTo k)).next
          else c.gotoPred (c.upTo k)).finishSeek k
      else if (c.gotoPred (c.upTo k)).prefixSeek then (c.gotoPred (c.upTo k)).seek k
      else if (c.gotoPred (c.upTo k)).seekToFirst.valid then
        .ok (true, (c.gotoPred (c.upTo k)).seekToFirst)
      else .error .seekToEnd) = (c.internalSeek k).finishSeek k := by
  have h₁ := below_le_upTo (c := c) (k := k)
  have h₂ := upTo_le_below_succ (c := c) (k := k)
  have h₃ := upTo_le_length (c := c) (k := k)
  cases hu : c.upTo k with
  | zero =>
    have hb0 : c.below k = 0 := by omega
    have hf : (c.gotoPred 0).seekToFirst = c.goto 0 := rfl
    rw [if_neg (by simp [valid, gotoPred]), hf, if_pos (valid_goto hd)]
    split
    · exact seek_eq (c := c.gotoPred 0) hb ho fun _ j hj => by simp [gotoPred] at hj
    · rw [internalSeek, hb0, finishSeek_goto hd]
  | succ u =>
    have hg : c.gotoPred (u + 1) = c.goto u := rfl
    have hul : u < c.data.length := by omega
    rw [hg, keyIs_lt_goto, next_goto, if_pos (valid_goto hul), internalSeek]
    by_cases h : u < c.below k
    · rw [if_pos (by simpa using h), show c.below k = u + 1 by omega]
    · rw [if_neg (by simpa using h), show c.below k = u by omega]

/-- A near seek lands on the first entry at or above the target, as a seek does. -/
theorem nearSeek_eq (ho : c.Open k) (hp : c.NotPast k) :
    c.nearSeek k = (c.internalSeek k).finishSeek k := by
  rw [nearSeek, if_neg hb]
  cases hpos : c.pos with
  | none =>
    simp only [current, hpos]
    exact seek_eq hb ho hp
  | some j =>
    have hcur : c.current = some (c.data.get j) := by rw [current, hpos, map_some]
    have hc : c.goto j = c := goto_of_pos hpos
    have hlb : j < c.below k ↔ (c.data.get j).1 < k := lt_below_iff j.isLt
    have hub : j < c.upTo k ↔ (c.data.get j).1 ≤ k := lt_upTo_iff j.isLt
    have hbu := below_le_upTo (c := c) (k := k)
    have hub' := upTo_le_below_succ (c := c) (k := k)
    have hland : c.below k = j → (c.internalSeek k).finishSeek k = .ok (true, c) := by
      intro h
      rw [internalSeek, h, finishSeek_goto j.isLt, hc]
    simp only [hcur, maxKey_any_of_open ho]
    generalize (c.data.get j).1 = ck at *
    rcases lt_trichotomy ck k with hlt | heq | hgt
    · have hj : j < c.below k := hlb.mpr hlt
      rw [if_neg (by simp [hlt.ne, hlt.le]), if_neg (not_lt.mpr hlt.le)]
      have hnn := nearNext_goto (n := seekBound) hj
      rw [hc] at hnn
      rw [hnn]
      by_cases h : c.below k ≤ j + seekBound
      · simp only [if_pos h]
        rfl
      · simp only [if_neg h]
        exact seek_goto hb ho fun _ => by omega
    · have h₁ : j < c.upTo k := hub.mpr heq.le
      have h₂ : ¬ j < c.below k := fun h => absurd (hlb.mp h) (heq ▸ lt_irrefl _)
      rw [if_pos (Or.inl heq), hland (by omega)]
    · have hj : ¬ j < c.upTo k := fun h => absurd (hub.mp h) (not_le.mpr hgt)
      by_cases hf : c.scanMode = .forward
      · have := hp hf j hpos
        rw [if_pos (Or.inr ⟨hf, hgt⟩), hland (by omega)]
      · rw [if_neg (by simp [hgt.ne', hf]), if_pos hgt]
        have hnp := nearPrev_goto (n := seekBound) (not_lt.mp hj) j.isLt
        rw [hc] at hnp
        rw [hnp]
        by_cases h : j < c.upTo k + seekBound
        · simp only [if_pos h]
          exact finish_nearPrev hb ho (by omega)
        · simp only [if_neg h]
          exact seek_goto hb ho fun hf' => absurd hf' hf

end

/-! ### Near seeks towards smaller keys are seeks -/

/-- No earlier seek has shown that nothing is at or below the target. -/
def OpenBelow (c : Cursor κ α) (k : κ) : Prop := ∀ m ∈ c.minKey, m < k

theorem minKey_any_of_openBelow (h : c.OpenBelow k) : c.minKey.any (k ≤ ·) = false := by
  cases hm : c.minKey with
  | none => rfl
  | some m => simpa using h m hm

theorem seekForPrev_eq (hm : c.scanMode = .mixed) (ho : c.OpenBelow k) :
    c.seekForPrev k = (c.internalSeekForPrev k).finishSeekForPrev k := by
  rw [seekForPrev, hm, if_neg (by simp), minKey_any_of_openBelow ho, if_neg (by simp),
    if_neg (by simp)]
  rfl

/-- `near_seek_for_prev` after the loop over `next` has left the smaller keys. -/
theorem finish_nearNext (hm : c.scanMode = .mixed) (ho : c.OpenBelow k)
    (hd : 0 < c.data.length) :
    (if (c.goto (c.below k)).valid then
        (if (c.goto (c.below k)).keyIs (k < ·) then (c.goto (c.below k)).prev
          else c.goto (c.below k)).finishSeekForPrev k
      else if (c.goto (c.below k)).prefixSeek then (c.goto (c.below k)).seekForPrev k
      else if (c.goto (c.below k)).seekToLast.valid then
        .ok (true, (c.goto (c.below k)).seekToLast)
      else .error .seekToEnd) = (c.internalSeekForPrev k).finishSeekForPrev k := by
  have h₁ := below_le_upTo (c := c) (k := k)
  have h₂ := upTo_le_below_succ (c := c) (k := k)
  have h₃ := upTo_le_length (c := c) (k := k)
  rcases Nat.lt_or_ge (c.below k) c.data.length with hl | hl
  · rw [if_pos (valid_goto hl), keyIs_gt_goto hl, prev_goto hl, internalSeekForPrev]
    by_cases h : c.upTo k ≤ c.below k
    · rw [if_pos (by simpa using h), show c.upTo k = c.below k by omega]
    · rw [if_neg (by simpa using h), show c.upTo k = c.below k + 1 by omega]
      rfl
  · -- Every entry is below the target.
    have hu : c.upTo k = c.data.length := by omega
    obtain ⟨n, hn⟩ : ∃ n, c.data.length = n + 1 := ⟨c.data.length - 1, by omega⟩
    have hlast : (c.goto (c.below k)).seekToLast = c.goto n := by
      change c.gotoPred c.data.length = c.goto n
      rw [hn]
      rfl
    have hinv : ¬ (c.goto (c.below k)).valid = true := by
      change ¬ (posOf c.data (c.below k)).isSome = true
      rw [posOf_of_le hl]
      simp
    rw [if_neg hinv, hlast, if_pos (valid_goto (by omega))]
    split
    · exact seekForPrev_eq (c := c.goto (c.below k)) hm ho
    · have hg : c.internalSeekForPrev k = c.goto n := by
        rw [internalSeekForPrev, hu, hn]
        rfl
      rw [hg, finishSeekForPrev, if_pos (valid_goto (by omega))]

/-- A near seek towards smaller keys lands where a seek does. -/
theorem nearSeekForPrev_eq (hm : c.scanMode = .mixed) (ho : c.OpenBelow k) :
    c.nearSeekForPrev k = (c.internalSeekForPrev k).finishSeekForPrev k := by
  rw [nearSeekForPrev, hm, if_neg (by simp)]
  cases hpos : c.pos with
  | none =>
    simp only [current, hpos]
    exact seekForPrev_eq hm ho
  | some j =>
    have hcur : c.current = some (c.data.get j) := by rw [current, hpos, map_some]
    have hc : c.goto j = c := goto_of_pos hpos
    have hlb : j < c.below k ↔ (c.data.get j).1 < k := lt_below_iff j.isLt
    have hub : j < c.upTo k ↔ (c.data.get j).1 ≤ k := lt_upTo_iff j.isLt
    have hub' := upTo_le_below_succ (c := c) (k := k)
    have hseek : ∀ i, (c.goto i).seekForPrev k = (c.internalSeekForPrev k).finishSeekForPrev k :=
      fun i => seekForPrev_eq (c := c.goto i) hm ho
    simp only [hcur, minKey_any_of_openBelow ho]
    generalize (c.data.get j).1 = ck at *
    rcases lt_trichotomy ck k with hlt | heq | hgt
    · rw [if_neg (by simp [hlt.ne]), if_pos hlt]
      have hnn := nearNext_goto (n := seekBound) (hlb.mpr hlt)
      rw [hc] at hnn
      rw [hnn]
      by_cases h : c.below k ≤ j + seekBound
      · simp only [if_pos h]
        exact finish_nearNext hm ho (by omega)
      · simp only [if_neg h]
        exact hseek _
    · have h₁ : j < c.upTo k := hub.mpr heq.le
      have h₂ : ¬ j < c.below k := fun h => absurd (hlb.mp h) (heq ▸ lt_irrefl _)
      have hg : c.internalSeekForPrev k = c := by
        rw [internalSeekForPrev, show c.upTo k = j + 1 by omega]
        exact hc
      rw [if_pos (Or.inl heq), hg, finishSeekForPrev, valid, hpos]
      rfl
    · have hj : ¬ j < c.upTo k := fun h => absurd (hub.mp h) (not_le.mpr hgt)
      rw [if_neg (by simp [hgt.ne']), if_neg (not_lt.mpr hgt.le)]
      have hnp := nearPrev_goto (n := seekBound) (not_lt.mp hj) j.isLt
      rw [hc] at hnp
      rw [hnp]
      by_cases h : j < c.upTo k + seekBound
      · simp only [if_pos h]
        rfl
      · simp only [if_neg h]
        exact hseek _

end Cursor

end Tikv
