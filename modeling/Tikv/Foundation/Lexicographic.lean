import Mathlib.Data.List.Basic
import Mathlib.Order.Nat

/-!
# Lexicographic comparison of lists cut into blocks

`compare` on lists is lexicographic, a proper prefix first. For lists put together from blocks:

* blocks of equal length are compared before what follows them (`compare_append`);
* an order-reversing map reverses the comparison of lists of equal length
  (`compare_map_of_reversing`);
* lists padded to one length with a least element compare like the lists themselves, once
  their lengths break the tie (`compare_pad`).

A `BlockCode` writes a list block by block, and only the last block is shorter than the others.
`BlockCode.encode` keeps the order of the encoded lists, whatever follows the code words
(`compare_encode_append`); it is injective and no code word is a prefix of another one.
-/

namespace Tikv

open List Ordering

universe u v

variable {α : Type u} [Ord α]

/-! ### Blocks of equal length -/

theorem compare_append {u v x y : List α} (h : u.length = v.length) :
    compare (u ++ x) (v ++ y) = (compare u v).then (compare x y) := by
  induction u generalizing v with
  | nil =>
    rw [length_nil, eq_comm, length_eq_zero_iff] at h
    subst h
    rfl
  | cons a u ih =>
    obtain ⟨b, v, rfl⟩ := exists_cons_of_length_eq_add_one h.symm
    have hlen : u.length = v.length := by simpa using h
    simp only [cons_append, List.compare_cons_cons, ih hlen, then_assoc]

theorem compare_map_of_reversing {f : α → α} (hf : ∀ a b, compare (f a) (f b) = compare b a)
    {u v : List α} (h : u.length = v.length) : compare (u.map f) (v.map f) = compare v u := by
  induction u generalizing v with
  | nil =>
    rw [length_nil, eq_comm, length_eq_zero_iff] at h
    subst h
    rfl
  | cons a u ih =>
    obtain ⟨b, v, rfl⟩ := exists_cons_of_length_eq_add_one h.symm
    have hlen : u.length = v.length := by simpa using h
    simp only [map_cons, List.compare_cons_cons, ih hlen, hf]

/-! ### Padding -/

section Pad

variable {bot : α}

theorem compare_replicate_bot_then_lt (hbot : ∀ a, compare bot a ≠ .gt) (v : List α) :
    (compare (List.replicate v.length bot) v).then .lt = .lt := by
  induction v with
  | nil => rfl
  | cons a v ih =>
    simp only [length_cons, replicate_succ, List.compare_cons_cons,
      then_assoc, ih]
    cases h : compare bot a <;> simp_all

/-- Padded to one length, lists compare like themselves once the lengths break the tie. -/
theorem compare_pad [Std.OrientedOrd α] (hbot : ∀ a, compare bot a ≠ .gt) {n : ℕ} {u v : List α}
    (hu : u.length ≤ n) (hv : v.length ≤ n) :
    (compare (u ++ List.replicate (n - u.length) bot)
      (v ++ List.replicate (n - v.length) bot)).then (compare u.length v.length) =
    compare u v := by
  induction n generalizing u v with
  | zero =>
    rw [Nat.le_zero, length_eq_zero_iff] at hu hv
    subst hu hv
    rfl
  | succ n ih =>
    match u, v with
    | [], [] => simp
    | [], b :: v =>
      -- The shorter list is padded with least elements: it is below, or its length decides.
      have hlen : n + 1 = ((b :: v) ++ List.replicate (n + 1 - (b :: v).length) bot).length := by
        simp only [length_append, length_replicate]
        omega
      have hlt : compare ([] : List α).length (b :: v).length = .lt := by
        simp [Nat.compare_eq_lt]
      rw [hlt, nil_append, length_nil, Nat.sub_zero]
      nth_rewrite 1 [hlen]
      rw [compare_replicate_bot_then_lt hbot, List.compare_nil_cons]
    | a :: u, [] =>
      have hlen : n + 1 = ((a :: u) ++ List.replicate (n + 1 - (a :: u).length) bot).length := by
        simp only [length_append, length_replicate]
        omega
      have := congrArg Ordering.swap (compare_replicate_bot_then_lt hbot
        ((a :: u) ++ List.replicate (n + 1 - (a :: u).length) bot))
      rw [Ordering.swap_then, ← Std.OrientedOrd.eq_swap, ← hlen] at this
      exact this
    | a :: u, b :: v =>
      have := ih (u := u) (v := v) (by simpa using hu) (by simpa using hv)
      have hcmp : compare (a :: u).length (b :: v).length = compare u.length v.length := by
        simp [Nat.compare_eq_ite_lt]
      simp only [length_cons, Nat.add_sub_add_right, cons_append,
        List.compare_cons_cons, Ordering.then_assoc] at this ⊢
      rw [← this]
      congr 2

end Pad

/-! ### A list shorter than a block -/

theorem compare_append_of_length_lt {u p : List α} (h : u.length < p.length) (q : List α) :
    compare u (p ++ q) = compare u p := by
  induction u generalizing p with
  | nil =>
    obtain ⟨b, p, rfl⟩ := exists_cons_of_length_pos h
    rfl
  | cons a u ih =>
    obtain ⟨b, p, rfl⟩ := exists_cons_of_length_pos (Nat.zero_lt_of_lt h)
    have hlen : u.length < p.length := by simpa using h
    simp only [cons_append, List.compare_cons_cons, ih hlen]

/-! ### Ascending and descending comparison -/

/-- The comparison in ascending or, if `desc`, in descending order. -/
def compareDir (desc : Bool) (u v : List α) : Ordering :=
  if desc then compare v u else compare u v

variable {desc : Bool} {u v x y : List α}

theorem compareDir_append (h : u.length = v.length) :
    compareDir desc (u ++ x) (v ++ y) = (compareDir desc u v).then (compareDir desc x y) := by
  cases desc
  · exact compare_append h
  · exact compare_append h.symm

theorem compareDir_swap [Std.OrientedOrd α] : compareDir desc u v = (compareDir desc v u).swap := by
  cases desc <;> exact Std.OrientedOrd.eq_swap

theorem compareDir_append_of_length_lt [Std.OrientedOrd α] (h : u.length < v.length)
    (q : List α) : compareDir desc u (v ++ q) = compareDir desc u v := by
  cases desc
  · exact compare_append_of_length_lt h q
  · change compare (v ++ q) u = compare v u
    rw [Std.OrientedOrd.eq_swap, compare_append_of_length_lt h, ← Std.OrientedOrd.eq_swap]

theorem compareDir_eq_eq [Std.LawfulEqOrd α] : compareDir desc u v = .eq ↔ u = v := by
  cases desc
  · exact Std.compare_eq_iff_eq
  · exact Std.compare_eq_iff_eq.trans eq_comm

/-! ### Codes that work block by block -/

/-- A code for lists of at most `size` elements, with code words of one length. -/
structure BlockCode (α : Type u) (β : Type v) where
  size : ℕ
  width : ℕ
  block : List α → List β
  size_pos : 0 < size
  length_block : ∀ u, u.length ≤ size → (block u).length = width

namespace BlockCode

variable {β : Type v} (c : BlockCode α β)

/-- The code of a list: full blocks, then the block of the rest, which is short and may be
empty. -/
def encode (l : List α) : List β :=
  if l.length < c.size then c.block l
  else c.block (l.take c.size) ++ encode (l.drop c.size)
termination_by l.length
decreasing_by
  have := c.size_pos
  rw [List.length_drop]
  omega

omit [Ord α] in
theorem encode_of_lt {l : List α} (h : l.length < c.size) : c.encode l = c.block l := by
  rw [encode, if_pos h]

omit [Ord α] in
theorem encode_append {p : List α} (hp : p.length = c.size) (l : List α) :
    c.encode (p ++ l) = c.block p ++ c.encode l := by
  rw [encode, if_neg (by simp [hp]), ← hp, take_left, drop_left]

omit [Ord α] in
/-- A list is shorter than a block or begins with one; the induction that `encode` follows. -/
theorem block_induction {motive : List α → Prop}
    (short : ∀ l : List α, l.length < c.size → motive l)
    (full : ∀ p l : List α, p.length = c.size → motive l → motive (p ++ l)) (l : List α) :
    motive l := by
  induction hn : l.length using Nat.strongRecOn generalizing l with
  | ind n ih =>
    by_cases h : l.length < c.size
    · exact short l h
    · have hpos := c.size_pos
      rw [← take_append_drop c.size l]
      apply full _ _ (by rw [length_take]; omega)
      exact ih _ (by rw [length_drop]; omega) _ rfl

section Order

variable [Ord β] [Std.LawfulEqOrd α] [Std.OrientedOrd α] {c}
  (hblock : ∀ u v : List α, u.length ≤ c.size → v.length ≤ c.size →
    compare (c.block u) (c.block v) = compareDir desc u v)

include hblock

/-- Against a list that has a full block, a short list is decided by that block. -/
theorem compare_block_append_of_lt {p : List α} (hu : u.length < c.size)
    (hp : p.length = c.size) (l : List α) (x y : List β) :
    compare (c.block u ++ x) (c.block p ++ y) = compareDir desc u (p ++ l) := by
  have hlen : u.length < p.length := hp ▸ hu
  have hne : compareDir desc u p ≠ .eq := by
    intro h
    rw [compareDir_eq_eq.mp h] at hlen
    exact absurd hlen (lt_irrefl _)
  rw [compare_append (by rw [c.length_block _ hu.le, c.length_block _ hp.le]),
    hblock _ _ hu.le hp.le, compareDir_append_of_length_lt hlen]
  cases h : compareDir desc u p <;> simp_all

/-- The code keeps the order, and what follows decides only between equal lists. -/
theorem compare_encode_append [Std.OrientedOrd β] (u v : List α) (x y : List β) :
    compare (c.encode u ++ x) (c.encode v ++ y) =
      (compareDir desc u v).then (compare x y) := by
  induction u using c.block_induction generalizing v with
  | short u hu =>
    rw [c.encode_of_lt hu]
    induction v using c.block_induction with
    | short v hv =>
      rw [c.encode_of_lt hv,
        compare_append (by rw [c.length_block _ hu.le, c.length_block _ hv.le]),
        hblock _ _ hu.le hv.le]
    | full q v hq _ =>
      rw [c.encode_append hq, append_assoc, compare_block_append_of_lt hblock hu hq v]
      have hne : compareDir desc u (q ++ v) ≠ .eq := by
        intro h
        have := congrArg List.length (compareDir_eq_eq.mp h)
        rw [length_append] at this
        omega
      cases h : compareDir desc u (q ++ v) <;> simp_all
  | full p u hp ih =>
    rw [c.encode_append hp, append_assoc]
    induction v using c.block_induction with
    | short v hv =>
      rw [c.encode_of_lt hv, Std.OrientedOrd.eq_swap,
        compare_block_append_of_lt hblock hv hp u, ← compareDir_swap]
      have hne : compareDir desc (p ++ u) v ≠ .eq := by
        intro h
        have := congrArg List.length (compareDir_eq_eq.mp h)
        rw [length_append] at this
        omega
      cases h : compareDir desc (p ++ u) v <;> simp_all
    | full q v hq _ =>
      rw [c.encode_append hq, append_assoc,
        compare_append (by rw [c.length_block _ hp.le, c.length_block _ hq.le]),
        hblock _ _ hp.le hq.le, ih, compareDir_append (hp.trans hq.symm), then_assoc]

end Order

end BlockCode

end Tikv
