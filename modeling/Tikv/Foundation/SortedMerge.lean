import Mathlib.Order.Lattice

/-!
# Merging two sorted lists of entries

`merge xs ys` is the union of two lists of entries sorted by key, in key order: an entry of `xs`
hides the entry of `ys` with its key. A reader that wants only the first `n` entries of the union
needs only the first `n` entries of `ys` (`take_merge_take`).
-/

namespace Tikv.SortedMerge

open List

variable {K V : Type} [LinearOrder K]

/-- In strictly ascending key order. -/
def Sorted (l : List (K × V)) : Prop := l.Pairwise fun a b => a.1 < b.1

/-- The union, in key order; `xs` wins. -/
def merge : List (K × V) → List (K × V) → List (K × V)
  | [], ys => ys
  | x :: xs, [] => x :: xs
  | x :: xs, y :: ys =>
    if x.1 < y.1 then x :: merge xs (y :: ys)
    else if y.1 < x.1 then y :: merge (x :: xs) ys
    else x :: merge xs ys
termination_by xs ys => xs.length + ys.length

variable {x y e : K × V} {xs ys : List (K × V)} {k : K}

@[simp] theorem merge_nil_left (ys : List (K × V)) : merge [] ys = ys := by rw [merge]

@[simp] theorem merge_nil_right (xs : List (K × V)) : merge xs [] = xs := by
  cases xs with
  | nil | cons x xs => rw [merge]

theorem merge_of_lt (h : x.1 < y.1) : merge (x :: xs) (y :: ys) = x :: merge xs (y :: ys) := by
  rw [merge, if_pos h]

theorem merge_of_gt (h : y.1 < x.1) : merge (x :: xs) (y :: ys) = y :: merge (x :: xs) ys := by
  rw [merge, if_neg h.asymm, if_pos h]

theorem merge_of_eq (h : x.1 = y.1) : merge (x :: xs) (y :: ys) = x :: merge xs ys := by
  rw [merge, if_neg h.not_lt, if_neg h.symm.not_lt]

section

variable (h : Sorted (x :: xs))
include h

theorem Sorted.tail : Sorted xs := (pairwise_cons.mp h).2

theorem Sorted.head_lt (he : e ∈ xs) : x.1 < e.1 :=
  (pairwise_cons.mp h).1 e he

theorem Sorted.le_of_mem (he : e ∈ x :: xs) : x.1 ≤ e.1 := by
  rcases mem_cons.mp he with rfl | he
  · exact le_rfl
  · exact (h.head_lt he).le

theorem Sorted.lt_of_mem (hk : k < x.1) (he : e ∈ x :: xs) : k < e.1 :=
  hk.trans_le (h.le_of_mem he)

theorem Sorted.notMem_of_lt (hk : k < x.1) (v : V) : (k, v) ∉ x :: xs :=
  fun hmem => lt_irrefl k (h.lt_of_mem hk hmem)

end

omit [LinearOrder K] in
theorem forall_notMem_cons : (∀ v, (k, v) ∉ x :: xs) ↔ k ≠ x.1 ∧ ∀ v, (k, v) ∉ xs := by
  constructor
  · intro h
    exact ⟨fun hk => h x.2 (hk ▸ mem_cons_self), fun v hv => h v (mem_cons_of_mem _ hv)⟩
  · rintro ⟨hk, h⟩ v hv
    rcases mem_cons.mp hv with rfl | hv'
    · exact hk rfl
    · exact h v hv'

/-- Of two entries with one key the merge has the one of the first list. -/
theorem mem_merge (hxs : Sorted xs) (hys : Sorted ys) :
    e ∈ merge xs ys ↔ e ∈ xs ∨ e ∈ ys ∧ ∀ v, (e.1, v) ∉ xs := by
  fun_induction merge xs ys with
  | case1 ys | case2 x xs => simp
  | case3 x xs y ys hlt ih =>
    -- `x` is below every entry of the second list.
    have hne : e ∈ y :: ys → e.1 ≠ x.1 := fun he heq =>
      hys.notMem_of_lt hlt e.2 (heq ▸ he)
    rw [mem_cons, ih hxs.tail hys]
    grind
  | case4 x xs y ys hnlt hgt ih =>
    -- `y` is below every entry of the first list.
    have hy : e = y → ∀ v, (e.1, v) ∉ x :: xs := fun he v => he ▸ hxs.notMem_of_lt hgt v
    rw [mem_cons, ih hxs hys.tail]
    grind
  | case5 x xs y ys hnlt hngt ih =>
    -- `x` hides `y`.
    have hkey : x.1 = y.1 := le_antisymm (not_lt.mp hngt) (not_lt.mp hnlt)
    have hne : e ∈ ys → e.1 ≠ x.1 := fun he heq => (hys.head_lt he).ne (hkey.symm.trans heq.symm)
    rw [mem_cons, ih hxs.tail hys.tail, forall_notMem_cons, mem_cons (b := x),
      mem_cons (b := y)]
    grind

/-- The merge is sorted. -/
theorem sorted_merge (hxs : Sorted xs) (hys : Sorted ys) : Sorted (merge xs ys) := by
  fun_induction merge xs ys with
  | case1 ys => exact hys
  | case2 x xs => exact hxs
  | case3 x xs y ys hlt ih =>
    refine pairwise_cons.mpr ⟨fun e he => ?_, ih hxs.tail hys⟩
    rcases (mem_merge hxs.tail hys).mp he with h | ⟨h, -⟩
    · exact hxs.head_lt h
    · exact hys.lt_of_mem hlt h
  | case4 x xs y ys hnlt hgt ih =>
    refine pairwise_cons.mpr ⟨fun e he => ?_, ih hxs hys.tail⟩
    rcases (mem_merge hxs hys.tail).mp he with h | ⟨h, -⟩
    · exact hxs.lt_of_mem hgt h
    · exact hys.head_lt h
  | case5 x xs y ys hnlt hngt ih =>
    have hkey : x.1 = y.1 := le_antisymm (not_lt.mp hngt) (not_lt.mp hnlt)
    refine pairwise_cons.mpr ⟨fun e he => ?_, ih hxs.tail hys.tail⟩
    rcases (mem_merge hxs.tail hys.tail).mp he with h | ⟨h, -⟩
    · exact hxs.head_lt h
    · exact hkey.trans_lt (hys.head_lt h)

/-- The beginning of the merge needs only the beginnings of the lists. -/
theorem take_merge_take {m n : ℕ} (h : n ≤ m) (xs ys : List (K × V)) :
    (merge xs (ys.take m)).take n = (merge xs ys).take n := by
  fun_induction merge xs ys generalizing m n with
  | case1 ys => rw [merge_nil_left, take_take, Nat.min_eq_left h]
  | case2 x xs => rw [take_nil, merge_nil_right]
  | case3 x xs y ys hlt ih =>
    cases n with
    | zero => rfl
    | succ n =>
      obtain ⟨m, rfl⟩ : ∃ m', m = m' + 1 := ⟨m - 1, by omega⟩
      rw [take_succ_cons, merge_of_lt hlt, take_succ_cons, take_succ_cons,
        ← ih (m := m + 1) (by omega), take_succ_cons]
  | case4 x xs y ys hnlt hgt ih =>
    cases n with
    | zero => rfl
    | succ n =>
      obtain ⟨m, rfl⟩ : ∃ m', m = m' + 1 := ⟨m - 1, by omega⟩
      rw [take_succ_cons, merge_of_gt hgt, take_succ_cons, take_succ_cons,
        ih (by omega)]
  | case5 x xs y ys hnlt hngt ih =>
    have hkey : x.1 = y.1 := le_antisymm (not_lt.mp hngt) (not_lt.mp hnlt)
    cases n with
    | zero => rfl
    | succ n =>
      obtain ⟨m, rfl⟩ : ∃ m', m = m' + 1 := ⟨m - 1, by omega⟩
      rw [take_succ_cons, merge_of_eq hkey, take_succ_cons, take_succ_cons,
        ih (by omega)]

end Tikv.SortedMerge
