import Tikv.Foundation.Lexicographic

/-!
# Lists cut into chunks of one size

`chunksExact n l` cuts `l` into chunks of `n` elements from the front and `rchunksExact n l`
from the back; elements that do not fill a chunk are left over at the other end. On a list that
is made of chunks the two cut at the same places, in opposite order
(`rchunksExact_eq_reverse`).

The code words of a `BlockCode` are made of chunks: `BlockCode.chunksExact_encode` cuts them into
the blocks of the chunks of the encoded list.
-/

namespace Tikv

open List

universe u v

variable {α : Type u}

/-- The chunks of `n` elements from the front. -/
def chunksExact (n : ℕ) (l : List α) : List (List α) :=
  if 0 < n ∧ n ≤ l.length then l.take n :: chunksExact n (l.drop n) else []
termination_by l.length
decreasing_by
  rw [List.length_drop]
  omega

/-- What the chunks from the front leave over. -/
def chunksExactRemainder (n : ℕ) (l : List α) : List α := l.drop (l.length / n * n)

/-- The chunks of `n` elements from the back, the last one first. -/
def rchunksExact (n : ℕ) (l : List α) : List (List α) :=
  if 0 < n ∧ n ≤ l.length then
    l.drop (l.length - n) :: rchunksExact n (l.take (l.length - n))
  else []
termination_by l.length
decreasing_by
  rw [List.length_take]
  omega

/-- What the chunks from the back leave over. -/
def rchunksExactRemainder (n : ℕ) (l : List α) : List α := l.take (l.length % n)

variable {n : ℕ}

theorem chunksExact_of_lt {l : List α} (h : l.length < n) : chunksExact n l = [] := by
  rw [chunksExact, if_neg (by omega)]

variable {p : List α}

theorem chunksExact_append (hn : 0 < n) (hp : p.length = n) (l : List α) :
    chunksExact n (p ++ l) = p :: chunksExact n l := by
  rw [chunksExact, if_pos ⟨hn, by simp [hp]⟩, ← hp, take_left, drop_left]

theorem rchunksExact_append (hn : 0 < n) (hp : p.length = n) (l : List α) :
    rchunksExact n (l ++ p) = p :: rchunksExact n l := by
  have hlen : (l ++ p).length - n = l.length := by
    rw [length_append]
    omega
  rw [rchunksExact, if_pos ⟨hn, by simp [hp]⟩, hlen, take_left, drop_left]

theorem chunksExactRemainder_of_lt {l : List α} (h : l.length < n) :
    chunksExactRemainder n l = l := by
  rw [chunksExactRemainder, Nat.div_eq_of_lt h, Nat.zero_mul, drop_zero]

theorem chunksExactRemainder_append (hn : 0 < n) (hp : p.length = n) (l : List α) :
    chunksExactRemainder n (p ++ l) = chunksExactRemainder n l := by
  have hdiv : (p ++ l).length / n * n = p.length + l.length / n * n := by
    rw [length_append, hp, Nat.add_div_left _ hn, Nat.succ_mul, Nat.add_comm]
  rw [chunksExactRemainder, hdiv, chunksExactRemainder]
  simp

theorem length_chunksExactRemainder (hn : 0 < n) (l : List α) :
    (chunksExactRemainder n l).length < n := by
  have := Nat.div_add_mod l.length n
  have := Nat.mod_lt l.length hn
  rw [chunksExactRemainder, length_drop, Nat.mul_comm]
  omega

theorem length_of_mem_chunksExact {l c : List α} (h : c ∈ chunksExact n l) : c.length = n := by
  fun_induction chunksExact n l with
  | case1 l hcond ih =>
    rcases mem_cons.mp h with rfl | h
    · rw [length_take]
      omega
    · exact ih h
  | case2 => cases h

theorem flatten_chunksExact {l : List α} (hn : 0 < n) (h : l.length % n = 0) :
    (chunksExact n l).flatten = l := by
  fun_induction chunksExact n l with
  | case1 l hcond ih =>
    have hmod : (l.drop n).length % n = 0 := by
      rw [length_drop, ← Nat.mod_eq_sub_mod hcond.2]
      exact h
    rw [flatten_cons, ih hmod, take_append_drop]
  | case2 l hcond =>
    have hlt : l.length < n := by omega
    rw [Nat.mod_eq_of_lt hlt, length_eq_zero_iff] at h
    rw [h]
    rfl

theorem rchunksExact_flatten_reverse (hn : 0 < n) {cs : List (List α)}
    (hcs : ∀ c ∈ cs, c.length = n) : rchunksExact n cs.reverse.flatten = cs := by
  induction cs with
  | nil => rw [rchunksExact, if_neg (by simp; omega)]
  | cons c cs ih =>
    rw [reverse_cons, flatten_append, flatten_singleton,
      rchunksExact_append hn (hcs c mem_cons_self),
      ih fun c hc => hcs c (mem_cons_of_mem _ hc)]

theorem rchunksExact_eq_reverse {l : List α} (hn : 0 < n) (h : l.length % n = 0) :
    rchunksExact n l = (chunksExact n l).reverse := by
  have hmem : ∀ c ∈ (chunksExact n l).reverse, c.length = n := fun c hc =>
    length_of_mem_chunksExact (mem_reverse.mp hc)
  have := rchunksExact_flatten_reverse hn hmem
  rwa [reverse_reverse, flatten_chunksExact hn h] at this

theorem forall_mem_zip_iff {β : Type v} {l : List α} {u : List β} (f : β → α)
    (h : l.length = u.length) : (∀ p ∈ l.zip u, p.1 = f p.2) ↔ l = u.map f := by
  induction l generalizing u with
  | nil =>
    rw [length_nil, eq_comm, length_eq_zero_iff] at h
    simp [h]
  | cons a l ih =>
    obtain ⟨b, u, rfl⟩ := exists_cons_of_length_eq_add_one h.symm
    have hlen : l.length = u.length := by simpa using h
    rw [zip_cons_cons, forall_mem_cons, ih hlen, map_cons, List.cons.injEq]

namespace BlockCode

variable {β : Type v} (c : BlockCode α β)

theorem chunksExact_encode (hw : 0 < c.width) (l : List α) :
    chunksExact c.width (c.encode l) =
      (chunksExact c.size l).map c.block ++ [c.block (chunksExactRemainder c.size l)] := by
  induction l using c.block_induction with
  | short l hl =>
    have hblock := chunksExact_append hw (c.length_block l hl.le) []
    rw [append_nil] at hblock
    rw [c.encode_of_lt hl, hblock, chunksExact_of_lt (by simpa using hw), chunksExact_of_lt hl,
      chunksExactRemainder_of_lt hl]
    rfl
  | full p l hp ih =>
    rw [c.encode_append hp, chunksExact_append hw (c.length_block p hp.le), ih,
      chunksExact_append c.size_pos hp, chunksExactRemainder_append c.size_pos hp]
    rfl

theorem length_encode_mod (l : List α) : (c.encode l).length % c.width = 0 := by
  induction l using c.block_induction with
  | short l hl => rw [c.encode_of_lt hl, c.length_block l hl.le, Nat.mod_self]
  | full p l hp ih =>
    rw [c.encode_append hp, length_append, c.length_block p hp.le, Nat.add_mod_left, ih]

theorem eq_encode_iff (hw : 0 < c.width) {x : List β} (hx : x.length % c.width = 0)
    (l : List α) : x = c.encode l ↔ chunksExact c.width x =
      (chunksExact c.size l).map c.block ++ [c.block (chunksExactRemainder c.size l)] := by
  rw [← c.chunksExact_encode hw]
  constructor
  · intro h
    rw [h]
  · intro h
    rw [← flatten_chunksExact hw hx, h, flatten_chunksExact hw (c.length_encode_mod l)]

end BlockCode

end Tikv
