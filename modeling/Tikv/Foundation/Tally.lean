import Mathlib.Algebra.Order.Ring.Int
import Mathlib.Data.Option.Basic
import Tikv.Foundation.OrderedMap

/-!
# Tallies

An ordered map that says how often each key occurs in something else: a key that occurs has its
number of occurrences, and a key that does not occur has no entry (**`Tallies`**). So the first
key of the map is the least one that occurs (`Tallies.le_of_head?`), and the map is empty only if
nothing does (`Tallies.eq_zero_of_head?`).

The map may hold more about a key than the number, which is then a function of the value.
-/

namespace Tikv

open Option OrderedMap

universe u v w

/-- The map has the positive values of `f`, and no entry where `f` is zero. -/
def Tallies {κ : Type u} {V : Type v} [LinearOrder κ] (m : OrderedMap κ V) (num : V → ℤ)
    (f : κ → ℕ) : Prop :=
  ∀ k, (m.lookup k).map num = if f k = 0 then none else some (f k : ℤ)

namespace Tallies

variable {κ : Type u} {V : Type v} [LinearOrder κ] {m m' : OrderedMap κ V} {num : V → ℤ}
  {f f' : κ → ℕ} {k l : κ} {x : V}

theorem empty (hf : ∀ k, f k = 0) : Tallies (.empty : OrderedMap κ V) num f := by
  intro k
  rw [lookup_empty, map_none, if_pos (hf k)]

section

variable (h : Tallies m num f)
include h

theorem num_eq (hx : m.lookup k = some x) : 0 < f k ∧ num x = f k := by
  have hk := h k
  rw [hx] at hk
  split at hk
  · cases hk
  · exact ⟨by omega, some_injective _ hk⟩

theorem eq_zero (hx : m.lookup k = none) : f k = 0 := by
  have hk := h k
  rw [hx] at hk
  by_contra hne
  rw [if_neg hne] at hk
  cases hk

theorem exists_lookup (hk : f k ≠ 0) : ∃ x, m.lookup k = some x := by
  rw [← ne_none_iff_exists']
  exact fun hnone => hk (h.eq_zero hnone)

theorem insert (hother : ∀ l, l ≠ k → f' l = f l) (hpos : f' k ≠ 0) (hx : num x = f' k) :
    Tallies (m.insert k x) num f' := by
  intro l
  rw [lookup_insert]
  by_cases hl : l = k
  · subst hl
    rw [if_pos rfl, map_some, hx, if_neg hpos]
  · rw [if_neg hl, h l, hother l hl]

theorem erase (hother : ∀ l, l ≠ k → f' l = f l) (hzero : f' k = 0) :
    Tallies (m.erase k) num f' := by
  intro l
  rw [lookup_erase]
  by_cases hl : l = k
  · subst hl
    rw [if_pos rfl, map_none, if_pos hzero]
  · rw [if_neg hl, h l, hother l hl]

theorem le_of_head? {e : κ × V} (he : m.entries.head? = some e) (hl : f l ≠ 0) : e.1 ≤ l := by
  obtain ⟨x, hx⟩ := h.exists_lookup hl
  exact (head?_entries he).2 l x hx

theorem eq_zero_of_head? (he : m.entries.head? = none) (l : κ) :
    f l = 0 := by
  apply h.eq_zero
  rw [lookup_eq_none_iff, List.head?_eq_none_iff.mp he]
  exact fun x => List.not_mem_nil

end

end Tallies

end Tikv
