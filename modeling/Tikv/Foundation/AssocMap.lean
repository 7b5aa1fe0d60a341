import Mathlib.Data.List.AList

/-!
# Filtering association lists

`AList` is the model of a hash map: a list of entries with different keys. Here are the operations
of hash maps that `AList` lacks: keeping the entries that meet a condition, and changing all the
values. `count` says how many entries meet a condition, and how that changes with an entry.
-/

namespace Tikv.AssocMap

open List AList

universe u v

variable {κ : Type u} {V : Type v}

/-- A hash map. -/
abbrev Map (κ : Type u) (V : Type v) := AList (fun _ : κ => V)

/-- `retain`: keep the entries that meet the condition. -/
def retain (m : Map κ V) (p : V → Bool) : Map κ V :=
  ⟨m.entries.filter fun e => p e.2, m.nodupKeys.sublist filter_sublist⟩

/-- Change all the values. -/
def mapValues (m : Map κ V) (f : V → V) : Map κ V :=
  ⟨m.entries.map (.map id fun _ => f), List.NodupKeys.map₂ _ _ m.nodupKeys⟩

/-- How many entries meet the condition. -/
def count (m : Map κ V) (p : κ → V → Bool) : ℕ := m.entries.countP fun e => p e.1 e.2

variable [DecidableEq κ] {m : Map κ V} {k : κ} {x : V}

theorem lookup_eq_some_iff : m.lookup k = some x ↔ ⟨k, x⟩ ∈ m.entries :=
  mem_lookup_iff

theorem lookup_retain_eq_some_iff {p : V → Bool} :
    (retain m p).lookup k = some x ↔ m.lookup k = some x ∧ p x := by
  rw [lookup_eq_some_iff, lookup_eq_some_iff, retain, mem_filter]

theorem lookup_mapValues_eq_some_iff {f : V → V} :
    (mapValues m f).lookup k = some x ↔ ∃ y, m.lookup k = some y ∧ f y = x := by
  rw [lookup_eq_some_iff, mapValues, mem_map]
  constructor
  · rintro ⟨⟨k', y⟩, hmem, heq⟩
    obtain ⟨rfl, rfl⟩ : k' = k ∧ f y = x := by simpa [Sigma.map] using heq
    exact ⟨y, lookup_eq_some_iff.mpr hmem, rfl⟩
  · rintro ⟨y, hy, rfl⟩
    exact ⟨⟨k, y⟩, lookup_eq_some_iff.mp hy, rfl⟩

theorem lookup_insert (m : Map κ V) (k l : κ) (x : V) :
    (m.insert k x).lookup l = if l = k then some x else m.lookup l := by
  by_cases hl : l = k
  · subst hl
    rw [AList.lookup_insert, if_pos rfl]
  · rw [AList.lookup_insert_ne hl, if_neg hl]

theorem lookup_erase (m : Map κ V) (k l : κ) :
    (m.erase k).lookup l = if l = k then none else m.lookup l := by
  by_cases hl : l = k
  · subst hl
    rw [AList.lookup_erase, if_pos rfl]
  · rw [AList.lookup_erase_ne hl, if_neg hl]

theorem of_lookup_insert {l : κ} {y : V} (h : (m.insert k x).lookup l = some y) :
    (l = k ∧ y = x) ∨ (l ≠ k ∧ m.lookup l = some y) := by
  rw [lookup_insert] at h
  split_ifs at h with hl
  · exact .inl ⟨hl, (Option.some.inj h).symm⟩
  · exact .inr ⟨hl, h⟩

theorem lookup_erase_eq_some_iff {l : κ} :
    (m.erase k).lookup l = some x ↔ l ≠ k ∧ m.lookup l = some x := by
  rw [lookup_erase, Option.ite_none_left_eq_some]

theorem lookup_of_isEmpty (h : m.entries.isEmpty) : m.lookup k = none := by
  rw [Option.eq_none_iff_forall_ne_some]
  intro x hx
  rw [lookup_eq_some_iff, isEmpty_iff.mp h] at hx
  exact absurd hx not_mem_nil

theorem erase_of_lookup (h : m.lookup k = none) : m.erase k = m :=
  ext (kerase_of_notMem_keys (lookup_eq_none.mp h))

section Count

variable {p : κ → V → Bool}

omit [DecidableEq κ] in
@[simp] theorem count_empty : count (∅ : Map κ V) p = 0 := rfl

/-- Erasing an entry takes it off the count. -/
theorem count_erase (h : m.lookup k = some x) :
    count m p = count (m.erase k) p + if p k x then 1 else 0 := by
  have hmem := lookup_eq_some_iff.mp h
  obtain ⟨y, l₁, l₂, -, hl, herase⟩ := exists_of_kerase (mem_keys_of_mem hmem)
  -- The entry that goes is the one the map has for the key.
  have hy : (⟨k, y⟩ : Sigma fun _ : κ => V) ∈ m.entries := by rw [hl]; simp
  obtain rfl := m.nodupKeys.eq_of_mk_mem hmem hy
  have hcount : count m p = (l₁ ++ ⟨k, x⟩ :: l₂).countP fun e => p e.1 e.2 := by rw [count, hl]
  have hrest : count (m.erase k) p = (l₁ ++ l₂).countP fun e => p e.1 e.2 := by
    rw [← herase]
    rfl
  rw [hcount, hrest, countP_append, countP_append, countP_cons]
  exact (Nat.add_assoc _ _ _).symm

theorem count_insert :
    count (m.insert k x) p = count (m.erase k) p + if p k x then 1 else 0 := by
  rw [count, entries_insert, countP_cons]
  rfl

theorem count_pos (h : m.lookup k = some x) (hp : p k x) : 0 < count m p :=
  countP_pos_iff.mpr ⟨_, lookup_eq_some_iff.mp h, hp⟩

end Count

end Tikv.AssocMap
