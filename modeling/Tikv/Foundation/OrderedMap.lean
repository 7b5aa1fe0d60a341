import Mathlib.Algebra.BigOperators.Group.List.Basic
import Mathlib.Algebra.Order.Ring.Nat
import Mathlib.Data.List.Pairwise

/-!
# Ordered maps

An `OrderedMap` is a list of entries with strictly increasing keys, the model of a B-tree map. The
entries above a key (`above`) are what a range query from an excluded lower bound goes through, in
the order of the keys.

A lookup finds an entry exactly when the entry is there (`lookup_eq_some_iff`), and the operations
are described by what a lookup finds after them.
-/

namespace Tikv

open List

universe u v

/-- An ordered map. -/
structure OrderedMap (K : Type u) (V : Type v) [LinearOrder K] where
  entries : List (K × V)
  sorted : entries.Pairwise (·.1 < ·.1)

namespace OrderedMap

variable {K : Type u} {V : Type v} [LinearOrder K]

instance [DecidableEq V] : DecidableEq (OrderedMap K V) := fun m m' =>
  decidable_of_iff (m.entries = m'.entries) (by cases m; cases m'; simp)

def empty : OrderedMap K V := ⟨[], .nil⟩

variable (m : OrderedMap K V)

/-- The value at a key. -/
def lookup (k : K) : Option V :=
  (m.entries.find? (·.1 = k)).map (·.2)

/-- The entries with larger keys. -/
def above (k : K) : List (K × V) := m.entries.filter (k < ·.1)

/-- The entry is put at its place, and one with the same key is replaced. -/
def insert (k : K) (x : V) : OrderedMap K V where
  entries := m.entries.filter (·.1 < k) ++ (k, x) :: m.entries.filter (k < ·.1)
  sorted := by
    refine List.pairwise_append.mpr ⟨m.sorted.filter _, ?_, ?_⟩
    · refine List.pairwise_cons.mpr ⟨fun e he => ?_, m.sorted.filter _⟩
      simpa using (List.mem_filter.mp he).2
    · intro e he e' he'
      have hlt : e.1 < k := by simpa using (List.mem_filter.mp he).2
      rcases List.mem_cons.mp he' with rfl | he'
      · exact hlt
      · have hlt' : k < e'.1 := by simpa using (List.mem_filter.mp he').2
        exact hlt.trans hlt'

def erase (k : K) : OrderedMap K V where
  entries := m.entries.filter (·.1 ≠ k)
  sorted := m.sorted.filter _

/-- `retain`: the entries that meet the condition. -/
def retain (p : K → V → Bool) : OrderedMap K V where
  entries := m.entries.filter fun e => p e.1 e.2
  sorted := m.sorted.filter _

/-- What the entries add up to. -/
def total (f : K → V → ℕ) : ℕ := (m.entries.map fun e => f e.1 e.2).sum

variable {m : OrderedMap K V} {k l : K} {x y : V}

theorem snd_eq_of_mem (hx : (k, x) ∈ m.entries) (hy : (k, y) ∈ m.entries) : x = y := by
  by_contra hne
  have : Std.Symm fun e e' : K × V => e.1 ≠ e'.1 := ⟨fun _ _ h => h.symm⟩
  have hkeys : m.entries.Pairwise fun e e' => e.1 ≠ e'.1 := m.sorted.imp fun hlt => hlt.ne
  exact hkeys.forall hx hy (fun heq => hne (congrArg Prod.snd heq)) rfl

/-- What is found is an entry. -/
theorem lookup_eq_some_iff : m.lookup k = some x ↔ (k, x) ∈ m.entries := by
  unfold lookup
  rw [Option.map_eq_some_iff]
  constructor
  · rintro ⟨⟨k', x'⟩, hfind, rfl⟩
    have hk : k' = k := by simpa using find?_some hfind
    exact hk ▸ mem_of_find?_eq_some hfind
  · intro hmem
    cases hfind : m.entries.find? (·.1 = k) with
    | none =>
      have hne := find?_eq_none.mp hfind (k, x) hmem
      simp at hne
    | some e =>
      have hk : e.1 = k := by simpa using find?_some hfind
      have he : (k, e.2) ∈ m.entries := hk ▸ mem_of_find?_eq_some hfind
      exact ⟨e, rfl, snd_eq_of_mem he hmem⟩

theorem lookup_eq_none_iff : m.lookup k = none ↔ ∀ x, (k, x) ∉ m.entries := by
  rw [Option.eq_none_iff_forall_ne_some]
  exact forall_congr' fun x => not_congr lookup_eq_some_iff

theorem mem_above {e : K × V} : e ∈ m.above k ↔ e ∈ m.entries ∧ k < e.1 := by
  rw [above, mem_filter, decide_eq_true_eq]

@[simp]
theorem lookup_empty (k : K) : (empty : OrderedMap K V).lookup k = none := rfl

/-- What is found after an insertion. -/
theorem lookup_insert (m : OrderedMap K V) (k l : K) (x : V) :
    (m.insert k x).lookup l = if l = k then some x else m.lookup l := by
  refine Option.ext fun y => ?_
  rw [lookup_eq_some_iff, insert, mem_append, mem_cons, mem_filter, mem_filter,
    Prod.mk.injEq, decide_eq_true_eq, decide_eq_true_eq]
  split_ifs with hl
  · subst hl
    simp only [lt_self_iff_false, and_false, false_or, or_false, true_and, Option.some.injEq]
    exact eq_comm
  · rw [lookup_eq_some_iff]
    constructor
    · rintro (⟨hmem, -⟩ | ⟨heq, -⟩ | ⟨hmem, -⟩)
      · exact hmem
      · exact absurd heq hl
      · exact hmem
    · intro hmem
      rcases lt_or_gt_of_ne hl with hlt | hlt
      · exact .inl ⟨hmem, hlt⟩
      · exact .inr (.inr ⟨hmem, hlt⟩)

theorem of_lookup_insert {m : OrderedMap K V} {k l : K} {x y : V}
    (h : (m.insert k x).lookup l = some y) :
    (l = k ∧ y = x) ∨ (l ≠ k ∧ m.lookup l = some y) := by
  rw [lookup_insert] at h
  split_ifs at h with hl
  · exact .inl ⟨hl, (Option.some.inj h).symm⟩
  · exact .inr ⟨hl, h⟩

theorem lookup_erase (m : OrderedMap K V) (k l : K) :
    (m.erase k).lookup l = if l = k then none else m.lookup l := by
  refine Option.ext fun y => ?_
  rw [lookup_eq_some_iff, erase, mem_filter, decide_eq_true_eq]
  split_ifs with hl
  · simp [hl]
  · rw [lookup_eq_some_iff]
    exact and_iff_left hl

theorem lookup_of_erase (h : (m.erase k).lookup l = some x) : m.lookup l = some x := by
  rw [lookup_erase] at h
  split_ifs at h
  exact h

theorem find?_entries {p : K → Bool} {e : K × V} (h : m.entries.find? (fun e => p e.1) = some e) :
    m.lookup e.1 = some e.2 ∧ p e.1 = true ∧ ∀ l x, m.lookup l = some x → p l = true → e.1 ≤ l := by
  obtain ⟨hp, as, bs, hentries, has⟩ := find?_eq_some_iff_append.mp h
  refine ⟨lookup_eq_some_iff.mpr (mem_of_find?_eq_some h), hp, fun l x hl hpl => ?_⟩
  have hmem := lookup_eq_some_iff.mp hl
  have hsorted := m.sorted
  rw [hentries] at hmem hsorted
  rcases mem_append.mp hmem with hmem | hmem
  · simpa [hpl] using has _ hmem
  · rcases mem_cons.mp hmem with rfl | hmem
    · exact le_rfl
    · exact ((pairwise_cons.mp (pairwise_append.mp hsorted).2.1).1 _ hmem).le

theorem head?_entries {e : K × V} (h : m.entries.head? = some e) :
    m.lookup e.1 = some e.2 ∧ ∀ k x, m.lookup k = some x → e.1 ≤ k := by
  have hfind : m.entries.find? (fun _ => true) = some e := by rwa [← head?_filter, filter_true]
  obtain ⟨hlookup, -, hle⟩ := find?_entries (p := fun _ => true) hfind
  exact ⟨hlookup, fun k x hk => hle k x hk rfl⟩

theorem head?_above {e : K × V} (h : (m.above k).head? = some e) :
    m.lookup e.1 = some e.2 ∧ ∀ l x, m.lookup l = some x → k < l → e.1 ≤ l := by
  rw [above, head?_filter] at h
  obtain ⟨hlookup, -, hle⟩ := find?_entries (p := (k < ·)) h
  exact ⟨hlookup, fun l x hl hlt => hle l x hl (decide_eq_true hlt)⟩

theorem lookup_retain_eq_some_iff {p : K → V → Bool} :
    (m.retain p).lookup k = some x ↔ m.lookup k = some x ∧ p k x = true := by
  rw [lookup_eq_some_iff, lookup_eq_some_iff, retain, mem_filter]

section Total

variable {f : K → V → ℕ}

/-- The entries after an insertion, up to their order. -/
theorem perm_insert (m : OrderedMap K V) (k : K) (x : V) :
    (m.insert k x).entries.Perm ((k, x) :: (m.erase k).entries) := by
  have hbelow : m.entries.filter (fun e => decide (e.1 < k)) =
      (m.erase k).entries.filter fun e => decide (e.1 < k) := by
    rw [erase, filter_filter]
    refine filter_congr fun e _ => ?_
    by_cases hlt : e.1 < k
    · simp [hlt.ne]
    · simp [hlt]
  have habove : m.entries.filter (fun e => decide (k < e.1)) =
      (m.erase k).entries.filter fun e => !decide (e.1 < k) := by
    rw [erase, filter_filter]
    refine filter_congr fun e _ => ?_
    rcases lt_trichotomy e.1 k with hlt | heq | hlt
    · simp [hlt, hlt.not_gt]
    · simp [heq]
    · simp [hlt, hlt.not_gt, hlt.ne']
  refine perm_middle.trans (List.Perm.cons _ ?_)
  rw [hbelow, habove]
  exact filter_append_perm _ _

/-- An entry that is found can be put in front. -/
theorem perm_of_lookup (h : m.lookup k = some x) :
    m.entries.Perm ((k, x) :: (m.erase k).entries) := by
  have hsame : (m.insert k x).entries = m.entries := by
    refine List.Perm.eq_of_pairwise (fun _ _ _ _ hlt hgt => absurd hgt hlt.not_gt)
      (m.insert k x).sorted m.sorted ?_
    refine (perm_ext_iff_of_nodup ?_ ?_).mpr fun e => ?_
    · exact (m.insert k x).sorted.imp fun hlt heq => absurd (heq ▸ hlt) (lt_irrefl _)
    · exact m.sorted.imp fun hlt heq => absurd (heq ▸ hlt) (lt_irrefl _)
    · rw [← lookup_eq_some_iff, ← lookup_eq_some_iff, lookup_insert]
      split
      · rename_i hk
        rw [hk, h]
      · rfl
  exact hsame ▸ m.perm_insert k x

theorem total_insert (m : OrderedMap K V) (k : K) (x : V) :
    (m.insert k x).total f = f k x + (m.erase k).total f := by
  rw [total, ((m.perm_insert k x).map _).sum_eq, map_cons, sum_cons, total]

theorem total_of_lookup (h : m.lookup k = some x) :
    m.total f = f k x + (m.erase k).total f := by
  rw [total, ((perm_of_lookup h).map _).sum_eq, map_cons, sum_cons, total]

theorem erase_of_lookup (h : m.lookup k = none) : m.erase k = m := by
  have hfilter : m.entries.filter (·.1 ≠ k) = m.entries := by
    refine filter_eq_self.mpr fun e he => decide_eq_true fun heq => ?_
    exact lookup_eq_none_iff.mp h e.2 (heq ▸ he)
  unfold erase
  congr

theorem total_retain (m : OrderedMap K V) (p : K → V → Bool) :
    m.total f = (m.retain p).total f +
      ((m.entries.filter fun e => !p e.1 e.2).map fun e => f e.1 e.2).sum := by
  have hperm := (filter_append_perm (fun e => p e.1 e.2) m.entries).map fun e => f e.1 e.2
  rw [total, ← hperm.sum_eq, map_append, sum_append]
  rfl

end Total

end OrderedMap

end Tikv
