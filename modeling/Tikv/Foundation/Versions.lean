import Mathlib.Data.List.Pairwise
import Mathlib.Data.List.Sort
import Mathlib.Order.Basic

/-!
# Finite maps from timestamps, newest first

A `Versions α` is a finite map from natural-number timestamps to `α`, kept as a list whose
timestamps strictly decrease. The order is part of the structure, so a timestamp occurs at
most once and the head is the newest entry.

Everything a client needs is stated through membership `(t, a) ∈ m.entries`:

* `insert` and `erase` change the binding of one timestamp and no other
  (`mem_insert`, `mem_erase`);
* `get` reads one binding (`get_eq_some_iff`), `seek t` returns the newest entry at or below
  `t` (`seek_eq_some_iff`, `seek_eq_none_iff`), `newest` the newest of all;
* `latest p t` is the newest entry at or below `t` that satisfies `p`.
-/

namespace Tikv

open List

universe u

variable {α : Type u}

/-! ### Lists of bindings

Bindings are kept in a list that a strict relation on the keys orders pairwise, so a key occurs
at most once. -/

section Keyed

variable {κ : Type*} {R : κ → κ → Prop} {l : List (κ × α)} {k : κ} {a b : α}

theorem keyed_unique (hR : ∀ k, ¬ R k k) (hl : l.Pairwise fun a b => R a.1 b.1)
    (ha : (k, a) ∈ l) (hb : (k, b) ∈ l) : a = b := by
  induction l with
  | nil => cases ha
  | cons e l ih =>
    rw [pairwise_cons] at hl
    rcases mem_cons.mp ha with rfl | ha' <;> rcases mem_cons.mp hb with hb' | hb'
    · exact (Prod.mk.inj hb').2.symm
    · exact absurd (hl.1 _ hb') (hR _)
    · subst hb'
      exact absurd (hl.1 _ ha') (hR _)
    · exact ih hl.2 ha' hb'

/-- Keys are distinct, so the first entry with a key is the only one. -/
theorem keyed_find?_eq_some_iff [DecidableEq κ] (hR : ∀ k, ¬ R k k)
    (hl : l.Pairwise fun a b => R a.1 b.1) :
    (l.find? fun e => e.1 = k).map Prod.snd = some a ↔ (k, a) ∈ l := by
  constructor
  · intro h
    obtain ⟨e, he, rfl⟩ := Option.map_eq_some_iff.mp h
    have h₁ : e.1 = k := by simpa using find?_some he
    have h₂ := mem_of_find?_eq_some he
    rwa [← h₁]
  · intro h
    cases hf : l.find? fun e => e.1 = k with
    | none =>
      rw [find?_eq_none] at hf
      exact absurd (by simp) (hf _ h)
    | some e =>
      have h₁ : e.1 = k := by simpa using find?_some hf
      have h₂ : (k, e.2) ∈ l := h₁ ▸ mem_of_find?_eq_some hf
      rw [Option.map_some, keyed_unique hR hl h₂ h]

theorem keyed_filter_eq [DecidableEq κ] (hR : ∀ k, ¬ R k k)
    (hl : l.Pairwise fun a b => R a.1 b.1) : (l.filter fun e => e.1 = k) =
      ((l.find? fun e => e.1 = k).map Prod.snd).toList.map fun a => (k, a) := by
  induction l with
  | nil => rfl
  | cons e l ih =>
    rw [pairwise_cons] at hl
    by_cases he : e.1 = k
    · have hnil : (l.filter fun e => e.1 = k) = [] :=
        filter_eq_nil_iff.mpr fun x hx hxk => by
          have hxk : x.1 = k := by simpa using hxk
          exact hR k (by simpa [he, hxk] using hl.1 x hx)
      simp [he, hnil, Prod.ext_iff]
    · rw [filter_cons_of_neg (by simpa using he),
        find?_cons_of_neg (by simpa using he), ih hl.2]

end Keyed

/-- A finite map from timestamps, newest first. -/
structure Versions (α : Type u) where
  /-- The bindings, in the order a forward iteration meets them. -/
  entries : List (ℕ × α)
  desc : entries.Pairwise fun a b => b.1 < a.1

namespace Versions

@[ext]
theorem ext {m n : Versions α} (h : m.entries = n.entries) : m = n := by
  cases m; cases n; cases h; rfl

instance [DecidableEq α] : DecidableEq (Versions α) := fun m n =>
  decidable_of_iff (m.entries = n.entries) ⟨ext, fun h => h ▸ rfl⟩

instance : EmptyCollection (Versions α) := ⟨⟨[], List.Pairwise.nil⟩⟩

variable {t : ℕ}

theorem mem_unique {m : Versions α} {a b : α} (ha : (t, a) ∈ m.entries) (hb : (t, b) ∈ m.entries) :
    a = b :=
  keyed_unique (R := fun s t => t < s) (fun _ => lt_irrefl _) m.desc ha hb

theorem mem_cases {m : Versions α} {newer older : List (ℕ × α)} {x e : ℕ × α}
    (hm : m.entries = newer ++ x :: older) (he : e ∈ m.entries) :
    (e ∈ newer ∧ x.1 < e.1) ∨ e = x ∨ e ∈ older ∧ e.1 < x.1 := by
  have hdesc := m.desc
  rw [hm, pairwise_append, pairwise_cons] at hdesc
  rw [hm, mem_append, mem_cons] at he
  exact he.imp (fun h => ⟨h, hdesc.2.2 e h x mem_cons_self⟩)
    (Or.imp_right fun h => ⟨h, hdesc.2.1.1 e h⟩)

/-! ### Reading -/

variable (m : Versions α)

/-- The binding of `t`. -/
def get (t : ℕ) : Option α :=
  (m.entries.find? fun e => e.1 = t).map Prod.snd

/-- The newest entry at or below `t`. -/
def seek (t : ℕ) : Option (ℕ × α) :=
  m.entries.find? fun e => e.1 ≤ t

/-- The newest entry. -/
def newest : Option (ℕ × α) := m.entries.head?

/-- The newest entry at or below `t` that satisfies `p`. -/
def latest (p : α → Bool) (t : ℕ) : Option (ℕ × α) :=
  m.entries.find? fun e => e.1 ≤ t && p e.2

theorem get_eq_some_iff {m : Versions α} {a : α} :
    m.get t = some a ↔ (t, a) ∈ m.entries :=
  keyed_find?_eq_some_iff (R := fun s t => t < s) (fun _ => lt_irrefl _) m.desc

theorem get_eq_none_iff {m : Versions α} :
    m.get t = none ↔ ∀ a, (t, a) ∉ m.entries := by
  rw [Option.eq_none_iff_forall_not_mem]
  exact forall_congr' fun a => not_congr get_eq_some_iff

variable {e : ℕ × α}

/-- The first entry with a property is the newest one. -/
private theorem find?_eq_some_iff_newest {l : List (ℕ × α)} (hl : l.Pairwise fun a b => b.1 < a.1)
    {p : ℕ × α → Bool} :
    l.find? p = some e ↔ e ∈ l ∧ p e = true ∧ ∀ e' ∈ l, p e' = true → e'.1 ≤ e.1 := by
  induction l with
  | nil => simp
  | cons x l ih =>
    rw [pairwise_cons] at hl
    cases hx : p x with
    | true =>
      rw [find?_cons_of_pos hx, Option.some_inj]
      constructor
      · rintro rfl
        refine ⟨mem_cons_self, hx, fun e' he' _ => ?_⟩
        rcases mem_cons.mp he' with rfl | h
        · exact le_rfl
        · exact (hl.1 _ h).le
      · rintro ⟨he, -, hmax⟩
        rcases mem_cons.mp he with h | h
        · exact h.symm
        · exact absurd (hmax x mem_cons_self hx) (not_le.mpr (hl.1 _ h))
    | false =>
      rw [find?_cons_of_neg (by simp [hx]), ih hl.2]
      constructor
      · rintro ⟨he, hp, hmax⟩
        refine ⟨mem_cons_of_mem _ he, hp, fun e' he' hp' => ?_⟩
        rcases mem_cons.mp he' with rfl | h
        · simp [hx] at hp'
        · exact hmax e' h hp'
      · rintro ⟨he, hp, hmax⟩
        rcases mem_cons.mp he with rfl | h
        · simp [hx] at hp
        · exact ⟨h, hp, fun e' he' => hmax e' (mem_cons_of_mem _ he')⟩

theorem seek_eq_some_iff {m : Versions α} :
    m.seek t = some e ↔
      e ∈ m.entries ∧ e.1 ≤ t ∧ ∀ e' ∈ m.entries, e'.1 ≤ t → e'.1 ≤ e.1 := by
  rw [seek, find?_eq_some_iff_newest m.desc]
  simp

theorem latest_eq_some_iff {m : Versions α} {p : α → Bool} :
    m.latest p t = some e ↔ e ∈ m.entries ∧ (e.1 ≤ t ∧ p e.2 = true) ∧
      ∀ e' ∈ m.entries, e'.1 ≤ t → p e'.2 = true → e'.1 ≤ e.1 := by
  rw [latest, find?_eq_some_iff_newest m.desc]
  simp

theorem latest_eq_none_iff {m : Versions α} {p : α → Bool} :
    m.latest p t = none ↔ ∀ e ∈ m.entries, e.1 ≤ t → p e.2 = false := by
  simp [latest]

theorem newest_eq_some_iff {m : Versions α} :
    m.newest = some e ↔ e ∈ m.entries ∧ ∀ e' ∈ m.entries, e'.1 ≤ e.1 := by
  have h : m.newest = m.entries.find? fun _ => true := by
    rw [newest]
    cases m.entries <;> simp
  rw [h, find?_eq_some_iff_newest m.desc]
  simp

theorem newest_eq_none_iff {m : Versions α} : m.newest = none ↔ m.entries = [] := by
  simp [newest]

/-! ### Writing -/

/-- Bind `t` to `a`, replacing an earlier binding of `t`. -/
def insert (t : ℕ) (a : α) : Versions α where
  entries := m.entries.filter (fun e => t < e.1) ++ (t, a) :: m.entries.filter (fun e => e.1 < t)
  desc := by
    rw [List.pairwise_append, List.pairwise_cons]
    refine ⟨m.desc.filter _, ⟨fun e he => ?_, m.desc.filter _⟩, fun e he e' he' => ?_⟩
    · simpa using (List.mem_filter.mp he).2
    · have h₁ : t < e.1 := by simpa using (List.mem_filter.mp he).2
      rcases List.mem_cons.mp he' with rfl | h
      · exact h₁
      · exact lt_trans (by simpa using (List.mem_filter.mp h).2) h₁

/-- Remove the binding of `t`. -/
def erase (t : ℕ) : Versions α where
  entries := m.entries.filter fun e => e.1 ≠ t
  desc := m.desc.filter _

theorem mem_insert {m : Versions α} {a : α} :
    e ∈ (m.insert t a).entries ↔ e = (t, a) ∨ e.1 ≠ t ∧ e ∈ m.entries := by
  simp only [insert, mem_append, mem_filter, mem_cons, decide_eq_true_eq]
  constructor
  · rintro (⟨h, hlt⟩ | rfl | ⟨h, hlt⟩)
    · exact Or.inr ⟨hlt.ne', h⟩
    · exact Or.inl rfl
    · exact Or.inr ⟨hlt.ne, h⟩
  · rintro (rfl | ⟨hne, h⟩)
    · exact Or.inr (Or.inl rfl)
    · rcases lt_or_gt_of_ne hne with hlt | hlt
      · exact Or.inr (Or.inr ⟨h, hlt⟩)
      · exact Or.inl ⟨h, hlt⟩

theorem mem_erase {m : Versions α} :
    e ∈ (m.erase t).entries ↔ e.1 ≠ t ∧ e ∈ m.entries := by
  simp [erase, and_comm]

theorem ext_of_mem {m n : Versions α} (h : ∀ e, e ∈ m.entries ↔ e ∈ n.entries) : m = n := by
  exact ext (m.desc.eq_of_mem_iff n.desc h)

theorem erase_insert_comm {m : Versions α} {s t : ℕ} {a : α} (h : t ≠ s) :
    (m.erase t).insert s a = (m.insert s a).erase t := by
  refine ext_of_mem fun e => ?_
  rw [mem_insert, mem_erase, mem_erase, mem_insert]
  constructor
  · rintro (rfl | ⟨hs, ht, he⟩)
    · exact ⟨h.symm, Or.inl rfl⟩
    · exact ⟨ht, Or.inr ⟨hs, he⟩⟩
  · rintro ⟨ht, rfl | ⟨hs, he⟩⟩
    · exact Or.inl rfl
    · exact Or.inr ⟨hs, ht, he⟩

end Versions

end Tikv
