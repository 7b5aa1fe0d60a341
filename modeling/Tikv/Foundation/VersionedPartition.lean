import Mathlib.Data.Set.BooleanAlgebra
import Mathlib.Data.Set.Pairwise.Basic
import Mathlib.Order.CompletePartialOrder
import Mathlib.Order.WithBot
import Tikv.Foundation.Execution

/-!
# Partitions whose parts carry versions

A space is divided into parts, each with a version. A step replaces some parts by others that
cover the same points and have larger versions (`Supersedes`). It keeps the division a partition
(`IsPartition.supersede`), and the version of the part that holds a point never goes back: in
every run the part is the same one, or has a larger version (`version_lt_of_exec`). So two parts
from any two moments of a run that have a point in common are equal or have different versions.

The second half is about a range of a linear order that is cut at ascending points (`pieces`).
-/

namespace Tikv.VersionedPartition

universe u v w

section

variable {α : Type u} {X : Type v} (range : α → Set X) (version : α → ℕ)

/-- The parts are not empty and each point is in exactly one of them. -/
structure IsPartition (parts : Set α) : Prop where
  nonempty : ∀ a ∈ parts, (range a).Nonempty
  disjoint : parts.PairwiseDisjoint range
  cover : ∀ x, ∃ a ∈ parts, x ∈ range a

/-- The parts `old` have been replaced by the parts `new`, which cover the same points and have
larger versions. -/
structure Supersedes (parts parts' old new : Set α) : Prop where
  before : old ⊆ parts
  after : parts' = new ∪ parts \ old
  nonempty : ∀ b ∈ new, (range b).Nonempty
  disjoint : new.PairwiseDisjoint range
  cover : ∀ x, (∃ b ∈ new, x ∈ range b) ↔ ∃ a ∈ old, x ∈ range a
  version : ∀ a ∈ old, ∀ b ∈ new, version a < version b

variable {range version} {parts parts' old new : Set α} {a b : α} {x : X}

section

variable (h : IsPartition range parts) (hs : Supersedes range version parts parts' old new)
include h hs

theorem Supersedes.disjoint_of_mem (hb : b ∈ new) (ha : a ∈ parts \ old) :
    Disjoint (range b) (range a) := by
  rw [Set.disjoint_left]
  intro x hxb hxa
  obtain ⟨o, ho, hxo⟩ := (hs.cover x).mp ⟨b, hb, hxb⟩
  have hoa : o = a := h.disjoint.elim_set (hs.before ho) ha.1 x hxo hxa
  exact ha.2 (hoa ▸ ho)

/-- New parts with the keys of some old ones take their place. -/
theorem IsPartition.supersede : IsPartition range parts' where
  nonempty := by
    rw [hs.after]
    rintro b (hb | hb)
    · exact hs.nonempty b hb
    · exact h.nonempty b hb.1
  disjoint := by
    rw [hs.after]
    rintro b (hb | hb) c (hc | hc) hne
    · exact hs.disjoint hb hc hne
    · exact hs.disjoint_of_mem h hb hc
    · exact (hs.disjoint_of_mem h hc hb).symm
    · exact h.disjoint hb.1 hc.1 hne
  cover := by
    intro x
    obtain ⟨a, ha, hxa⟩ := h.cover x
    rw [hs.after]
    by_cases hold : a ∈ old
    · obtain ⟨b, hb, hxb⟩ := (hs.cover x).mpr ⟨a, hold, hxa⟩
      exact ⟨b, .inl hb, hxb⟩
    · exact ⟨a, .inr ⟨ha, hold⟩, hxa⟩

theorem Supersedes.version_lt (ha : a ∈ parts) (hb : b ∈ parts') (hxa : x ∈ range a)
    (hxb : x ∈ range b) : a = b ∨ version a < version b := by
  rw [hs.after] at hb
  rcases hb with hb | hb
  · obtain ⟨o, ho, hxo⟩ := (hs.cover x).mp ⟨b, hb, hxb⟩
    have hoa : o = a := h.disjoint.elim_set (hs.before ho) ha x hxo hxa
    exact .inr (hs.version a (hoa ▸ ho) b hb)
  · exact .inl (h.disjoint.elim_set ha hb.1 x hxa hxb)

end

/-- The same along a run of a system each step of which replaces parts. -/
theorem version_lt_of_exec {σ ε : Type w} {R : σ → ε → σ → Prop} {I : σ → Prop}
    (partsOf : σ → Set α) (hI : ∀ s e t, I s → R s e t → I t)
    (hpart : ∀ s, I s → IsPartition range (partsOf s))
    (hstep : ∀ s e t, I s → R s e t →
      ∃ old new, Supersedes range version (partsOf s) (partsOf t) old new)
    {s t : σ} {es : List ε} (hs : I s) (hrun : Exec R s es t) (ha : a ∈ partsOf s)
    (hb : b ∈ partsOf t) (hxa : x ∈ range a) (hxb : x ∈ range b) :
    a = b ∨ version a < version b := by
  -- The part that holds the point after the first step lies between the two in version.
  induction hrun generalizing a with
  | nil s => exact .inl ((hpart s hs).disjoint.elim_set ha hb x hxa hxb)
  | @cons s u t e es hse hrest ih =>
    have hu := hI s e u hs hse
    obtain ⟨old, new, hsup⟩ := hstep s e u hs hse
    obtain ⟨c, hc, hxc⟩ := (hpart u hu).cover x
    have hcb := ih hu hc hb hxc
    rcases hsup.version_lt (hpart s hs) ha hc hxa hxc with rfl | hac
    · exact hcb
    · rcases hcb with rfl | hcb
      · exact .inr hac
      · exact .inr (hac.trans hcb)

end

/-! ### Cutting a range -/

section

variable {K : Type u} [LinearOrder K]

/-- The keys from `a` on that are below `top`. -/
def keysIn (a : K) (top : WithTop K) : Set K := {k | a ≤ k ∧ (k : WithTop K) < top}

/-- The ranges between `a`, the cuts and `top`. -/
def pieces (a : K) : List K → WithTop K → List (K × WithTop K)
  | [], top => [(a, top)]
  | k :: keys, top => (a, (k : WithTop K)) :: pieces k keys top

variable {a k : K} {keys : List K} {top : WithTop K}

/-- Ascending cuts between the ends of a range. -/
def Cuts (a : K) : List K → WithTop K → Prop
  | [], top => (a : WithTop K) < top
  | k :: keys, top => a < k ∧ Cuts k keys top

theorem Cuts.lt_top (h : Cuts a keys top) : (a : WithTop K) < top := by
  induction keys generalizing a with
  | nil => exact h
  | cons k keys ih => exact (WithTop.coe_lt_coe.mpr h.1).trans (ih h.2)

theorem mem_keysIn_cut (hak : a < k) (hk : (k : WithTop K) < top) (x : K) :
    x ∈ keysIn a top ↔ x ∈ keysIn a (k : WithTop K) ∨ x ∈ keysIn k top := by
  constructor
  · rintro ⟨hax, hx⟩
    rcases lt_or_ge x k with hxk | hkx
    · exact .inl ⟨hax, WithTop.coe_lt_coe.mpr hxk⟩
    · exact .inr ⟨hkx, hx⟩
  · rintro (⟨hax, hxk⟩ | ⟨hkx, hx⟩)
    · exact ⟨hax, hxk.trans hk⟩
    · exact ⟨hak.le.trans hkx, hx⟩

theorem mem_pieces_iff (h : Cuts a keys top) (x : K) :
    (∃ p ∈ pieces a keys top, x ∈ keysIn p.1 p.2) ↔ x ∈ keysIn a top := by
  induction keys generalizing a with
  | nil => simp [pieces]
  | cons k keys ih =>
    rw [mem_keysIn_cut h.1 h.2.lt_top, ← ih h.2]
    simp [pieces]

theorem pieces_nonempty (h : Cuts a keys top) :
    ∀ p ∈ pieces a keys top, (keysIn p.1 p.2).Nonempty := by
  induction keys generalizing a with
  | nil =>
    intro p hp
    obtain rfl : p = (a, top) := by simpa [pieces] using hp
    exact ⟨a, le_rfl, h⟩
  | cons k keys ih =>
    exact List.forall_mem_cons.mpr ⟨⟨a, le_rfl, WithTop.coe_lt_coe.mpr h.1⟩, ih h.2⟩

theorem pieces_disjoint (h : Cuts a keys top) :
    (pieces a keys top).Pairwise fun p q => Disjoint (keysIn p.1 p.2) (keysIn q.1 q.2) := by
  induction keys generalizing a with
  | nil => simp [pieces]
  | cons k keys ih =>
    refine List.pairwise_cons.mpr ⟨?_, ih h.2⟩
    intro q hq
    rw [Set.disjoint_left]
    rintro x ⟨-, hxk⟩ hxq
    obtain ⟨hkx, -⟩ := (mem_pieces_iff h.2 x).mp ⟨q, hq, hxq⟩
    exact absurd (WithTop.coe_lt_coe.mp hxk) (not_lt.mpr hkx)

end

end Tikv.VersionedPartition
