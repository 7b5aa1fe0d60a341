import Tikv.InMemoryEngine.RegionMap

/-!
# The ranges to load by hand

`RegionMetaMap` keeps the ranges that an operator wants in memory as a list, which is all that these
calls look at. Adding a range merges it with those it overlaps, and removing one cuts those it
overlaps. After any calls the list stands for the set of keys that were added and not removed since,
its ranges are disjoint, and at most two ranges are cut by a removal (**`manualLoadRanges_hold`**).
-/

namespace Tikv.InMemoryEngine

open List

variable {K : Type} [LinearOrder K]

namespace CacheRegion

/-- `CacheRegion::union`. -/
def union (r other : CacheRegion K) : Option (CacheRegion K) :=
  if r.Overlaps other then
    some ⟨0, 0, min r.startKey other.startKey, max r.endKey other.endKey,
      (min_le_left _ _).trans_lt (r.startKey_lt.trans_le (le_max_left _ _))⟩
  else none

/-- `CacheRegion::difference`. -/
def difference (r other : CacheRegion K) : Option (CacheRegion K) × Option (CacheRegion K) :=
  if r.Overlaps other then
    (if h : r.startKey < other.startKey then some ⟨0, 0, r.startKey, other.startKey, h⟩ else none,
      if h : other.endKey < r.endKey then some ⟨0, 0, other.endKey, r.endKey, h⟩ else none)
  else (none, none)

end CacheRegion

namespace ManualLoad

/-- `overlap_with_manual_load_range`. -/
def overlapWithManualLoadRange (ranges : List (CacheRegion K)) (range : CacheRegion K) : Bool :=
  ranges.any fun r => r.Overlaps range

/-- The `retain` of `add_manual_load_range`: the ranges that stay, and the grown range. -/
def retainUnion : List (CacheRegion K) → CacheRegion K → List (CacheRegion K) × CacheRegion K
  | [], union => ([], union)
  | r :: ranges, union =>
    match r.union union with
    | none => (r :: (retainUnion ranges union).1, (retainUnion ranges union).2)
    | some union => retainUnion ranges union

/-- `add_manual_load_range`. -/
def addManualLoadRange (ranges : List (CacheRegion K)) (range : CacheRegion K) :
    List (CacheRegion K) :=
  (retainUnion ranges range).1 ++ [(retainUnion ranges range).2]

/-- `remove_manual_load_range`; there is no result where the assertion fails. -/
def removeManualLoadRange (ranges : List (CacheRegion K)) (range : CacheRegion K) :
    Option (List (CacheRegion K)) :=
  let kept := ranges.filter fun r => r.difference range = (none, none) ∧ ¬ r.Overlaps range
  let diffs := (ranges.map (·.difference range)).filter (· ≠ (none, none))
  if diffs.length ≤ 2 then
    some (kept ++ diffs.flatMap fun d => d.1.toList ++ d.2.toList)
  else none

/-- The ranges are disjoint, and `keys` are the keys in them. -/
structure Holds (ranges : List (CacheRegion K)) (keys : Set K) : Prop where
  disjoint : ranges.Pairwise fun r s => ¬ r.Overlaps s
  mem_iff : ∀ key, key ∈ keys ↔ ∃ r ∈ ranges, r.ContainsKey key

variable {ranges : List (CacheRegion K)} {keys : Set K} {range r s u : CacheRegion K} {key : K}

theorem containsKey_union (h : r.union s = some u) :
    u.ContainsKey key ↔ r.ContainsKey key ∨ s.ContainsKey key := by
  rw [CacheRegion.union] at h
  split_ifs at h with hov
  obtain rfl := Option.some.inj h
  obtain ⟨h₁, h₂⟩ := hov
  simp only [CacheRegion.ContainsKey, min_le_iff, lt_max_iff]
  grind

/-- The grown range overlaps none of the ranges that stay, and no key is lost. -/
theorem retainUnion_spec (range : CacheRegion K)
    (hdisj : ranges.Pairwise fun r s => ¬ r.Overlaps s) :
    (retainUnion ranges range).1 <+ ranges ∧
      (∀ r ∈ (retainUnion ranges range).1, ¬ r.Overlaps (retainUnion ranges range).2) ∧
      ∀ key, (∃ r ∈ (retainUnion ranges range).1, r.ContainsKey key) ∨
        (retainUnion ranges range).2.ContainsKey key ↔
        (∃ r ∈ ranges, r.ContainsKey key) ∨ range.ContainsKey key := by
  induction ranges generalizing range with
  | nil => simp [retainUnion]
  | cons r ranges ih =>
    obtain ⟨hr, hdisj⟩ := pairwise_cons.mp hdisj
    rw [retainUnion]
    cases hu : r.union range with
    | some u =>
      obtain ⟨hsub, hkept, hkeys⟩ := ih u hdisj
      refine ⟨hsub.cons r, hkept, fun key => ?_⟩
      rw [hkeys key, containsKey_union hu]
      simp only [exists_mem_cons_iff, or_assoc, or_left_comm]
    | none =>
      obtain ⟨hsub, hkept, hkeys⟩ := ih range hdisj
      have hnot : ¬ r.Overlaps range := fun h => by simp [CacheRegion.union, h] at hu
      refine ⟨hsub.cons_cons r, forall_mem_cons.mpr ⟨?_, hkept⟩, fun key => ?_⟩
      · -- The range has grown only by ranges that are disjoint from `r`.
        rw [CacheRegion.overlaps_iff_exists]
        rintro ⟨key, hkey, hgrown⟩
        rcases (hkeys key).mp (.inr hgrown) with ⟨s, hs, hkey'⟩ | hkey'
        · exact hr s hs (CacheRegion.overlaps_iff_exists.mpr ⟨key, hkey, hkey'⟩)
        · exact hnot (CacheRegion.overlaps_iff_exists.mpr ⟨key, hkey, hkey'⟩)
      · simp only [exists_mem_cons_iff, or_assoc, hkeys key]

/-- **Adding a range adds its keys.** -/
theorem Holds.add (h : Holds ranges keys) (range : CacheRegion K) :
    Holds (addManualLoadRange ranges range) (keys ∪ {key | range.ContainsKey key}) := by
  obtain ⟨hsub, hkept, hkeys⟩ := retainUnion_spec range h.disjoint
  refine ⟨pairwise_append.mpr ⟨h.disjoint.sublist hsub, pairwise_singleton _ _, ?_⟩, fun key => ?_⟩
  · exact fun r hr s hs => mem_singleton.mp hs ▸ hkept r hr
  · rw [Set.mem_union, h.mem_iff]
    change _ ∨ range.ContainsKey key ↔ _
    rw [← hkeys key]
    simp [addManualLoadRange, or_and_right, exists_or]

/-- What is left of a range. -/
def remainder (range r : CacheRegion K) : List (CacheRegion K) :=
  if r.Overlaps range then (r.difference range).1.toList ++ (r.difference range).2.toList else [r]

/-- What is left of a range has its other keys. -/
theorem exists_mem_remainder :
    (∃ s ∈ remainder range r, s.ContainsKey key) ↔ r.ContainsKey key ∧ ¬ range.ContainsKey key := by
  rw [remainder]
  split_ifs with hov
  · obtain ⟨h₁, h₂⟩ := hov
    simp only [CacheRegion.difference, CacheRegion.Overlaps, h₁, h₂, and_self, if_true]
    split_ifs <;> simp [CacheRegion.ContainsKey] <;> grind
  · simp only [mem_singleton, exists_eq_left, iff_self_and]
    exact fun hr hkey => hov (CacheRegion.overlaps_iff_exists.mpr ⟨key, hr, hkey⟩)

theorem pairwise_remainder : (remainder range r).Pairwise fun r s => ¬ r.Overlaps s := by
  have := range.startKey_lt
  rw [remainder, CacheRegion.difference]
  split_ifs <;> (simp [CacheRegion.Overlaps]; try grind)

/-- The ranges that are cut have the first key or the end of the removed range. -/
theorem length_diffs_le (hdisj : ranges.Pairwise fun r s => ¬ r.Overlaps s) :
    ((ranges.map (·.difference range)).filter (· ≠ (none, none))).length ≤ 2 := by
  have hcut : ∀ r : CacheRegion K, r.difference range ≠ (none, none) →
      r.ContainsKey range.startKey ∨ r.ContainsKey range.endKey := by
    intro r hr
    rw [CacheRegion.difference] at hr
    split_ifs at hr with hov hl hr₁ hr₂
    · exact .inl ⟨hl.le, hov.2⟩
    · exact .inl ⟨hl.le, hov.2⟩
    · exact .inr ⟨hov.1.le, hr₂⟩
    · exact absurd rfl hr
    · exact absurd rfl hr
  have hdisj := hdisj.filter fun r => r.difference range ≠ (none, none)
  have hall : ∀ r ∈ ranges.filter fun r => r.difference range ≠ (none, none),
      r.ContainsKey range.startKey ∨ r.ContainsKey range.endKey := fun r hr =>
    hcut r (by simpa using (mem_filter.mp hr).2)
  have hmeet : ∀ {r s : CacheRegion K} {key}, r.ContainsKey key → s.ContainsKey key →
      r.Overlaps s := fun hr hs => CacheRegion.overlaps_iff_exists.mpr ⟨_, hr, hs⟩
  rw [filter_map, length_map]
  change (ranges.filter fun r => r.difference range ≠ (none, none)).length ≤ 2
  generalize ranges.filter (fun r => r.difference range ≠ (none, none)) = cut at hdisj hall ⊢
  rcases cut with _ | ⟨r₁, _ | ⟨r₂, _ | ⟨r₃, cut⟩⟩⟩
  · simp
  · simp
  · simp
  · -- Two of three such ranges have the same key.
    simp only [pairwise_cons, forall_mem_cons] at hdisj hall
    obtain ⟨⟨h₁₂, h₁₃, -⟩, ⟨h₂₃, -⟩, -⟩ := hdisj
    obtain ⟨h₁, h₂, h₃, -⟩ := hall
    rcases h₁ with h₁ | h₁ <;> rcases h₂ with h₂ | h₂ <;> rcases h₃ with h₃ | h₃ <;>
      first
        | exact absurd (hmeet h₁ h₂) h₁₂
        | exact absurd (hmeet h₁ h₃) h₁₃
        | exact absurd (hmeet h₂ h₃) h₂₃

/-- The list after a removal has what is left of each range. -/
theorem perm_remainder (ranges : List (CacheRegion K)) (range : CacheRegion K) :
    (ranges.filter fun r => r.difference range = (none, none) ∧ ¬ r.Overlaps range) ++
      ((ranges.map (·.difference range)).filter (· ≠ (none, none))).flatMap
        (fun d => d.1.toList ++ d.2.toList) ~ ranges.flatMap (remainder range) := by
  induction ranges with
  | nil => simp
  | cons r ranges ih =>
    rw [flatMap_cons, remainder]
    split_ifs with hov
    · refine .trans ?_ (ih.append_left _)
      by_cases hd : r.difference range = (none, none)
      · simp [hov, hd]
      · simpa [hov, hd, -append_assoc] using perm_append_comm_assoc ..
    · have hd : r.difference range = (none, none) := by simp [CacheRegion.difference, hov]
      simpa [hov, hd] using ih

/-- **Removing a range removes its keys**, and the assertion holds. -/
theorem Holds.remove (h : Holds ranges keys) (range : CacheRegion K) :
    ∃ ranges', removeManualLoadRange ranges range = some ranges' ∧
      Holds ranges' (keys \ {key | range.ContainsKey key}) := by
  have hcut : removeManualLoadRange ranges range = some _ := if_pos (length_diffs_le h.disjoint)
  have hperm := perm_remainder ranges range
  refine ⟨_, hcut, (hperm.pairwise_iff fun hov h => hov h.symm).mpr ?_, fun key => ?_⟩
  · refine pairwise_flatMap.mpr ⟨fun r _ => pairwise_remainder, h.disjoint.imp fun hrs => ?_⟩
    intro r' hr' s' hs' hov
    obtain ⟨key, hr, hs⟩ := CacheRegion.overlaps_iff_exists.mp hov
    exact hrs (CacheRegion.overlaps_iff_exists.mpr ⟨key,
      (exists_mem_remainder.mp ⟨r', hr', hr⟩).1, (exists_mem_remainder.mp ⟨s', hs', hs⟩).1⟩)
  · rw [Set.mem_sdiff, h.mem_iff]
    simp only [hperm.mem_iff, mem_flatMap]
    constructor
    · rintro ⟨⟨r, hr, hkey⟩, hnot⟩
      obtain ⟨s, hs, hskey⟩ := exists_mem_remainder.mpr ⟨hkey, hnot⟩
      exact ⟨s, ⟨r, hr, hs⟩, hskey⟩
    · rintro ⟨s, ⟨r, hr, hs⟩, hskey⟩
      obtain ⟨hkey, hnot⟩ := exists_mem_remainder.mp ⟨s, hs, hskey⟩
      exact ⟨⟨r, hr, hkey⟩, hnot⟩

theorem Holds.overlap_iff (h : Holds ranges keys) :
    overlapWithManualLoadRange ranges range = true ↔ ∃ key ∈ keys, range.ContainsKey key := by
  simp only [overlapWithManualLoadRange, any_eq_true, decide_eq_true_eq,
    CacheRegion.overlaps_iff_exists, h.mem_iff]
  constructor
  · rintro ⟨r, hr, key, hkey, hkey'⟩
    exact ⟨key, ⟨r, hr, hkey⟩, hkey'⟩
  · rintro ⟨key, ⟨r, hr, hkey⟩, hkey'⟩
    exact ⟨r, hr, key, hkey, hkey'⟩

/-- The calls. -/
inductive ManualCall (K : Type) [LinearOrder K]
  | add (range : CacheRegion K)
  | remove (range : CacheRegion K)

/-- The ranges after a call. -/
def step (ranges : List (CacheRegion K)) : ManualCall K → Option (List (CacheRegion K))
  | .add range => some (addManualLoadRange ranges range)
  | .remove range => removeManualLoadRange ranges range

/-- What the calls mean for a set of keys. -/
def apply (keys : Set K) : ManualCall K → Set K
  | .add range => keys ∪ {key | range.ContainsKey key}
  | .remove range => keys \ {key | range.ContainsKey key}

/-- **The ranges stand for a set of keys**, after every sequence of calls. -/
theorem manualLoadRanges_hold (calls : List (ManualCall K)) :
    ∃ ranges, calls.foldlM step [] = some ranges ∧ Holds ranges (calls.foldl apply ∅) ∧
      ∀ range, overlapWithManualLoadRange ranges range = true ↔
        ∃ key ∈ calls.foldl apply ∅, range.ContainsKey key := by
  suffices h : ∃ ranges, calls.foldlM step [] = some ranges ∧
      Holds ranges (calls.foldl apply ∅) by
    obtain ⟨ranges, hrun, hholds⟩ := h
    exact ⟨ranges, hrun, hholds, fun range => hholds.overlap_iff⟩
  have hnew : Holds ([] : List (CacheRegion K)) ∅ := ⟨.nil, by simp⟩
  generalize ([] : List (CacheRegion K)) = ranges, (∅ : Set K) = keys at hnew ⊢
  induction calls generalizing ranges keys with
  | nil => exact ⟨ranges, rfl, hnew⟩
  | cons call calls ih =>
    cases call with
    | add range => exact ih _ _ (hnew.add range)
    | remove range =>
      obtain ⟨ranges', hstep, hholds⟩ := hnew.remove range
      rw [foldlM_cons, step, hstep]
      exact ih _ _ hholds

end ManualLoad

end Tikv.InMemoryEngine
