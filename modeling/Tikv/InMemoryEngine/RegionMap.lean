import Mathlib.Data.List.TakeWhile
import Tikv.Foundation.Fallible
import Tikv.InMemoryEngine.RegionManager

/-!
# The map of the cached regions is consistent

`RegionMetaMap.Consistent` says that the two maps of the cached regions agree, that the ranges are
disjoint, and that the flag tells whether a region is cached. Under it the range queries find
exactly the regions that overlap a range (`Consistent.iterOverlappedRegions`), and each operation on
the map is described by what a lookup by id finds afterwards.
-/

namespace Tikv.InMemoryEngine

open AssocMap List Option RegionMetaMap OrderedMap CacheRegionMeta

variable {K : Type} [LinearOrder K]

namespace CacheRegion

variable {r s : CacheRegion K}

theorem Overlaps.symm (h : r.Overlaps s) : s.Overlaps r := ⟨h.2, h.1⟩

theorem overlaps_self (r : CacheRegion K) : r.Overlaps r := ⟨r.startKey_lt, r.startKey_lt⟩

theorem Overlaps.mono {t : CacheRegion K} (h : s.Overlaps t) (hle : r.ContainsRange s) :
    r.Overlaps t :=
  ⟨hle.1.trans_lt h.1, h.2.trans_le hle.2⟩

theorem overlaps_iff_exists : r.Overlaps s ↔ ∃ key, r.ContainsKey key ∧ s.ContainsKey key := by
  constructor
  · intro h
    exact ⟨max r.startKey s.startKey, ⟨le_max_left _ _, max_lt r.startKey_lt h.2⟩,
      ⟨le_max_right _ _, max_lt h.1 s.startKey_lt⟩⟩
  · rintro ⟨key, hr, hs⟩
    exact ⟨hr.1.trans_lt hs.2, hs.1.trans_lt hr.2⟩

theorem overlaps_of_endKey_eq (h : r.endKey = s.endKey) : r.Overlaps s :=
  ⟨h ▸ r.startKey_lt, h ▸ s.startKey_lt⟩

end CacheRegion

namespace RegionMetaMap

/-- The two maps agree, the ranges are disjoint, and the flag is right. -/
structure Consistent (m : RegionMetaMap K) : Prop where
  id_eq : ∀ {id self}, m.regions.lookup id = some self → self.region.id = id
  byRange_iff : ∀ key id, m.regionsByRange.lookup key = some id ↔
    ∃ self, m.regions.lookup id = some self ∧ self.region.endKey = key
  disjoint : ∀ {id id' self self'}, m.regions.lookup id = some self →
    m.regions.lookup id' = some self' → self.region.Overlaps self'.region → id = id'
  isActive_iff : m.isActive ↔ ∃ id self, m.regions.lookup id = some self

variable {m m' : RegionMetaMap K} {region : CacheRegion K} {id : ℕ} {self : CacheRegionMeta K}

theorem entries_ne_nil_iff {regions : Map ℕ (CacheRegionMeta K)} :
    regions.entries ≠ [] ↔ ∃ id self, regions.lookup id = some self := by
  constructor
  · intro h
    obtain ⟨⟨id, self⟩, hmem⟩ := exists_mem_of_ne_nil _ h
    exact ⟨id, self, lookup_eq_some_iff.mpr hmem⟩
  · rintro ⟨id, self, hlookup⟩ hnil
    rw [AssocMap.lookup_eq_some_iff, hnil] at hlookup
    exact absurd hlookup not_mem_nil

theorem consistent_new : (new : RegionMetaMap K).Consistent where
  id_eq := nofun
  byRange_iff := by simp [new]
  disjoint := nofun
  isActive_iff := by simp [new]

variable (h : m.Consistent)
include h

/-- Of two cached regions the one with the larger end starts after the other one's end. -/
theorem Consistent.endKey_le_startKey {id' : ℕ} {self' : CacheRegionMeta K}
    (hself : m.regions.lookup id = some self) (hself' : m.regions.lookup id' = some self')
    (hlt : self.region.endKey < self'.region.endKey) :
    self.region.endKey ≤ self'.region.startKey := by
  by_contra hnot
  have hoverlap : self.region.Overlaps self'.region :=
    ⟨self.region.startKey_lt.trans hlt, not_le.mp hnot⟩
  obtain rfl := h.disjoint hself hself' hoverlap
  obtain rfl := mem_unique hself hself'
  exact hlt.false

/-- The regions met from some entries on, in the order of their end keys. -/
theorem Consistent.overlappedFrom (region : CacheRegion K)
    {entries : List (K × ℕ)} (hsorted : entries.Pairwise (·.1 < ·.1))
    (hentries : ∀ e ∈ entries, m.regionsByRange.lookup e.1 = some e.2) :
    ∃ metas, m.overlappedFrom region entries = .ok metas ∧
      (metas.map (·.region.id)).Sublist (entries.map (·.2)) ∧
      ∀ self, self ∈ metas ↔ (∃ e ∈ entries, m.regions.lookup e.2 = some self) ∧
        self.region.startKey < region.endKey := by
  induction entries with
  | nil => exact ⟨[], rfl, nil_sublist _, by simp⟩
  | cons e entries ih =>
    obtain ⟨hfirst, hrest⟩ := pairwise_cons.mp hsorted
    obtain ⟨self, hself, hend⟩ := (h.byRange_iff _ _).mp (hentries e mem_cons_self)
    obtain ⟨metas, heq, hsub, hmem⟩ := ih hrest fun e' he' =>
      hentries e' (mem_cons_of_mem _ he')
    rw [RegionMetaMap.overlappedFrom, hself]
    dsimp only
    split_ifs with hle
    · -- The later regions start after this one.
      refine ⟨[], rfl, nil_sublist _, fun self' => ?_⟩
      simp only [not_mem_nil, false_iff, not_and, not_lt]
      rintro ⟨e', he', hself'⟩
      rcases mem_cons.mp he' with rfl | he'
      · obtain rfl := mem_unique hself hself'
        exact hle
      · obtain ⟨self'', hself'', hend'⟩ := (h.byRange_iff _ _).mp (hentries e' (.tail _ he'))
        obtain rfl := mem_unique hself'' hself'
        have hlt : self.region.endKey < self''.region.endKey := by
          rw [hend, hend']
          exact hfirst e' he'
        exact hle.trans (self.region.startKey_lt.le.trans (h.endKey_le_startKey hself hself'' hlt))
    · refine ⟨self :: metas, by rw [heq]; rfl, ?_, fun self' => ?_⟩
      · rw [map_cons, h.id_eq hself]
        exact hsub.cons_cons e.2
      · rw [mem_cons, hmem]
        constructor
        · rintro (rfl | ⟨⟨e', he', hself'⟩, hlt⟩)
          · exact ⟨⟨e, mem_cons_self, hself⟩, not_le.mp hle⟩
          · exact ⟨⟨e', mem_cons_of_mem _ he', hself'⟩, hlt⟩
        · rintro ⟨⟨e', he', hself'⟩, hlt⟩
          rcases mem_cons.mp he' with rfl | he'
          · exact .inl (mem_unique hself' hself)
          · exact .inr ⟨⟨e', he', hself'⟩, hlt⟩

/-- Metas of different regions of the map. -/
structure Cached (m : RegionMetaMap K) (metas : List (CacheRegionMeta K)) : Prop where
  ids : (metas.map (·.region.id)).Nodup
  lookup : ∀ self ∈ metas, m.regions.lookup self.region.id = some self

theorem Consistent.cached_singleton (hself : m.regions.lookup id = some self) :
    m.Cached [self] where
  ids := nodup_singleton _
  lookup := by
    intro self' hself'
    obtain rfl := mem_singleton.mp hself'
    rw [h.id_eq hself]
    exact hself

omit h in
theorem Cached.sublist {metas l : List (CacheRegionMeta K)} (h : m.Cached metas)
    (hsub : l.Sublist metas) : m.Cached l :=
  ⟨h.ids.sublist (hsub.map _), fun self hself => h.lookup self (hsub.subset hself)⟩

/-- **`iter_overlapped_regions` meets exactly the regions that overlap.** -/
theorem Consistent.iterOverlappedRegions (region : CacheRegion K) :
    ∃ metas, m.iterOverlappedRegions region = .ok metas ∧ m.Cached metas ∧
      ∀ self, self ∈ metas ↔
        m.regions.lookup self.region.id = some self ∧ self.region.Overlaps region := by
  have hlookup : ∀ e ∈ m.regionsByRange.above region.startKey,
      m.regionsByRange.lookup e.1 = some e.2 ∧ region.startKey < e.1 := by
    intro e he
    rw [mem_above] at he
    exact ⟨lookup_eq_some_iff.mpr he.1, he.2⟩
  have hsorted : (m.regionsByRange.above region.startKey).Pairwise (·.1 < ·.1) :=
    m.regionsByRange.sorted.filter _
  obtain ⟨metas, heq, hsub, hmem⟩ := h.overlappedFrom region hsorted fun e he => (hlookup e he).1
  have hiff : ∀ self, self ∈ metas ↔
      m.regions.lookup self.region.id = some self ∧ self.region.Overlaps region := by
    intro self
    rw [hmem]
    constructor
    · rintro ⟨⟨e, he, hself⟩, hlt⟩
      obtain ⟨self', hself', hend⟩ := (h.byRange_iff _ _).mp (hlookup e he).1
      obtain rfl := mem_unique hself' hself
      exact ⟨(h.id_eq hself).symm ▸ hself, hlt, hend ▸ (hlookup e he).2⟩
    · rintro ⟨hself, hlt, hlt'⟩
      have hbyRange := (h.byRange_iff _ _).mpr ⟨self, hself, rfl⟩
      refine ⟨⟨(self.region.endKey, self.region.id), ?_, hself⟩, hlt⟩
      exact mem_above.mpr ⟨lookup_eq_some_iff.mp hbyRange, hlt'⟩
  refine ⟨metas, heq, ⟨hsub.nodup ?_, fun self hself => ((hiff self).mp hself).1⟩, hiff⟩
  -- Different end keys belong to different regions.
  rw [List.Nodup, pairwise_map]
  refine hsorted.imp_of_mem fun he he' hlt heq => hlt.ne ?_
  obtain ⟨self, hself, hend⟩ := (h.byRange_iff _ _).mp (hlookup _ he).1
  obtain ⟨self', hself', hend'⟩ := (h.byRange_iff _ _).mp (hlookup _ he').1
  rw [← heq] at hself'
  obtain rfl := mem_unique hself hself'
  exact hend.symm.trans hend'

/-- `overlaps_with` looks at the first region that ends after the start of the range. -/
theorem Consistent.overlapsWith (region : CacheRegion K) :
    ∃ b, m.overlapsWith region = .ok b ∧
      (b = true ↔ ∃ id self, m.regions.lookup id = some self ∧ self.region.Overlaps region) := by
  obtain ⟨metas, heq, -, hmem⟩ := h.iterOverlappedRegions region
  have hiff : metas ≠ [] ↔
      ∃ id self, m.regions.lookup id = some self ∧ self.region.Overlaps region := by
    constructor
    · intro hne
      obtain ⟨self, hself⟩ := exists_mem_of_ne_nil _ hne
      obtain ⟨hid, hoverlap⟩ := (hmem self).mp hself
      exact ⟨self.region.id, self, hid, hoverlap⟩
    · rintro ⟨id, self, hid, hoverlap⟩
      exact ne_nil_of_mem ((hmem self).mpr ⟨(h.id_eq hid).symm ▸ hid, hoverlap⟩)
  rw [← hiff]
  unfold RegionMetaMap.iterOverlappedRegions at heq
  unfold RegionMetaMap.overlapsWith
  cases habove : m.regionsByRange.above region.startKey with
  | nil =>
    rw [habove] at heq
    obtain rfl := Except.ok.inj heq
    exact ⟨false, rfl, by simp⟩
  | cons e entries =>
    have he : e ∈ m.regionsByRange.above region.startKey := habove ▸ mem_cons_self
    have hbyRange := lookup_eq_some_iff.mpr (mem_above.mp he).1
    obtain ⟨self, hself, -⟩ := (h.byRange_iff _ _).mp hbyRange
    rw [habove, RegionMetaMap.overlappedFrom, hself] at heq
    refine ⟨decide (self.region.startKey < region.endKey), by
      rw [head?_cons]; simp only [regionMeta, hself]; rfl, ?_⟩
    rw [decide_eq_true_eq]
    dsimp only at heq
    split_ifs at heq with hle
    · obtain rfl := Except.ok.inj heq
      exact ⟨fun hlt => absurd hle (not_le.mpr hlt), fun hne => absurd rfl hne⟩
    · obtain ⟨rest, -, rfl⟩ := map_eq_ok.mp heq
      exact ⟨fun _ => cons_ne_nil _ _, fun _ => not_le.mp hle⟩

/-- A region that overlaps no other one is put into the map, or takes the place of its old meta. -/
theorem Consistent.of_lookup_insert
    (hdisjoint : ∀ {id self'}, m.regions.lookup id = some self' → id ≠ self.region.id →
      ¬self'.region.Overlaps self.region)
    (hold : ∀ {old}, m.regions.lookup self.region.id = some old → old.region = self.region)
    (hregions : ∀ l, m'.regions.lookup l =
      if l = self.region.id then some self else m.regions.lookup l)
    (hbyRange : ∀ key, m'.regionsByRange.lookup key =
      if key = self.region.endKey then some self.region.id else m.regionsByRange.lookup key)
    (hactive : m'.isActive) : m'.Consistent where
  id_eq := by
    intro id self' hself'
    rw [hregions] at hself'
    split_ifs at hself' with hnew
    · obtain rfl := some.inj hself'
      exact hnew.symm
    · exact h.id_eq hself'
  byRange_iff := by
    intro key id
    rw [hregions, hbyRange]
    split_ifs with hkey hnew hnew
    · simp [hkey, hnew]
    · -- The end key of the region belongs to no other one.
      constructor
      · intro heq
        exact absurd (some.inj heq).symm hnew
      · rintro ⟨self', hself', hend⟩
        exact absurd (CacheRegion.overlaps_of_endKey_eq (hend.trans hkey)) (hdisjoint hself' hnew)
    · subst hnew
      rw [h.byRange_iff]
      constructor
      · rintro ⟨old, hlookup, rfl⟩
        exact absurd (congrArg _ (hold hlookup)) hkey
      · rintro ⟨self', hself', hend⟩
        obtain rfl := some.inj hself'
        exact absurd hend.symm hkey
    · exact h.byRange_iff key id
  disjoint := by
    intro id id' self₁ self₂ hself₁ hself₂ hoverlap
    rw [hregions] at hself₁ hself₂
    split_ifs at hself₁ hself₂ with hnew hnew' hnew'
    · exact hnew.trans hnew'.symm
    · obtain rfl := some.inj hself₁
      exact absurd hoverlap.symm (hdisjoint hself₂ hnew')
    · obtain rfl := some.inj hself₂
      exact absurd hoverlap (hdisjoint hself₁ hnew)
    · exact h.disjoint hself₁ hself₂ hoverlap
  isActive_iff := ⟨fun _ => ⟨_, self, (hregions _).trans (if_pos rfl)⟩, fun _ => hactive⟩

/-- **`new_region_meta` adds a region that overlaps none.** -/
theorem Consistent.newRegionMeta
    (hdisjoint : ∀ {id self'}, m.regions.lookup id = some self' →
      ¬self'.region.Overlaps self.region)
    (hid : m.regions.lookup self.region.id = none) :
    ∃ m', m.newRegionMeta self = .ok m' ∧ m'.Consistent ∧
      ∀ id, m'.regions.lookup id =
        if id = self.region.id then some self else m.regions.lookup id := by
  obtain ⟨b, hb, hiff⟩ := h.overlapsWith self.region
  obtain rfl : b = false := by
    rw [Bool.eq_false_iff]
    intro htrue
    obtain ⟨id, self', hself', hoverlap⟩ := hiff.mp htrue
    exact hdisjoint hself' hoverlap
  have hend : m.regionsByRange.lookup self.region.endKey = none := by
    rw [eq_none_iff_forall_ne_some]
    intro id hlookup
    obtain ⟨self', hself', heq⟩ := (h.byRange_iff _ _).mp hlookup
    exact hdisjoint hself' (CacheRegion.overlaps_of_endKey_eq heq)
  have hactive : ¬(m.regions.entries = [] ∧ m.isActive) := by
    rintro ⟨hnil, hactive⟩
    exact entries_ne_nil_iff.mpr (h.isActive_iff.mp hactive) hnil
  refine ⟨{
      regionsByRange := m.regionsByRange.insert self.region.endKey self.region.id
      regions := m.regions.insert self.region.id self
      isActive := m.regions.entries = [] ∨ m.isActive }, ?_, ?_, fun id => lookup_insert _ _ _ _⟩
  · unfold RegionMetaMap.newRegionMeta
    rw [hb]
    simp only [hid, hend, isSome_none, Bool.false_eq_true, if_false, if_neg hactive]
  refine h.of_lookup_insert (fun hself' _ => hdisjoint hself')
    (fun hold => nomatch hid.symm.trans hold) (fun _ => lookup_insert _ _ _ _)
    (fun _ => lookup_insert _ _ _ _) (decide_eq_true ?_)
  by_cases hnil : m.regions.entries = []
  · exact .inl hnil
  · exact .inr (h.isActive_iff.mpr (entries_ne_nil_iff.mp hnil))

/-- `new_region_meta` returns only for a region that overlaps none. -/
theorem Consistent.of_newRegionMeta (hm' : m.newRegionMeta self = .ok m') :
    (∀ {id self'}, m.regions.lookup id = some self' → ¬self'.region.Overlaps self.region) ∧
      m.regions.lookup self.region.id = none := by
  obtain ⟨b, hb, hiff⟩ := h.overlapsWith self.region
  unfold RegionMetaMap.newRegionMeta at hm'
  rw [hb] at hm'
  cases b with
  | true => cases hm'
  | false =>
    split_ifs at hm' with hid
    refine ⟨fun {id self'} hself' hoverlap => ?_, by simpa using hid⟩
    exact absurd (hiff.mpr ⟨id, self', hself', hoverlap⟩) nofun

/-- **`remove_region` removes a region that is there.** -/
theorem Consistent.removeRegion (hself : m.regions.lookup id = some self) :
    ∃ m', m.removeRegion id = .ok (self, m') ∧ m'.Consistent ∧
      ∀ l, m'.regions.lookup l = if l = id then none else m.regions.lookup l := by
  have hactive : m.isActive = true := h.isActive_iff.mpr ⟨id, self, hself⟩
  have hlookup : ∀ l, (m.regions.erase id).lookup l =
      if l = id then none else m.regions.lookup l := fun l => lookup_erase _ _ _
  refine ⟨{
      regionsByRange := m.regionsByRange.erase self.region.endKey
      regions := m.regions.erase id
      isActive := m.isActive ∧ (m.regions.erase id).entries ≠ [] }, ?_, ?_, hlookup⟩
  · unfold RegionMetaMap.removeRegion
    rw [hself]
    simp [hactive]
  refine ⟨?_, ?_, ?_, ?_⟩
  · intro l self' hself'
    rw [hlookup] at hself'
    split_ifs at hself'
    exact h.id_eq hself'
  · intro key l
    simp only [hlookup, OrderedMap.lookup_erase]
    split_ifs with hkey hl hl
    · simp
    · constructor
      · exact nofun
      · rintro ⟨self', hself', hend⟩
        exact absurd (h.disjoint hself' hself
          (CacheRegion.overlaps_of_endKey_eq (hend.trans hkey))) hl
    · subst hl
      constructor
      · intro heq
        obtain ⟨self', hself', hend⟩ := (h.byRange_iff _ _).mp heq
        obtain rfl := mem_unique hself hself'
        exact absurd hend.symm hkey
      · rintro ⟨self', hself', -⟩
        cases hself'
    · exact h.byRange_iff key l
  · intro l l' self₁ self₂ hself₁ hself₂ hoverlap
    rw [hlookup] at hself₁ hself₂
    split_ifs at hself₁ hself₂
    exact h.disjoint hself₁ hself₂ hoverlap
  · rw [hactive, decide_eq_true_eq]
    exact (and_iff_right rfl).trans entries_ne_nil_iff

/-- A meta is changed, but not its region. -/
theorem Consistent.setMeta {old : CacheRegionMeta K}
    (hold : m.regions.lookup id = some old) (hregion : self.region = old.region) :
    (m.setMeta self).Consistent ∧
      ∀ l, (m.setMeta self).regions.lookup l =
        if l = id then some self else m.regions.lookup l := by
  obtain rfl : self.region.id = id := hregion ▸ h.id_eq hold
  have hlookup : ∀ l, (m.setMeta self).regions.lookup l =
      if l = self.region.id then some self else m.regions.lookup l :=
    fun l => lookup_insert _ _ _ _
  refine ⟨h.of_lookup_insert (fun hself' hne hoverlap => ?_) (fun hold' => ?_) hlookup
    (fun key => ?_) (h.isActive_iff.mpr ⟨_, old, hold⟩), hlookup⟩
  · exact hne (h.disjoint hself' hold (hregion ▸ hoverlap))
  · exact mem_unique hold hold' ▸ hregion.symm
  · split_ifs with hkey
    · exact (h.byRange_iff _ _).mpr ⟨old, hold, hregion ▸ hkey.symm⟩
    · rfl

/-- Regions of the map can be removed one after the other. -/
theorem Consistent.removeRegions {ids : List ℕ} (hnodup : ids.Nodup)
    (hids : ∀ id ∈ ids, ∃ self, m.regions.lookup id = some self) :
    ∃ m', m.removeRegions ids = .ok m' ∧ m'.Consistent ∧
      ∀ l, m'.regions.lookup l = if l ∈ ids then none else m.regions.lookup l := by
  induction ids generalizing m with
  | nil => exact ⟨m, rfl, h, by simp⟩
  | cons id ids ih =>
    obtain ⟨hnew, hnodup⟩ := nodup_cons.mp hnodup
    obtain ⟨self, hself⟩ := hids id mem_cons_self
    obtain ⟨m₁, heq₁, h₁, hlookup₁⟩ := h.removeRegion hself
    have hrest : ∀ id' ∈ ids, ∃ self, m₁.regions.lookup id' = some self := by
      intro id' hid'
      have hne : id' ≠ id := fun heq => hnew (heq ▸ hid')
      rw [hlookup₁, if_neg hne]
      exact hids id' (mem_cons_of_mem _ hid')
    obtain ⟨m₂, heq₂, h₂, hlookup₂⟩ := ih h₁ hnodup hrest
    refine ⟨m₂, ?_, h₂, fun l => ?_⟩
    · rw [removeRegions, heq₁]
      exact heq₂
    · rw [hlookup₂, hlookup₁]
      by_cases hl : l = id <;> by_cases hl' : l ∈ ids <;> simp [hl']

/-- What `load_region` and `prepare_for_apply` do to the map: pending regions are removed, added or
start to load, and the others keep all but the flag that they are written. -/
structure PendingChange (region : CacheRegion K) (m m' : RegionMetaMap K) : Prop where
  consistent : m'.Consistent
  kept : ∀ {id self}, m.regions.lookup id = some self → self.state ≠ .pending →
    ∃ isWritten, m'.regions.lookup id = some { self with isWritten }
  origin : ∀ {id self'}, m'.regions.lookup id = some self' → ∃ self state isWritten,
    self' = { self with state, isWritten } ∧
      (m.regions.lookup id = some self ∧ (state = self.state ∨ self.state = .pending ∧
          state = .loading ∧ id = region.id ∧ region.epochVersion ≤ self.region.epochVersion) ∨
        id = region.id ∧ self = .new region ∧ (state = .pending ∨ state = .loading))

theorem PendingChange.refl (region : CacheRegion K) :
    PendingChange region m m where
  consistent := h
  kept := fun {_ self} hself _ => ⟨self.isWritten, hself⟩
  origin := fun {_ self'} hself' => ⟨self', self'.state, self'.isWritten, rfl,
    .inl ⟨hself', .inl rfl⟩⟩

omit h in
/-- Pending regions are removed. -/
theorem PendingChange.of_removed {ids : List ℕ} (h : m'.Consistent)
    (hlookup : ∀ l, m'.regions.lookup l = if l ∈ ids then none else m.regions.lookup l)
    (hids : ∀ id ∈ ids, ∃ self, m.regions.lookup id = some self ∧ self.state = .pending) :
    PendingChange region m m' where
  consistent := h
  kept := by
    intro id self hself hstate
    have hid : id ∉ ids := by
      intro hmem
      obtain ⟨self', hself', hpending⟩ := hids id hmem
      obtain rfl := mem_unique hself hself'
      exact hstate hpending
    exact ⟨self.isWritten, by rw [hlookup, if_neg hid]; exact hself⟩
  origin := by
    intro id self' hself'
    rw [hlookup] at hself'
    split_ifs at hself'
    exact ⟨self', self'.state, self'.isWritten, rfl, .inl ⟨hself', .inl rfl⟩⟩

/-- The check only removes pending regions, and reports what is in the way. -/
theorem Consistent.checkOverlapWithRegion (region : CacheRegion K) :
    ∃ result m', m.checkOverlapWithRegion region = .ok (result, m') ∧ PendingChange region m m' ∧
      (∀ {id self}, m'.regions.lookup id = some self → m.regions.lookup id = some self) ∧
      (result = none → m'.regions.lookup region.id = none ∧
        ∀ {id self}, m'.regions.lookup id = some self → ¬self.region.Overlaps region) ∧
      ((∀ {id self}, m.regions.lookup id = some self → ¬self.region.Overlaps region) →
        m.regions.lookup region.id = none → result = none) := by
  obtain ⟨metas, heq, hcached, hmem⟩ := h.iterOverlappedRegions region
  set stale := metas.takeWhile (isStale region) with hstale
  have hstale_mem : ∀ self ∈ stale, self ∈ metas ∧ self.state = .pending := by
    intro self hself
    have htrue := mem_takeWhile_imp hself
    rw [isStale, decide_eq_true_eq] at htrue
    exact ⟨(takeWhile_sublist _).subset hself, htrue.1⟩
  have hids : ∀ id ∈ stale.map (·.region.id),
      ∃ self, m.regions.lookup id = some self ∧ self.state = .pending := by
    intro id hid
    obtain ⟨self, hself, rfl⟩ := List.mem_map.mp hid
    obtain ⟨hid, -⟩ := (hmem self).mp (hstale_mem self hself).1
    exact ⟨self, hid, (hstale_mem self hself).2⟩
  obtain ⟨m', heq', h', hlookup⟩ := h.removeRegions
    (hcached.ids.sublist ((takeWhile_sublist _).map _)) fun id hid =>
      (hids id hid).imp fun self hself => hself.1
  have hkept : ∀ {id self}, m'.regions.lookup id = some self → m.regions.lookup id = some self := by
    intro id self hself
    rw [hlookup] at hself
    split_ifs at hself
    exact hself
  unfold RegionMetaMap.checkOverlapWithRegion
  rw [heq]
  dsimp only
  rw [heq']
  cases hhead : (metas.dropWhile (isStale region)).head? with
  | some self =>
    refine ⟨_, m', rfl, .of_removed h' hlookup hids, hkept, nofun, fun hdisjoint _ => ?_⟩
    have hself : self ∈ metas :=
      (dropWhile_sublist _).subset (mem_of_mem_head? (mem_def.mpr hhead))
    obtain ⟨hid, hoverlap⟩ := (hmem self).mp hself
    exact absurd hoverlap (hdisjoint hid)
  | none =>
    refine ⟨_, m', rfl, .of_removed h' hlookup hids, hkept, fun hnone => ⟨?_, ?_⟩, fun _ hid => ?_⟩
    · simpa using hnone
    · -- All overlapping regions were stale, and are removed.
      intro id self hself hoverlap
      have hall : stale = metas := by
        have hsplit := takeWhile_append_dropWhile (p := isStale region) (l := metas)
        rw [head?_eq_none_iff.mp hhead, append_nil] at hsplit
        exact hsplit
      obtain rfl := h.id_eq (hkept hself)
      have hin : self ∈ stale := hall ▸ (hmem self).mpr ⟨hkept hself, hoverlap⟩
      have hid : self.region.id ∈ stale.map (·.region.id) := mem_map_of_mem hin
      rw [hlookup, if_pos hid] at hself
      cases hself
    · have hlookup' : m'.regions.lookup region.id = none := by
        rw [hlookup, hid, ite_self]
      rw [hlookup']
      rfl

/-- **`load_region` does not panic**, and adds a pending region or none. -/
theorem Consistent.loadRegion (region : CacheRegion K) :
    ∃ result m', m.loadRegion region = .ok (result, m') ∧ PendingChange region m m' ∧
      (∀ {id self}, m'.regions.lookup id = some self →
        m.regions.lookup id = some self ∨ id = region.id ∧ self = .new region) ∧
      (result = .ok () → m'.regions.lookup region.id = some (.new region)) ∧
      ((∀ {id self}, m.regions.lookup id = some self → ¬self.region.Overlaps region) →
        m.regions.lookup region.id = none → result = .ok ()) := by
  obtain ⟨result, m₁, heq₁, hchange, hkept, hnone, hfree⟩ := h.checkOverlapWithRegion region
  unfold RegionMetaMap.loadRegion
  rw [heq₁]
  cases result with
  | some result =>
    exact ⟨_, m₁, rfl, hchange, fun hself => .inl (hkept hself), nofun,
      fun hdisjoint hid => absurd (hfree hdisjoint hid) nofun⟩
  | none =>
    obtain ⟨hid, hdisjoint⟩ := hnone rfl
    change m₁.regions.lookup (CacheRegionMeta.new region).region.id = none at hid
    obtain ⟨m₂, heq₂, h₂, hlookup⟩ := hchange.consistent.newRegionMeta hdisjoint hid
    refine ⟨.ok (), m₂, by simp only [heq₂]; rfl, ⟨h₂, ?_, ?_⟩, ?_, fun _ => ?_, fun _ _ => rfl⟩
    · intro id self hself hstate
      obtain ⟨isWritten, hself₁⟩ := hchange.kept hself hstate
      have hne : id ≠ region.id := by
        rintro rfl
        exact nomatch hid.symm.trans hself₁
      exact ⟨isWritten, by rw [hlookup]; exact (if_neg hne).trans hself₁⟩
    · intro id self' hself'
      rw [hlookup] at hself'
      split_ifs at hself' with hnew
      · obtain rfl := some.inj hself'
        exact ⟨.new region, .pending, false, rfl, .inr ⟨hnew, rfl, .inl rfl⟩⟩
      · exact hchange.origin hself'
    · intro id self hself
      rw [hlookup] at hself
      split_ifs at hself with hnew
      · exact .inr ⟨hnew, (some.inj hself).symm⟩
      · exact .inl (hkept hself)
    · rw [hlookup]
      exact if_pos rfl

/-- A meta that is not pending keeps all but the flag; a pending one starts to load. -/
theorem Consistent.prepareMeta (hself : m.regions.lookup region.id = some self)
    (hepoch : self.state = .pending → region.epochVersion ≤ self.region.epochVersion)
    (setInWritten : Bool) : PendingChange region m (m.prepareMeta self setInWritten).2.2 := by
  have hset : ∀ state isWritten, (state = self.state ∨ self.state = .pending ∧ state = .loading) →
      PendingChange region m (m.setMeta { self with state, isWritten }) := by
    intro state isWritten hstate
    have hregion : ({ self with state, isWritten } : CacheRegionMeta K).region = self.region := rfl
    obtain ⟨hconsistent, hlookup⟩ := h.setMeta hself hregion
    refine ⟨hconsistent, ?_, ?_⟩
    · intro id self' hself' hnot
      rw [hlookup]
      split_ifs with hid
      · subst hid
        obtain rfl := mem_unique hself hself'
        obtain rfl := hstate.resolve_right fun hand => hnot hand.1
        exact ⟨isWritten, rfl⟩
      · exact ⟨self'.isWritten, hself'⟩
    · intro id self' hself'
      rw [hlookup] at hself'
      split_ifs at hself' with hid
      · subst hid
        obtain rfl := some.inj hself'
        exact ⟨self, state, isWritten, rfl, .inl ⟨hself, hstate.imp_right fun hand =>
          ⟨hand.1, hand.2, rfl, hepoch hand.1⟩⟩⟩
      · exact ⟨self', self'.state, self'.isWritten, rfl, .inl ⟨hself', .inl rfl⟩⟩
  cases hstate : self.state <;> simp only [RegionMetaMap.prepareMeta, hstate]
  · exact hset .loading _ (.inr ⟨hstate, rfl⟩)
  · exact hset .loading _ (.inl hstate.symm)
  · exact hset .active _ (.inl hstate.symm)
  all_goals exact .refl h region

omit h in
/-- Two changes of pending regions, of which the second one starts loads of a new region only. -/
theorem PendingChange.trans {m₁ m₂ : RegionMetaMap K} (h₁ : PendingChange region m m₁)
    (h₂ : PendingChange region m₁ m₂) : PendingChange region m m₂ where
  consistent := h₂.consistent
  kept := by
    intro id self hself hstate
    obtain ⟨isWritten, hself₁⟩ := h₁.kept hself hstate
    obtain ⟨isWritten', hself₂⟩ := h₂.kept hself₁ hstate
    exact ⟨isWritten', hself₂⟩
  origin := by
    intro id self₂ hself₂
    obtain ⟨self₁, state, isWritten, rfl, ⟨hself₁, hstate⟩ | ⟨hid, rfl, hstate⟩⟩ := h₂.origin hself₂
    · obtain ⟨self, state₁, isWritten₁, rfl, ⟨hself, hstate₁⟩ | ⟨hid, rfl, hstate₁⟩⟩ :=
        h₁.origin hself₁
      · refine ⟨self, state, isWritten, rfl, .inl ⟨hself, ?_⟩⟩
        rcases hstate with rfl | ⟨hpending, rfl, hid, hepoch⟩
        · exact hstate₁
        · refine .inr ⟨?_, rfl, hid, hepoch⟩
          rcases hstate₁ with rfl | ⟨hpending', -⟩
          · exact hpending
          · exact hpending'
      · refine ⟨.new region, state, isWritten, rfl, .inr ⟨hid, rfl, ?_⟩⟩
        rcases hstate with rfl | ⟨-, rfl, -⟩
        · exact hstate₁
        · exact .inr rfl
    · exact ⟨.new region, state, isWritten, rfl, .inr ⟨hid, rfl, hstate⟩⟩

/-- **`prepare_for_apply` does not panic.** -/
theorem Consistent.prepareForApply (region : CacheRegion K)
    (setInWritten inFlashback : Bool) :
    ∃ result m', m.prepareForApply region setInWritten inFlashback = .ok (result, m') ∧
      PendingChange region m m'.2 := by
  unfold RegionMetaMap.prepareForApply
  by_cases hactive : m.isActive = false
  · rw [if_pos hactive]
    exact ⟨_, _, rfl, .refl h region⟩
  rw [if_neg hactive]
  cases hself : m.regions.lookup region.id with
  | none => exact ⟨_, _, rfl, .refl h region⟩
  | some self =>
    dsimp only
    by_cases hpending : self.state = .pending
    swap
    · rw [if_pos hpending]
      exact ⟨_, _, rfl, h.prepareMeta hself (fun heq => absurd heq hpending) setInWritten⟩
    rw [if_neg (not_ne_iff.mpr hpending)]
    by_cases hstale : self.region.epochVersion < region.epochVersion ∨ inFlashback
    swap
    · rw [if_neg hstale]
      rw [not_or] at hstale
      exact ⟨_, _, rfl, h.prepareMeta hself (fun _ => not_lt.mp hstale.1) setInWritten⟩
    rw [if_pos hstale]
    obtain ⟨m₁, heq₁, h₁, hlookup₁⟩ := h.removeRegion hself
    have hremoved : PendingChange region m m₁ := by
      have hlookup : ∀ l, m₁.regions.lookup l =
          if l ∈ [region.id] then none else m.regions.lookup l := by
        intro l
        rw [hlookup₁]
        simp only [mem_singleton]
      refine .of_removed h₁ hlookup fun id hid => ?_
      obtain rfl := mem_singleton.mp hid
      exact ⟨self, hself, hpending⟩
    rw [heq₁]
    dsimp only
    rw [if_neg (not_ne_iff.mpr hpending)]
    by_cases hflashback : inFlashback = true
    · rw [if_pos hflashback]
      exact ⟨_, _, rfl, hremoved⟩
    have hepoch : self.region.epochVersion < region.epochVersion := hstale.resolve_right hflashback
    rw [if_neg hflashback, canBeUpdatedTo, if_pos ⟨h.id_eq hself, hepoch⟩]
    by_cases hcontains : self.region.ContainsRange region
    swap
    · rw [decide_eq_false hcontains]
      exact ⟨_, _, rfl, hremoved⟩
    rw [decide_eq_true hcontains]
    -- The range was that of the removed region.
    obtain ⟨result, m₂, heq₂, hchange, -, hnew, hok⟩ := h₁.loadRegion region
    obtain rfl : result = .ok () := by
      refine hok ?_ (by rw [hlookup₁, if_pos rfl])
      intro id self' hself' hoverlap
      rw [hlookup₁] at hself'
      split_ifs at hself' with hid
      exact hid (h.disjoint hself' hself (hoverlap.symm.mono hcontains).symm)
    rw [heq₂]
    dsimp only
    rw [RegionMetaMap.regionMeta, hnew rfl]
    refine ⟨_, _, rfl, hremoved.trans (hchange.trans ?_)⟩
    exact hchange.consistent.prepareMeta (hnew rfl) (fun _ => le_rfl) setInWritten

/-! ### Metas that are changed in place -/

theorem Consistent.onAllOverlappedRegions (region : CacheRegion K) :
    ∃ metas, m.onAllOverlappedRegions region = .ok metas ∧ m.Cached metas := by
  obtain ⟨metas, heq, hcached, -⟩ := h.iterOverlappedRegions region
  unfold RegionMetaMap.onAllOverlappedRegions
  cases hself : m.regions.lookup region.id with
  | none => exact ⟨metas, heq, hcached⟩
  | some self =>
    dsimp only
    split_ifs
    · exact ⟨[self], rfl, h.cached_singleton hself⟩
    · exact ⟨metas, heq, hcached⟩

omit h in
theorem exists_of_mem_right {α β : Type} {R : α → β → Prop} {as : List α} {bs : List β} {b : β}
    (h : Forall₂ R as bs) (hb : b ∈ bs) : ∃ a ∈ as, R a b := by
  induction h with
  | nil => exact absurd hb not_mem_nil
  | @cons a b' as bs hab _ ih =>
    rcases mem_cons.mp hb with rfl | hb
    · exact ⟨a, mem_cons_self, hab⟩
    · obtain ⟨a', ha', hab'⟩ := ih hb
      exact ⟨a', mem_cons_of_mem _ ha', hab'⟩

variable {metas metas' : List (CacheRegionMeta K)}

omit h in
theorem forall₂_of_mapMetas {f : CacheRegionMeta K → Except ImePanic (CacheRegionMeta K)}
    (h : mapMetas f metas = .ok metas') :
    Forall₂ (fun old self => f old = .ok self) metas metas' := by
  induction metas generalizing metas' with
  | nil =>
    obtain rfl := Except.ok.inj h
    exact .nil
  | cons old metas ih =>
    rw [mapMetas] at h
    cases hf : f old with rw [hf] at h
    | error panic => cases h
    | ok self =>
      obtain ⟨rest, hrest, rfl⟩ := map_eq_ok.mp h
      exact .cons hf (ih hrest)

/-- The metas after some of them were changed. -/
theorem Consistent.setMetas (hcached : m.Cached metas)
    (hregion : Forall₂ (fun old self : CacheRegionMeta K => self.region = old.region)
      metas metas') :
    (m.setMetas metas').Consistent ∧ ∀ l self, (m.setMetas metas').regions.lookup l = some self ↔
      self ∈ metas' ∧ self.region.id = l ∨
        m.regions.lookup l = some self ∧ l ∉ metas.map (·.region.id) := by
  induction hregion generalizing m with
  | nil =>
    refine ⟨h, fun l self => ?_⟩
    simp [setMetas]
  | @cons old self₁ metas metas' heq _ ih =>
    obtain ⟨hnew, hnodup⟩ := nodup_cons.mp hcached.ids
    obtain ⟨h₁, hlookup₁⟩ := h.setMeta (hcached.lookup old mem_cons_self) heq
    have hrest : ∀ self ∈ metas, (m.setMeta self₁).regions.lookup self.region.id = some self := by
      intro self hself
      have hne : self.region.id ≠ old.region.id := fun hid =>
        hnew (List.mem_map.mpr ⟨self, hself, hid⟩)
      rw [hlookup₁, if_neg hne]
      exact hcached.lookup self (mem_cons_of_mem _ hself)
    obtain ⟨hconsistent, hiff⟩ := ih h₁ ⟨hnodup, hrest⟩
    refine ⟨hconsistent, fun l self => (hiff l self).trans ?_⟩
    rw [hlookup₁, map_cons, mem_cons, mem_cons]
    by_cases hl : l = old.region.id
    · subst hl
      simp only [if_true, some.injEq, not_true, and_false, or_false, hnew,
        not_false_iff, and_true]
      constructor
      · rintro (⟨hself, hid⟩ | rfl)
        · exact ⟨.inr hself, hid⟩
        · exact ⟨.inl rfl, by rw [heq]⟩
      · rintro ⟨rfl | hself, hid⟩
        · exact .inr rfl
        · exact .inl ⟨hself, hid⟩
    · simp only [hl, false_or]
      refine or_congr_left (and_congr_left fun hid => ?_)
      constructor
      · exact .inr
      · rintro (rfl | hself)
        · exact absurd (hid.symm.trans (by rw [heq])) hl
        · exact hself

end RegionMetaMap

/-! ### Splits -/

namespace RegionManager

variable {m m' : RegionMetaMap K} {source : CacheRegionMeta K} {regions : List (CacheRegion K)}

/-- The meta that `derive_from` makes. -/
def derivedMeta (source : CacheRegionMeta K) (region : CacheRegion K) : CacheRegionMeta K :=
  { source with region, regionSnapshotList := .empty, evictInfo := none }

/-- What a split adds to the map. -/
theorem of_newRegions (h : m.Consistent) (heq : newRegions m source regions = .ok m') :
    m'.Consistent ∧
      (∀ {l self}, m'.regions.lookup l = some self ↔ m.regions.lookup l = some self ∨
        ∃ r ∈ regions, r.id = l ∧ self = derivedMeta source r) ∧
      ∀ r ∈ regions, source.region.ContainsRange r ∧ m.regions.lookup r.id = none ∧
        ∀ {l self}, m.regions.lookup l = some self → ¬self.region.Overlaps r := by
  induction regions generalizing m with
  | nil =>
    obtain rfl := Except.ok.inj heq
    exact ⟨h, by simp, nofun⟩
  | cons r regions ih =>
    rw [newRegions, deriveFrom] at heq
    by_cases hcontains : source.region.ContainsRange r
    swap
    · rw [if_neg hcontains] at heq
      cases heq
    rw [if_pos hcontains] at heq
    dsimp only at heq
    split at heq
    · cases heq
    rename_i m₁ hm₁
    obtain ⟨hdisjoint, hid⟩ := h.of_newRegionMeta hm₁
    obtain ⟨m₁', hm₁', h₁, hlookup⟩ := h.newRegionMeta hdisjoint hid
    obtain rfl := ok_unique hm₁ hm₁'
    have hkept : ∀ {l self}, m.regions.lookup l = some self → m₁.regions.lookup l = some self := by
      intro l self hself
      rw [hlookup, if_neg]
      · exact hself
      · rintro rfl
        exact nomatch hid.symm.trans hself
    obtain ⟨h', hiff, hregions⟩ := ih h₁ heq
    refine ⟨h', fun {l self} => hiff.trans ?_, fun r' hr' => ?_⟩
    · constructor
      · rintro (hself | ⟨r', hr', hid', heq'⟩)
        · rw [hlookup] at hself
          split_ifs at hself with hl
          · exact .inr ⟨r, mem_cons_self, hl.symm, (some.inj hself).symm⟩
          · exact .inl hself
        · exact .inr ⟨r', mem_cons_of_mem _ hr', hid', heq'⟩
      · rintro (hself | ⟨r', hr', rfl, rfl⟩)
        · exact .inl (hkept hself)
        · rcases mem_cons.mp hr' with rfl | hr'
          · exact .inl ((hlookup _).trans (if_pos rfl))
          · exact .inr ⟨r', hr', rfl, rfl⟩
    · rcases mem_cons.mp hr' with rfl | hr'
      · exact ⟨hcontains, hid, hdisjoint⟩
      · obtain ⟨hcontains', hid', hdisjoint'⟩ := hregions r' hr'
        refine ⟨hcontains', ?_, fun hself => hdisjoint' (hkept hself)⟩
        cases hself : m.regions.lookup r'.id with
        | none => rfl
        | some self => exact nomatch hid'.symm.trans (hkept hself)

/-- The regions of a split can be added. -/
theorem exists_newRegions (h : m.Consistent)
    (hcontains : ∀ r ∈ regions, source.region.ContainsRange r)
    (hfree : ∀ r ∈ regions, m.regions.lookup r.id = none)
    (hdisjoint : ∀ r ∈ regions, ∀ {l self}, m.regions.lookup l = some self →
      ¬self.region.Overlaps r)
    (hids : (regions.map (·.id)).Nodup) (hpairwise : regions.Pairwise fun r r' => ¬r.Overlaps r') :
    ∃ m', newRegions m source regions = .ok m' := by
  induction regions generalizing m with
  | nil => exact ⟨m, rfl⟩
  | cons r regions ih =>
    obtain ⟨hid, hids⟩ := nodup_cons.mp hids
    obtain ⟨hr, hpairwise⟩ := pairwise_cons.mp hpairwise
    have hfree_r := hfree r mem_cons_self
    change m.regions.lookup (derivedMeta source r).region.id = none at hfree_r
    obtain ⟨m₁, hm₁, h₁, hlookup⟩ := h.newRegionMeta (hdisjoint r mem_cons_self) hfree_r
    rw [newRegions, deriveFrom, if_pos (hcontains r mem_cons_self)]
    rw [derivedMeta] at hm₁
    dsimp only
    rw [hm₁]
    refine ih h₁ (fun r' hr' => hcontains r' (mem_cons_of_mem _ hr')) (fun r' hr' => ?_)
      (fun r' hr' l self hself => ?_) hids hpairwise
    · rw [hlookup, if_neg]
      · exact hfree r' (mem_cons_of_mem _ hr')
      · exact fun heq => hid (List.mem_map.mpr ⟨r', hr', heq⟩)
    · rw [hlookup] at hself
      split_ifs at hself
      · obtain rfl := some.inj hself
        exact hr r' hr'
      · exact hdisjoint r' (mem_cons_of_mem _ hr') hself

/-- The regions of a split partition the range of the region, and are newer. -/
structure IsSplit (source : CacheRegion K) (regions : List (CacheRegion K)) : Prop where
  newer : ∀ r ∈ regions, source.epochVersion < r.epochVersion
  covers : ∀ key, source.ContainsKey key ↔ ∃ r ∈ regions, r.ContainsKey key
  disjoint : regions.Pairwise fun r r' => ¬r.Overlaps r'

theorem IsSplit.containsRange {source r : CacheRegion K} (h : IsSplit source regions)
    (hr : r ∈ regions) : source.ContainsRange r := by
  have hsub : ∀ key, r.ContainsKey key → source.ContainsKey key := fun key hkey =>
    (h.covers key).mpr ⟨r, hr, hkey⟩
  refine ⟨(hsub r.startKey ⟨le_rfl, r.startKey_lt⟩).1, ?_⟩
  by_contra hlt
  rw [not_le] at hlt
  have hkey := hsub (max r.startKey source.endKey) ⟨le_max_left _ _, max_lt r.startKey_lt hlt⟩
  exact absurd hkey.2 (not_lt.mpr (le_max_right _ _))

end RegionManager

end Tikv.InMemoryEngine
