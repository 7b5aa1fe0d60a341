import Mathlib.Data.List.Perm.Subperm
import Tikv.InMemoryEngine.RegionSteps

/-!
# Where the live snapshots are counted

A snapshot of the in-memory engine is counted in the list of its region, and in the list of a
historical region once its region was split. The manager uses the two places to decide when an
evicted region can be deleted.

`RegionManager.Inv` says where each snapshot that is alive is counted, and which states a region can
have then. Loads keep it, and so does a snapshot that is taken or dropped:
`remove_region_snapshot` of a snapshot that is alive does not panic (`Inv.removeRegionSnapshot`).
-/

namespace Tikv.InMemoryEngine

open AssocMap List RegionState SnapshotList RegionMetaMap OrderedMap CacheRegion

variable {K : Type} [LinearOrder K]

/-- The regions of the raftstore over time: its id and its epoch version determine a region. -/
structure Descriptors (K : Type) [LinearOrder K] where
  regions : Set (CacheRegion K)
  eq_of_epochVersion : ∀ {r s}, r ∈ regions → s ∈ regions → r.id = s.id →
    r.epochVersion = s.epochVersion → r = s

/-- The snapshots that are alive. -/
abbrev Live (K : Type) [LinearOrder K] := List (SnapshotMeta K)

/-- The historical regions. -/
abbrev Historical (K : Type) [LinearOrder K] := OrderedMap (KeyAndVersion K) (CacheRegionMeta K)

variable {D : Descriptors K} {hist hist' : Historical K} {live live' : Live K}

/-- What holds of the meta of a cached region. -/
structure MetaInv (D : Descriptors K) (hist : Historical K) (live : Live K)
    (cached : CacheRegionMeta K) : Prop where
  known : cached.region ∈ D.regions
  counted : ∀ ts, cached.regionSnapshotList.count ts = live.count ⟨cached.region, ts⟩
  newer : ∀ {key h}, hist.lookup key = some h → h.region.Overlaps cached.region →
    h.region.epochVersion < cached.region.epochVersion
  quiet : cached.state ≠ .active → cached.state ≠ .pendingEvict →
    (∀ ts, cached.regionSnapshotList.count ts = 0) ∧
      ∀ {key h}, hist.lookup key = some h → ¬h.region.Overlaps cached.region
  pinned : cached.state = .pendingEvict → (∃ ts, 0 < cached.regionSnapshotList.count ts) ∨
    ∃ key h, hist.lookup key = some h ∧ h.region.Overlaps cached.region
  evictInfo : cached.state = .pendingEvict ∨ cached.state = .evicting → cached.evictInfo.isSome

/-- What holds of a historical region. -/
structure HistoricalInv (D : Descriptors K) (live : Live K) (key : KeyAndVersion K)
    (cached : CacheRegionMeta K) : Prop where
  known : cached.region ∈ D.regions
  key_eq : key = cached.region.historicalKey
  counted : ∀ ts, cached.regionSnapshotList.count ts = live.count ⟨cached.region, ts⟩
  pos : ∃ ts, 0 < cached.regionSnapshotList.count ts

variable {cached : CacheRegionMeta K}

theorem MetaInv.of_count (h : MetaInv D hist live cached)
    (hcount : ∀ ts, live'.count ⟨cached.region, ts⟩ = live.count ⟨cached.region, ts⟩) :
    MetaInv D hist live' cached :=
  { h with counted := fun ts => (h.counted ts).trans (hcount ts).symm }

/-- The historical regions are changed. -/
theorem MetaInv.of_historical (h : MetaInv D hist live cached)
    (horigin : ∀ {key past}, hist'.lookup key = some past → past.region.Overlaps cached.region →
      ∃ past', hist.lookup key = some past' ∧ past'.region = past.region)
    (hpinned : cached.state = .pendingEvict → (∃ ts, 0 < cached.regionSnapshotList.count ts) ∨
      ∃ key past, hist'.lookup key = some past ∧ past.region.Overlaps cached.region) :
    MetaInv D hist' live cached where
  known := h.known
  counted := h.counted
  newer := by
    intro key past hpast hoverlap
    obtain ⟨past', hpast', heq⟩ := horigin hpast hoverlap
    exact heq ▸ h.newer hpast' (heq ▸ hoverlap)
  quiet := by
    intro hactive hpending
    obtain ⟨hzero, hdisjoint⟩ := h.quiet hactive hpending
    refine ⟨hzero, fun {key past} hpast hoverlap => ?_⟩
    obtain ⟨past', hpast', heq⟩ := horigin hpast hoverlap
    exact hdisjoint hpast' (heq ▸ hoverlap)
  pinned := hpinned
  evictInfo := h.evictInfo

theorem HistoricalInv.of_count {key : KeyAndVersion K} (h : HistoricalInv D live key cached)
    (hcount : ∀ ts, live'.count ⟨cached.region, ts⟩ = live.count ⟨cached.region, ts⟩) :
    HistoricalInv D live' key cached :=
  { h with counted := fun ts => (h.counted ts).trans (hcount ts).symm }

namespace RegionManager

/-- The invariant of the manager. -/
structure Inv (D : Descriptors K) (rm : RegionManager K) (live : Live K)
    (scheduled : List (CacheRegion K)) : Prop where
  consistent : rm.regionsMap.Consistent
  metas : ∀ {id self}, rm.regionsMap.regions.lookup id = some self →
    MetaInv D rm.historicalRegions live self
  historical : ∀ {key h}, rm.historicalRegions.lookup key = some h → HistoricalInv D live key h
  covered : ∀ {key h k}, rm.historicalRegions.lookup key = some h → h.region.ContainsKey k →
    ∃ id self, rm.regionsMap.regions.lookup id = some self ∧ self.region.ContainsKey k
  placed : ∀ s ∈ live, (∃ id self, rm.regionsMap.regions.lookup id = some self ∧
      self.region = s.region) ∨
    ∃ key h, rm.historicalRegions.lookup key = some h ∧ h.region = s.region
  nodup : scheduled.Nodup
  scheduled_iff : ∀ r, r ∈ scheduled ↔ ∃ id self, rm.regionsMap.regions.lookup id = some self ∧
    self.region = r ∧ self.state = .evicting

variable {rm rm' : RegionManager K} {scheduled scheduled' : List (CacheRegion K)} {id : ℕ}
  {self old h : CacheRegionMeta K} {key : KeyAndVersion K}

theorem inv_new (D : Descriptors K) : Inv D .new [] [] where
  consistent := consistent_new
  metas := nofun
  historical := nofun
  covered := nofun
  placed := nofun
  nodup := .nil
  scheduled_iff := fun _ => ⟨nofun, nofun⟩

variable (hinv : Inv D rm live scheduled)
include hinv

theorem Inv.perm (hperm : scheduled.Perm scheduled') :
    Inv D rm live scheduled' :=
  { hinv with
    nodup := hperm.nodup_iff.mp hinv.nodup
    scheduled_iff := fun r => hperm.mem_iff.symm.trans (hinv.scheduled_iff r) }

section

variable (hself : rm.regionsMap.regions.lookup id = some self)
include hself

/-- A region that overlaps a historical one is active or still to be evicted. -/
theorem Inv.active_or_pendingEvict (hh : rm.historicalRegions.lookup key = some h)
    (hoverlap : h.region.Overlaps self.region) :
    self.state = .active ∨ self.state = .pendingEvict := by
  by_contra hnot
  rw [not_or] at hnot
  exact ((hinv.metas hself).quiet hnot.1 hnot.2).2 hh hoverlap

theorem Inv.region_ne (hh : rm.historicalRegions.lookup key = some h) : h.region ≠ self.region := by
  intro heq
  have hlt := (hinv.metas hself).newer hh (heq ▸ h.region.overlaps_self)
  exact absurd (heq ▸ hlt) (lt_irrefl _)

/-- Cached regions with the same region are the same. -/
theorem Inv.eq_of_region_eq {id' : ℕ} {self' : CacheRegionMeta K}
    (hself' : rm.regionsMap.regions.lookup id' = some self') (heq : self.region = self'.region) :
    id = id' :=
  hinv.consistent.disjoint hself hself' (heq ▸ self.region.overlaps_self)

end

theorem Inv.region_not_mem_scheduled (hold : rm.regionsMap.regions.lookup id = some old)
    (hstate : old.state ≠ .evicting) :
    old.region ∉ scheduled := by
  rw [hinv.scheduled_iff]
  rintro ⟨id', self, hself, heq, hevicting⟩
  obtain rfl := hinv.eq_of_region_eq hself hold heq
  obtain rfl := Option.mem_unique hself hold
  exact hstate hevicting

/-- No snapshot of a range without cached regions is alive. -/
theorem Inv.count_eq_zero {region : CacheRegion K}
    (hmetas : ∀ {id self}, rm.regionsMap.regions.lookup id = some self → self.region = region →
      ∀ ts, self.regionSnapshotList.count ts = 0)
    (hhist : ∀ {key h}, rm.historicalRegions.lookup key = some h → ¬h.region.Overlaps region)
    (ts : ℕ) : live.count ⟨region, ts⟩ = 0 := by
  rw [List.count_eq_zero]
  intro hmem
  rcases hinv.placed _ hmem with ⟨id, self, hself, heq⟩ | ⟨key, h, hh, heq⟩
  · have hcount := hmetas hself heq ts
    rw [(hinv.metas hself).counted, heq, List.count_eq_zero] at hcount
    exact hcount hmem
  · exact hhist hh (heq ▸ h.region.overlaps_self)

/-- Snapshots are taken or dropped, while the cached regions stay. -/
structure SnapshotChange (D : Descriptors K) (rm : RegionManager K) (hist' : Historical K)
    (live' : Live K) : Prop where
  historical : ∀ {key h}, hist'.lookup key = some h → HistoricalInv D live' key h
  origin : ∀ {key h}, hist'.lookup key = some h →
    ∃ h', rm.historicalRegions.lookup key = some h' ∧ h'.region = h.region
  placed : ∀ s ∈ live', (∃ id self, rm.regionsMap.regions.lookup id = some self ∧
      self.region = s.region) ∨
    ∃ key h, hist'.lookup key = some h ∧ h.region = s.region

theorem Inv.snapshotChange :
    SnapshotChange D rm rm.historicalRegions live where
  historical := hinv.historical
  origin := fun {_ h} hh => ⟨h, hh, rfl⟩
  placed := hinv.placed

/-- Only snapshots of a cached region are taken or dropped. -/
theorem Inv.snapshotChange_of_cached (hold : rm.regionsMap.regions.lookup id = some old)
    (hcount : ∀ s : SnapshotMeta K, old.region ≠ s.region → live'.count s = live.count s) :
    SnapshotChange D rm rm.historicalRegions live' where
  historical := fun hh => (hinv.historical hh).of_count fun _ =>
    hcount _ (hinv.region_ne hold hh).symm
  origin := fun {_ h} hh => ⟨h, hh, rfl⟩
  placed := by
    intro s hs
    by_cases hregion : old.region = s.region
    · exact .inl ⟨id, old, hold, hregion⟩
    · refine hinv.placed s (count_pos_iff.mp ?_)
      rw [← hcount s hregion]
      exact count_pos_iff.mpr hs

variable {metas metas' : List (CacheRegionMeta K)}

section

variable (hcached : rm.regionsMap.Cached metas)
  (hrest : ∀ {self}, rm.regionsMap.regions.lookup self.region.id = some self → self ∉ metas →
    MetaInv D hist' live' self)
  (hchange : SnapshotChange D rm hist' live')
include hcached hrest hchange

/-- Some metas are changed, and snapshots are taken or dropped. -/
theorem Inv.setMetas
    (hrel : List.Forall₂ (fun old self => self.region = old.region ∧ MetaInv D hist' live' self ∧
      (old.state = .evicting → self.state = .evicting)) metas metas') (hnodup : scheduled'.Nodup)
    (hscheduled : ∀ r, r ∈ scheduled' ↔ r ∈ scheduled ∨ ∃ self ∈ metas', self.region = r ∧
      self.state = .evicting) :
    Inv D ⟨rm.regionsMap.setMetas metas', hist'⟩ live' scheduled' := by
  obtain ⟨hconsistent, hlookup⟩ := hinv.consistent.setMetas hcached
    (hrel.imp fun _ _ hrel => hrel.1)
  -- The new meta of a cached region.
  have hcached : ∀ {id old}, rm.regionsMap.regions.lookup id = some old →
      ∃ self, (rm.regionsMap.setMetas metas').regions.lookup id = some self ∧
        self.region = old.region ∧ (old.state = .evicting → self.state = .evicting) := by
    intro id old hold
    by_cases hid : id ∈ metas.map (·.region.id)
    · obtain ⟨old', hold', rfl⟩ := mem_map.mp hid
      obtain rfl := Option.mem_unique (hcached.lookup old' hold') hold
      obtain ⟨self, hself, heq, -, hevicting⟩ := exists_of_mem_right hrel.flip hold'
      exact ⟨self, (hlookup _ self).mpr (.inl ⟨hself, by rw [heq]⟩), heq, hevicting⟩
    · exact ⟨old, (hlookup id old).mpr (.inr ⟨hold, hid⟩), rfl, fun hevicting => hevicting⟩
  refine ⟨hconsistent, ?_, hchange.historical, ?_, ?_, hnodup, ?_⟩
  · intro id self hself
    rcases (hlookup id self).mp hself with ⟨hself, -⟩ | ⟨hself, hid⟩
    · obtain ⟨old, -, -, hmeta, -⟩ := exists_of_mem_right hrel hself
      exact hmeta
    · obtain rfl := hinv.consistent.id_eq hself
      exact hrest hself fun hin => hid (mem_map_of_mem hin)
  · intro key h k hh hk
    obtain ⟨h', hh', heq⟩ := hchange.origin hh
    obtain ⟨id, old, hold, hold_k⟩ := hinv.covered hh' (heq.symm ▸ hk)
    obtain ⟨self, hself, heq', -⟩ := hcached hold
    exact ⟨id, self, hself, heq'.symm ▸ hold_k⟩
  · intro s hs
    refine (hchange.placed s hs).imp_left ?_
    rintro ⟨id, old, hold, heq⟩
    obtain ⟨self, hself, heq', -⟩ := hcached hold
    exact ⟨id, self, hself, heq'.trans heq⟩
  · intro r
    rw [hscheduled r, hinv.scheduled_iff r]
    constructor
    · rintro (⟨id, old, hold, rfl, hstate⟩ | ⟨self, hself, rfl, hstate⟩)
      · obtain ⟨self, hself, heq, hevicting⟩ := hcached hold
        exact ⟨id, self, hself, heq, hevicting hstate⟩
      · exact ⟨_, self, (hlookup _ self).mpr (.inl ⟨hself, rfl⟩), rfl, hstate⟩
    · rintro ⟨id, self, hself, rfl, hstate⟩
      rcases (hlookup id self).mp hself with ⟨hself, -⟩ | ⟨hself, -⟩
      · exact .inr ⟨self, hself, rfl, hstate⟩
      · exact .inl ⟨id, self, hself, rfl, hstate⟩

/-- Some metas that are not evicted are changed; the regions that are evicted are scheduled. -/
theorem Inv.setMetas_schedule
    (hrel : List.Forall₂ (fun old self => self.region = old.region ∧ MetaInv D hist' live' self ∧
      old.state ≠ .evicting) metas metas') :
    Inv D ⟨rm.regionsMap.setMetas metas', hist'⟩ live'
      ((metas'.filter (·.state = .evicting)).map (·.region) ++ scheduled) := by
  have hregions : (metas'.map (·.region)).Nodup := by
    have heq : metas'.map (·.region) = metas.map (·.region) := by
      clear hcached hrest
      induction hrel with
      | nil => rfl
      | cons hself _ ih => rw [map_cons, map_cons, ih, hself.1]
    rw [heq]
    refine List.Nodup.of_map (·.id) ?_
    rw [map_map]
    exact hcached.ids
  have hnot : ∀ {self}, self ∈ metas' → self.region ∉ scheduled := by
    intro self hself
    obtain ⟨old, hold, heq, -, hstate⟩ := exists_of_mem_right hrel hself
    exact heq ▸ hinv.region_not_mem_scheduled (hcached.lookup old hold) hstate
  refine hinv.setMetas hcached hrest hchange (hrel.imp fun old self hself => ?_) ?_ ?_
  · exact ⟨hself.1, hself.2.1, fun hevicting => absurd hevicting hself.2.2⟩
  · refine nodup_append.mpr ⟨(filter_sublist.map _).nodup hregions, hinv.nodup, ?_⟩
    rintro r hr r' hr' rfl
    obtain ⟨self, hself, rfl⟩ := mem_map.mp hr
    exact hnot (mem_filter.mp hself).1 hr'
  · intro r
    simp only [mem_append, mem_map, mem_filter, decide_eq_true_eq]
    constructor
    · rintro (⟨self, ⟨hself, hstate⟩, heq⟩ | hr)
      · exact .inr ⟨self, hself, heq, hstate⟩
      · exact .inl hr
    · rintro (hr | ⟨self, hself, heq, hstate⟩)
      · exact .inr hr
      · exact .inl ⟨self, ⟨hself, hstate⟩, heq⟩

end

/-- One meta is changed, and only snapshots of its region are taken or dropped. -/
theorem Inv.setMeta (hold : rm.regionsMap.regions.lookup id = some old)
    (hself : MetaInv D rm.historicalRegions live' self) (hregion : self.region = old.region)
    (hcount : ∀ s : SnapshotMeta K, old.region ≠ s.region → live'.count s = live.count s)
    (hstate : old.state ≠ .evicting) :
    Inv D { rm with regionsMap := rm.regionsMap.setMeta self } live'
      (([self].filter (·.state = .evicting)).map (·.region) ++ scheduled) := by
  refine hinv.setMetas_schedule (hinv.consistent.cached_singleton hold) ?_
    (hinv.snapshotChange_of_cached hold hcount) (.cons ⟨hregion, hself, hstate⟩ .nil)
  intro self' hself' hne
  refine (hinv.metas hself').of_count fun ts => hcount _ fun heq => hne ?_
  obtain rfl := hinv.eq_of_region_eq hold hself' heq
  exact mem_singleton.mpr (Option.mem_unique hself' hold)

/-! ### Loads -/

/-- `load_region` and `prepare_for_apply`. A new region overlaps no historical one, since the ranges
of these are cached. -/
theorem Inv.pendingChange {region : CacheRegion K} {m' : RegionMetaMap K}
    (hregion : region ∈ D.regions) (hchange : RegionMetaMap.PendingChange region rm.regionsMap m') :
    Inv D { rm with regionsMap := m' } live scheduled := by
  have hcovered : ∀ {key h k}, rm.historicalRegions.lookup key = some h → h.region.ContainsKey k →
      ∃ id self, m'.regions.lookup id = some self ∧ self.region.ContainsKey k ∧
        self.state ≠ .pending ∧ self.state ≠ .loading := by
    intro key h k hh hk
    obtain ⟨id, self, hself, hself_k⟩ := hinv.covered hh hk
    have hstate := hinv.active_or_pendingEvict hself hh
      (overlaps_iff_exists.mpr ⟨k, hk, hself_k⟩)
    have hpending : self.state ≠ .pending := ne_of_eq_or hstate nofun nofun
    obtain ⟨isWritten, hself'⟩ := hchange.kept hself hpending
    exact ⟨id, _, hself', hself_k, hpending, ne_of_eq_or hstate nofun nofun⟩
  have hnew : ∀ {self}, m'.regions.lookup region.id = some self → self.region = region →
      (self.state = .pending ∨ self.state = .loading) →
      ∀ {key h}, rm.historicalRegions.lookup key = some h → ¬h.region.Overlaps region := by
    rintro self hself rfl hstate key h hh hoverlap
    obtain ⟨k, hk, hk'⟩ := overlaps_iff_exists.mp hoverlap
    obtain ⟨id, self', hself', hself_k, hpending, hloading⟩ := hcovered hh hk
    obtain rfl := hchange.consistent.disjoint hself' hself
      (overlaps_iff_exists.mpr ⟨k, hself_k, hk'⟩)
    obtain rfl := Option.mem_unique hself hself'
    exact hstate.elim hpending hloading
  refine ⟨hchange.consistent, ?_, hinv.historical, ?_, ?_, hinv.nodup, ?_⟩
  · intro id self' hself'
    obtain ⟨self, state, isWritten, rfl, ⟨hself, rfl | ⟨hpending, rfl, -⟩⟩ | ⟨rfl, rfl, hstate⟩⟩ :=
      hchange.origin hself'
    · exact { hinv.metas hself with }
    · have hmeta := hinv.metas hself
      have hquiet := hmeta.quiet (by rw [hpending]; nofun) (by rw [hpending]; nofun)
      exact ⟨hmeta.known, hmeta.counted, hmeta.newer, fun _ _ => hquiet, nofun, by simp⟩
    · have hdisjoint : ∀ {key h}, rm.historicalRegions.lookup key = some h →
          ¬h.region.Overlaps region := hnew hself' rfl hstate
      refine ⟨hregion, fun ts => ?_, fun hh hoverlap => absurd hoverlap (hdisjoint hh),
        fun _ _ => ⟨fun _ => rfl, hdisjoint⟩, ?_, ?_⟩
      · refine (hinv.count_eq_zero ?_ hdisjoint ts).symm
        intro id self hself heq
        refine ((hinv.metas hself).quiet ?_ ?_).1 <;> intro hactive
        all_goals
          obtain ⟨isWritten', hself''⟩ := hchange.kept hself (by rw [hactive]; nofun)
          obtain rfl : id = region.id := heq ▸ (hinv.consistent.id_eq hself).symm
          have hstate' : state = self.state :=
            congrArg CacheRegionMeta.state (Option.mem_unique hself' hself'')
          exact absurd (hstate'.trans hactive) (ne_of_eq_or hstate nofun nofun)
      · exact fun hpinned => absurd hpinned (ne_of_eq_or hstate nofun nofun)
      · intro hevict
        rcases hstate with rfl | rfl <;> simp at hevict
  · intro key h k hh hk
    obtain ⟨id, self, hself, hself_k, -⟩ := hcovered hh hk
    exact ⟨id, self, hself, hself_k⟩
  · intro s hs
    refine (hinv.placed s hs).imp_left ?_
    rintro ⟨id, self, hself, heq⟩
    have hpos : 0 < self.regionSnapshotList.count s.snapshotTs := by
      rw [(hinv.metas hself).counted, heq]
      exact count_pos_iff.mpr hs
    have hpending : self.state ≠ .pending := by
      intro hpending
      have hquiet := (hinv.metas hself).quiet (by rw [hpending]; nofun) (by rw [hpending]; nofun)
      exact hpos.ne' (hquiet.1 _)
    obtain ⟨isWritten, hself'⟩ := hchange.kept hself hpending
    exact ⟨id, _, hself', heq⟩
  · intro r
    rw [hinv.scheduled_iff r]
    constructor
    · rintro ⟨id, self, hself, heq, hstate⟩
      obtain ⟨isWritten, hself'⟩ := hchange.kept hself (by rw [hstate]; nofun)
      exact ⟨id, _, hself', heq, hstate⟩
    · rintro ⟨id, self', hself', heq, hevicting⟩
      obtain ⟨self, state, isWritten, rfl, ⟨hself, rfl | ⟨-, rfl, -⟩⟩ | ⟨-, -, hstate⟩⟩ :=
        hchange.origin hself'
      · exact ⟨id, self, hself, heq, hevicting⟩
      · cases hevicting
      · exact absurd hevicting (ne_of_eq_or hstate nofun nofun)

omit hinv in
/-- The end of a load concerns no snapshot. -/
theorem MetaInv.loadEnd (h : MetaInv D hist live old) (hend : LoadEnd old self) :
    MetaInv D hist live self := by
  have hquiet := h.quiet (ne_of_eq_or hend.old_state nofun nofun)
    (ne_of_eq_or hend.old_state nofun nofun)
  have hpinned : self.state ≠ .pendingEvict := by
    rcases hend.new_state with ⟨-, hstate⟩ | ⟨hstate, -⟩ <;> rw [hstate] <;> nofun
  constructor
  · rw [hend.region_eq]
    exact h.known
  · rw [hend.region_eq, hend.list_eq]
    exact h.counted
  · rw [hend.region_eq]
    exact h.newer
  · rw [hend.region_eq, hend.list_eq]
    exact fun _ _ => hquiet
  · exact fun hstate => absurd hstate hpinned
  · rintro (hstate | hstate)
    · exact absurd hstate hpinned
    · rcases hend.new_state with ⟨-, hactive⟩ | ⟨-, hinfo, -⟩
      · rw [hactive] at hstate
        cases hstate
      · exact hinfo

/-- `on_snapshot_load_finished` and `on_snapshot_load_failed`. -/
theorem Inv.onLoadEnd {region : CacheRegion K}
    {f : CacheRegionMeta K → Except ImePanic (CacheRegionMeta K)} {regions : List (CacheRegion K)}
    (hf : ∀ {old self}, f old = .ok self → LoadEnd old self)
    (heq : rm.onLoadEnd region f = .ok (regions, rm')) :
    Inv D rm' live (regions ++ scheduled) := by
  obtain ⟨metas, metas', hcached, hrel, rfl, rfl⟩ := onLoadEnd_eq_ok hinv.consistent hf heq
  refine hinv.setMetas_schedule hcached (fun hself _ => hinv.metas hself) hinv.snapshotChange ?_
  refine forall₂_iff_zip.mpr ⟨hrel.length_eq, fun {old self} hzip => ?_⟩
  have hend := forall₂_zip hrel hzip
  have hold := hinv.metas (hcached.lookup old (of_mem_zip hzip).1)
  exact ⟨hend.region_eq, MetaInv.loadEnd hold hend,
    ne_of_eq_or hend.old_state nofun nofun⟩

/-- `on_gc_region_finished`. -/
theorem Inv.onGcRegionFinished {region : CacheRegion K}
    (heq : rm.onGcRegionFinished region = .ok rm') : Inv D rm' live scheduled := by
  obtain ⟨metas, metas', hcached, hrel, rfl⟩ := onGcRegionFinished_eq_ok hinv.consistent heq
  refine hinv.setMetas hcached (fun hself _ => hinv.metas hself) hinv.snapshotChange ?_
    hinv.nodup ?_
  · refine forall₂_iff_zip.mpr ⟨hrel.length_eq, fun {old self} hzip => ?_⟩
    obtain rfl := forall₂_zip hrel hzip
    have hold := hinv.metas (hcached.lookup old (of_mem_zip hzip).1)
    exact ⟨rfl, { hold with }, fun hevicting => hevicting⟩
  · intro r
    refine (or_iff_left_of_imp ?_).symm
    rintro ⟨self, hself, rfl, hevicting⟩
    obtain ⟨old, hold, rfl⟩ := exists_of_mem_right hrel hself
    exact (hinv.scheduled_iff _).mpr ⟨_, old, hcached.lookup old hold, rfl, hevicting⟩

/-! ### Snapshots -/

omit hinv in
theorem toLex_top_lt_historicalKey {k : K} {region : CacheRegion K} :
    toLex (k, (⊤ : WithTop ℕ)) < region.historicalKey ↔ k < region.endKey := by
  rw [historicalKey, Prod.Lex.toLex_lt_toLex]
  exact or_iff_left fun hand => not_top_lt hand.2

section

variable
  (hkey : ∀ {key h}, rm.historicalRegions.lookup key = some h → key = h.region.historicalKey)
include hkey

omit hinv in
theorem mem_historicalAbove (region : CacheRegion K) :
    h ∈ rm.historicalAbove region ↔
      (∃ key, rm.historicalRegions.lookup key = some h) ∧ region.startKey < h.region.endKey := by
  unfold historicalAbove
  rw [mem_map]
  constructor
  · rintro ⟨⟨key, h⟩, hmem, rfl⟩
    rw [mem_above] at hmem
    have hlookup := lookup_eq_some_iff.mpr hmem.1
    refine ⟨⟨key, hlookup⟩, toLex_top_lt_historicalKey.mp ?_⟩
    rw [← hkey hlookup]
    exact hmem.2
  · rintro ⟨⟨key, hlookup⟩, hlt⟩
    refine ⟨(key, h), mem_above.mpr ⟨lookup_eq_some_iff.mp hlookup, ?_⟩, rfl⟩
    rw [hkey hlookup]
    exact toLex_top_lt_historicalKey.mpr hlt

omit hinv in
/-- **`overlaps_with_historical_regions` is exact.** -/
theorem overlapsWithHistoricalRegions_iff (region : CacheRegion K) :
    rm.overlapsWithHistoricalRegions region = true ↔
      ∃ key h, rm.historicalRegions.lookup key = some h ∧ h.region.Overlaps region := by
  unfold overlapsWithHistoricalRegions
  rw [any_eq_true]
  simp only [mem_historicalAbove hkey, decide_eq_true_eq]
  constructor
  · rintro ⟨h, ⟨⟨key, hh⟩, hlt⟩, hlt'⟩
    exact ⟨key, h, hh, hlt', hlt⟩
  · rintro ⟨key, h, hh, hlt', hlt⟩
    exact ⟨h, ⟨⟨key, hh⟩, hlt⟩, hlt'⟩

omit hinv in
/-- `region_ready_to_evict`: nothing pins the region. -/
theorem regionReadyToEvict_iff : rm.regionReadyToEvict self = true ↔
      self.state = .pendingEvict ∧ (∀ ts, self.regionSnapshotList.count ts = 0) ∧
        ∀ {key h}, rm.historicalRegions.lookup key = some h → ¬h.region.Overlaps self.region := by
  unfold regionReadyToEvict
  rw [Bool.and_eq_true, Bool.and_eq_true, decide_eq_true_eq, SnapshotList.isEmpty_iff,
    Bool.not_eq_true', ← Bool.not_eq_true, overlapsWithHistoricalRegions_iff hkey, and_assoc]
  push Not
  rfl

omit hinv in
/-- Something pins a region that is to be evicted and is not ready. -/
theorem pinned_of_not_ready (hpending : self.state = .pendingEvict)
    (hready : ¬rm.regionReadyToEvict self = true) :
    (∃ ts, 0 < self.regionSnapshotList.count ts) ∨
      ∃ key h, rm.historicalRegions.lookup key = some h ∧ h.region.Overlaps self.region := by
  by_contra hnone
  rw [not_or] at hnone
  have hzero := not_imp_comm.mp exists_pos_count hnone.1
  exact hready ((regionReadyToEvict_iff hkey).mpr ⟨hpending, isEmpty_iff.mp hzero,
    fun hh hoverlap => hnone.2 ⟨_, _, hh, hoverlap⟩⟩)

end

variable {s : SnapshotMeta K}

theorem Inv.live_known (hs : s ∈ live) :
    s.region ∈ D.regions := by
  rcases hinv.placed s hs with ⟨id, self, hself, heq⟩ | ⟨key, h, hh, heq⟩
  · exact heq ▸ (hinv.metas hself).known
  · exact heq ▸ (hinv.historical hh).known

/-- `region_snapshot`. -/
theorem Inv.regionSnapshot {region : CacheRegion K} {readTs : ℕ} (hregion : region ∈ D.regions)
    (heq : rm.regionSnapshot region.id region.epochVersion readTs = .ok rm') :
    Inv D rm' (⟨region, readTs⟩ :: live) scheduled := by
  obtain ⟨old, hold, hactive, hepoch, -, rfl⟩ := regionSnapshot_eq_ok heq
  have hmeta := hinv.metas hold
  obtain rfl : old.region = region :=
    D.eq_of_epochVersion hmeta.known hregion (hinv.consistent.id_eq hold) hepoch
  have hself : MetaInv D rm.historicalRegions (⟨old.region, readTs⟩ :: live)
      { old with regionSnapshotList := old.regionSnapshotList.newSnapshot readTs } := by
    refine ⟨hmeta.known, fun ts => ?_, hmeta.newer, fun hnot => absurd hactive hnot, ?_, ?_⟩
    · change (old.regionSnapshotList.newSnapshot readTs).count ts = _
      rw [count_newSnapshot, hmeta.counted, count_cons]
      simp only [beq_iff_eq, SnapshotMeta.mk.injEq, true_and, eq_comm (a := readTs)]
    · exact fun hpinned => nomatch hactive.symm.trans hpinned
    · exact hmeta.evictInfo
  have hinv' := hinv.setMeta hold hself rfl ?_ (by rw [hactive]; nofun)
  · simpa [hactive] using hinv'
  · intro s hne
    rw [count_cons_of_ne]
    rintro rfl
    exact hne rfl

omit hinv in
theorem count_erase_snapshot (s : SnapshotMeta K) (ts : ℕ) :
    (live.erase s).count ⟨s.region, ts⟩ =
      live.count ⟨s.region, ts⟩ - if ts = s.snapshotTs then 1 else 0 := by
  rw [List.count_erase]
  obtain ⟨region, snapshotTs⟩ := s
  simp only [beq_iff_eq, SnapshotMeta.mk.injEq, true_and, eq_comm (a := ts)]

omit hinv in
theorem count_erase_of_region_ne {s s' : SnapshotMeta K} (hne : s.region ≠ s'.region) :
    (live.erase s).count s' = live.count s' := by
  refine count_erase_of_ne ?_
  rintro rfl
  exact hne rfl

/-- A snapshot of a region that is still cached is dropped. -/
theorem Inv.removeFromRegion (hs : s ∈ live)
    (hold : rm.regionsMap.regions.lookup s.region.id = some old)
    (hepoch : old.region.epochVersion = s.region.epochVersion) :
    ∃ regions rm', rm.removeFromRegion old s.snapshotTs = .ok (regions, rm') ∧
      Inv D rm' (live.erase s) (regions ++ scheduled) := by
  have hmeta := hinv.metas hold
  have hregion : old.region = s.region :=
    D.eq_of_epochVersion hmeta.known (hinv.live_known hs) (hinv.consistent.id_eq hold) hepoch
  have hpos : 0 < old.regionSnapshotList.count s.snapshotTs := by
    rw [hmeta.counted, hregion]
    exact count_pos_iff.mpr hs
  have hstate : old.state = .active ∨ old.state = .pendingEvict := by
    by_contra hnot
    rw [not_or] at hnot
    exact hpos.ne' ((hmeta.quiet hnot.1 hnot.2).1 _)
  have hnot : old.state ≠ .evicting := ne_of_eq_or hstate nofun nofun
  obtain ⟨l, hl, hcount⟩ := exists_removeSnapshot hpos
  have hcounted : ∀ ts, l.count ts = (live.erase s).count ⟨old.region, ts⟩ := by
    intro ts
    rw [hcount, hmeta.counted, hregion, count_erase_snapshot]
  have hframe : ∀ s' : SnapshotMeta K, old.region ≠ s'.region →
      (live.erase s).count s' = live.count s' :=
    fun s' hne => count_erase_of_region_ne (hregion ▸ hne)
  have hkey : ∀ {key h}, rm.historicalRegions.lookup key = some h →
      key = h.region.historicalKey := fun hh => (hinv.historical hh).key_eq
  unfold RegionManager.removeFromRegion
  rw [hl]
  dsimp only
  split_ifs with hready
  · obtain ⟨hpending, hzero, hdisjoint⟩ := (regionReadyToEvict_iff hkey).mp hready
    have hself : MetaInv D rm.historicalRegions (live.erase s)
        { old with regionSnapshotList := l, state := .evicting } :=
      ⟨hmeta.known, hcounted, hmeta.newer, fun _ _ => ⟨hzero, hdisjoint⟩, nofun,
        fun _ => hmeta.evictInfo (.inl hpending)⟩
    have hset : ({ old with regionSnapshotList := l } : CacheRegionMeta K).setState .evicting =
        .ok { old with regionSnapshotList := l, state := .evicting } := by
      rw [hpending]
      rfl
    rw [hset]
    exact ⟨_, _, rfl, hinv.setMeta hold hself rfl hframe hnot⟩
  · have hself : MetaInv D rm.historicalRegions (live.erase s)
        { old with regionSnapshotList := l } := by
      refine ⟨hmeta.known, hcounted, hmeta.newer, fun hactive hpending =>
        absurd hstate (not_or.mpr ⟨hactive, hpending⟩), fun hpending => ?_, hmeta.evictInfo⟩
      exact pinned_of_not_ready hkey hpending hready
    simpa [hnot] using hinv.setMeta hold hself rfl hframe hnot

omit hinv in
theorem deletableRegions_eq {metas : List (CacheRegionMeta K)}
    (h : ∀ self ∈ metas, self.state ≠ .evicting) :
    rm.deletableRegions metas = .ok (metas.filter rm.regionReadyToEvict) := by
  induction metas with
  | nil => rfl
  | cons self metas ih =>
    have ih := ih fun self' hself' => h self' (mem_cons_of_mem _ hself')
    rw [deletableRegions, if_neg (h self mem_cons_self), ih]
    split_ifs with hready
    · rw [filter_cons_of_pos hready]
      rfl
    · rw [filter_cons_of_neg hready]

section

variable (hh : rm.historicalRegions.lookup s.region.historicalKey = some h)
include hh

/-- What a change to one historical region does to the others. -/
theorem Inv.snapshotChange_of_historical (hregion : h.region = s.region)
    (hother : ∀ {key h'}, key ≠ s.region.historicalKey →
      (hist'.lookup key = some h' ↔ rm.historicalRegions.lookup key = some h'))
    (hnew : ∀ {h'}, hist'.lookup s.region.historicalKey = some h' → h'.region = h.region ∧
      HistoricalInv D (live.erase s) s.region.historicalKey h')
    (hnone : hist'.lookup s.region.historicalKey = none →
      ∀ ts, (live.erase s).count ⟨s.region, ts⟩ = 0) :
    SnapshotChange D rm hist' (live.erase s) where
  historical := by
    intro key h' hh'
    by_cases hkey : key = s.region.historicalKey
    · subst hkey
      exact (hnew hh').2
    · have hinv' := hinv.historical ((hother hkey).mp hh')
      refine hinv'.of_count fun ts => count_erase_of_region_ne fun heq => hkey ?_
      rw [hinv'.key_eq, heq]
  origin := by
    intro key h' hh'
    by_cases hkey : key = s.region.historicalKey
    · subst hkey
      exact ⟨h, hh, (hnew hh').1.symm⟩
    · exact ⟨h', (hother hkey).mp hh', rfl⟩
  placed := by
    intro s' hs'
    refine (hinv.placed s' (mem_of_mem_erase hs')).imp_right ?_
    rintro ⟨key, h', hh', heq⟩
    by_cases hkey : key = s.region.historicalKey
    · subst hkey
      obtain rfl := Option.mem_unique hh hh'
      cases hlookup : hist'.lookup s.region.historicalKey with
      | none =>
        have hzero := hnone hlookup s'.snapshotTs
        rw [← hregion, heq] at hzero
        exact absurd hs' (List.count_eq_zero.mp hzero)
      | some h'' => exact ⟨_, h'', hlookup, (hnew hlookup).1.trans heq⟩
    · exact ⟨key, h', (hother hkey).mpr hh', heq⟩

omit hh in
theorem Inv.metas_erase (hh : rm.historicalRegions.lookup key = some h)
    (hregion : h.region = s.region) (hself : rm.regionsMap.regions.lookup id = some self) :
    MetaInv D rm.historicalRegions (live.erase s) self :=
  (hinv.metas hself).of_count fun _ => count_erase_of_region_ne (hregion ▸ hinv.region_ne hself hh)

/-- The last snapshot of a historical region is dropped: the regions that overlap it are not yet
evicted, and those that nothing else pins are. -/
theorem Inv.eraseHistorical (hregion : h.region = s.region)
    (hzero : ∀ ts, (live.erase s).count ⟨s.region, ts⟩ = 0)
    (hhist' : hist' = rm.historicalRegions.erase s.region.historicalKey) :
    ∃ metas deletable m', rm.regionsMap.iterOverlappedRegions s.region = .ok metas ∧
      deletableRegions ⟨rm.regionsMap, hist'⟩ metas = .ok deletable ∧
      setEvicting rm.regionsMap deletable = .ok m' ∧
      Inv D ⟨m', hist'⟩ (live.erase s) (deletable.map (·.region) ++ scheduled) := by
  have hlookup : ∀ key, hist'.lookup key =
      if key = s.region.historicalKey then none else rm.historicalRegions.lookup key := by
    intro key
    rw [hhist']
    exact lookup_erase _ _ _
  have hchange : SnapshotChange D rm hist' (live.erase s) := by
    refine hinv.snapshotChange_of_historical hh hregion ?_ ?_ fun _ => hzero
    · intro key h' hne
      rw [hlookup, if_neg hne]
    · intro h' hh'
      rw [hlookup, if_pos rfl] at hh'
      cases hh'
  have hkey : ∀ {key h}, (⟨rm.regionsMap, hist'⟩ : RegionManager K).historicalRegions.lookup key =
      some h → key = h.region.historicalKey := fun hh => (hchange.historical hh).key_eq
  obtain ⟨metas, hiter, hcached, hmem⟩ := hinv.consistent.iterOverlappedRegions s.region
  have hnot : ∀ self ∈ metas, self.state ≠ .evicting := by
    intro self hself
    obtain ⟨hself, hoverlap⟩ := (hmem self).mp hself
    exact ne_of_eq_or (hinv.active_or_pendingEvict hself hh (hregion ▸ hoverlap.symm))
      nofun nofun
  set deletable := metas.filter (regionReadyToEvict ⟨rm.regionsMap, hist'⟩) with hdeletable
  have hready : ∀ self ∈ deletable, self ∈ metas ∧ self.state = .pendingEvict ∧
      (∀ ts, self.regionSnapshotList.count ts = 0) ∧
      ∀ {key h}, hist'.lookup key = some h → ¬h.region.Overlaps self.region := by
    intro self hself
    obtain ⟨hself, hready⟩ := mem_filter.mp hself
    exact ⟨hself, (regionReadyToEvict_iff hkey).mp hready⟩
  refine ⟨metas, deletable, _, hiter, deletableRegions_eq hnot,
    setEvicting_eq _ fun self hself => (hready self hself).2.1, ?_⟩
  have hinv' : Inv D ⟨rm.regionsMap.setMetas (deletable.map toEvicting), hist'⟩ (live.erase s)
      (((deletable.map toEvicting).filter (·.state = .evicting)).map (·.region) ++ scheduled) := by
    refine hinv.setMetas_schedule (hcached.sublist (l := deletable) filter_sublist) ?_ hchange ?_
    · intro self hself hnotin
      have hmeta := hinv.metas_erase hh hregion hself
      refine hmeta.of_historical (fun hpast _ => hchange.origin hpast) fun hpending => ?_
      by_cases hoverlap : self.region.Overlaps s.region
      · -- The region is one of those that are checked.
        refine pinned_of_not_ready hkey hpending fun hready => hnotin ?_
        exact mem_filter.mpr ⟨(hmem self).mpr ⟨hself, hoverlap⟩, hready⟩
      · refine (hmeta.pinned hpending).imp_right ?_
        rintro ⟨key, past, hpast, hpinned⟩
        refine ⟨key, past, ?_, hpinned⟩
        rw [hlookup, if_neg]
        · exact hpast
        · rintro rfl
          obtain rfl := Option.mem_unique hh hpast
          exact hoverlap (hregion ▸ hpinned.symm)
    · rw [forall₂_map_right_iff, forall₂_same]
      intro self hself
      obtain ⟨hself, hpending, hzero, hdisjoint⟩ := hready self hself
      have hmeta := hinv.metas_erase hh hregion (hcached.lookup self hself)
      exact ⟨rfl, ⟨hmeta.known, hmeta.counted, fun hpast hoverlap =>
        absurd hoverlap (hdisjoint hpast), fun _ _ => ⟨hzero, hdisjoint⟩, nofun,
        fun _ => hmeta.evictInfo (.inl hpending)⟩, hnot self hself⟩
  simpa [filter_map, Function.comp_def, toEvicting] using hinv'

/-- A snapshot of a historical region is dropped, and others are left. -/
theorem Inv.insertHistorical {l : SnapshotList} (hregion : h.region = s.region)
    (hcounted : ∀ ts, l.count ts = (live.erase s).count ⟨s.region, ts⟩)
    (hpos : ∃ ts, 0 < l.count ts) :
    Inv D ⟨rm.regionsMap, rm.historicalRegions.insert s.region.historicalKey
      { h with regionSnapshotList := l }⟩ (live.erase s) scheduled := by
  set hist' := rm.historicalRegions.insert s.region.historicalKey
    { h with regionSnapshotList := l }
  have hlookup : ∀ key, hist'.lookup key = if key = s.region.historicalKey then
      some { h with regionSnapshotList := l } else rm.historicalRegions.lookup key :=
    fun key => lookup_insert _ _ _ _
  have hpast := hinv.historical hh
  have hchange : SnapshotChange D rm hist' (live.erase s) := by
    refine hinv.snapshotChange_of_historical hh hregion ?_ ?_ ?_
    · intro key h' hne
      rw [hlookup, if_neg hne]
    · intro h' hh'
      rw [hlookup, if_pos rfl] at hh'
      obtain rfl := Option.some.inj hh'
      exact ⟨rfl, hpast.known, hpast.key_eq, hregion ▸ hcounted, hpos⟩
    · intro hnone
      rw [hlookup, if_pos rfl] at hnone
      cases hnone
  refine ⟨hinv.consistent, ?_, hchange.historical, ?_, hchange.placed, hinv.nodup,
    hinv.scheduled_iff⟩
  · intro id self hself
    have hmeta := hinv.metas_erase hh hregion hself
    refine hmeta.of_historical (fun hpast _ => hchange.origin hpast) fun hpending => ?_
    refine (hmeta.pinned hpending).imp_right ?_
    rintro ⟨key, past, hpast, hpinned⟩
    by_cases hkey : key = s.region.historicalKey
    · subst hkey
      obtain rfl := Option.mem_unique hh hpast
      exact ⟨_, _, (hlookup _).trans (if_pos rfl), hpinned⟩
    · exact ⟨key, past, (hlookup _).trans ((if_neg hkey).trans hpast), hpinned⟩
  · intro key past k hpast hk
    obtain ⟨past', hpast', heq⟩ := hchange.origin hpast
    exact hinv.covered hpast' (heq ▸ hk)

end

/-- **A snapshot of a region that was split since is dropped.** -/
theorem Inv.removeFromHistorical (hs : s ∈ live)
    (hnone : ∀ {old}, rm.regionsMap.regions.lookup s.region.id = some old →
      old.region.epochVersion ≠ s.region.epochVersion) :
    ∃ regions rm', rm.removeFromHistorical s = .ok (regions, rm') ∧
      Inv D rm' (live.erase s) (regions ++ scheduled) := by
  obtain ⟨h, hh, hregion⟩ : ∃ h, rm.historicalRegions.lookup s.region.historicalKey = some h ∧
      h.region = s.region := by
    rcases hinv.placed s hs with ⟨id, self, hself, heq⟩ | ⟨key, h, hh, heq⟩
    · refine absurd (congrArg epochVersion heq) (hnone ?_)
      rw [← heq, hinv.consistent.id_eq hself]
      exact hself
    · refine ⟨h, ?_, heq⟩
      rw [← heq, ← (hinv.historical hh).key_eq]
      exact hh
  have hcount := (hinv.historical hh).counted
  rw [hregion] at hcount
  have hpos : 0 < h.regionSnapshotList.count s.snapshotTs := by
    rw [hcount]
    exact count_pos_iff.mpr hs
  obtain ⟨l, hl, hl_count⟩ := exists_removeSnapshot hpos
  have hcounted : ∀ ts, l.count ts = (live.erase s).count ⟨s.region, ts⟩ := by
    intro ts
    rw [hl_count, hcount, count_erase_snapshot]
  unfold RegionManager.removeFromHistorical
  dsimp only
  rw [hh]
  dsimp only
  rw [hl]
  dsimp only
  split_ifs with hempty
  · have hzero : ∀ ts, (live.erase s).count ⟨s.region, ts⟩ = 0 := fun ts =>
      (hcounted ts).symm.trans (isEmpty_iff.mp hempty ts)
    obtain ⟨metas, deletable, m', hiter, hdeletable, hset, hinv'⟩ :=
      hinv.eraseHistorical hh hregion hzero rfl
    rw [hiter]
    dsimp only
    rw [hdeletable]
    dsimp only
    rw [hset]
    exact ⟨_, _, rfl, hinv'⟩
  · exact ⟨_, _, rfl, hinv.insertHistorical hh hregion hcounted
      (exists_pos_count hempty)⟩

/-- **`remove_region_snapshot` of a snapshot that is alive does not panic.** -/
theorem Inv.removeRegionSnapshot (hs : s ∈ live) :
    ∃ regions rm', rm.removeRegionSnapshot s = .ok (regions, rm') ∧
      Inv D rm' (live.erase s) (regions ++ scheduled) := by
  unfold RegionManager.removeRegionSnapshot
  cases hold : rm.regionsMap.regions.lookup s.region.id with
  | none =>
    exact hinv.removeFromHistorical hs fun {old} hold' => nomatch hold.symm.trans hold'
  | some old =>
    dsimp only
    split_ifs with hepoch
    · exact hinv.removeFromRegion hs hold hepoch
    · refine hinv.removeFromHistorical hs fun {old'} hold' => ?_
      obtain rfl := Option.mem_unique hold hold'
      exact hepoch

end RegionManager

end Tikv.InMemoryEngine
