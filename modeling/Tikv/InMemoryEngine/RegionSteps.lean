import Tikv.InMemoryEngine.RegionMap

/-!
# What the methods do to the cached regions

Apart from loads and splits, no method adds a region. `MetaChange` says what such a method does to
the metas: a region is removed, or keeps its range while its state is one that the old one can be
followed by. The safe point changes at the end of a load only.
-/

namespace Tikv.InMemoryEngine

open AssocMap Option CacheRegionMeta List

variable {K : Type} [LinearOrder K]

/-- The states that can follow a state, unless a load starts. -/
def RegionState.Follows (state state' : RegionState) : Prop :=
  state' = state ∨ state'.isEvict = true ∨ state = .loading ∧ state' = .active

theorem RegionState.Follows.trans {a b c : RegionState} (hab : a.Follows b) (hbc : b.Follows c) :
    a.Follows c := by
  rcases hbc with rfl | hevict | ⟨rfl, rfl⟩
  · exact hab
  · exact .inr (.inl hevict)
  · rcases hab with rfl | hevict | ⟨-, hnot⟩
    · exact .inr (.inr ⟨rfl, rfl⟩)
    · cases hevict
    · cases hnot

theorem RegionState.Follows.isEvict {a b : RegionState} (hab : a.Follows b)
    (ha : a.isEvict = true) : b.isEvict = true := by
  rcases hab with rfl | hevict | ⟨rfl, -⟩
  · exact ha
  · exact hevict
  · cases ha

namespace RegionMetaMap

/-- No region is added, and safe points change at the end of a load only. -/
structure MetaChange (m m' : RegionMetaMap K) : Prop where
  consistent : m'.Consistent
  origin : ∀ {id self}, m'.regions.lookup id = some self → ∃ old, m.regions.lookup id = some old ∧
    self.region = old.region ∧ old.state.Follows self.state ∧
    (self.safePoint = old.safePoint ∨ old.state = .loading)

variable {m m' : RegionMetaMap K} {id : ℕ} {self old : CacheRegionMeta K}

theorem MetaChange.refl (h : m.Consistent) : MetaChange m m where
  consistent := h
  origin := fun {_ self} hself => ⟨self, hself, rfl, .inl rfl, .inl rfl⟩

/-- Changes compose. -/
theorem MetaChange.trans {m₁ : RegionMetaMap K} (h : MetaChange m m₁) (h' : MetaChange m₁ m') :
    MetaChange m m' where
  consistent := h'.consistent
  origin := by
    intro id self hself
    obtain ⟨self₁, hself₁, hregion₁, hstate₁, hsafe₁⟩ := h'.origin hself
    obtain ⟨old, hold, hregion, hstate, hsafe⟩ := h.origin hself₁
    refine ⟨old, hold, hregion₁.trans hregion, hstate.trans hstate₁, ?_⟩
    rcases hsafe₁ with hsafe₁ | hloading
    · rw [hsafe₁]
      exact hsafe
    · -- Only a loading region is followed by one.
      rcases hstate with heq | hevict | ⟨-, hactive⟩
      · exact .inr (heq.symm.trans hloading)
      · rw [hloading] at hevict
        cases hevict
      · exact nomatch hloading.symm.trans hactive

/-- Some metas are changed. -/
theorem Consistent.metaChange_setMetas (h : m.Consistent) {metas metas' : List (CacheRegionMeta K)}
    (hcached : m.Cached metas) (hrel : List.Forall₂ (fun old self => self.region = old.region ∧
      old.state.Follows self.state ∧
      (self.safePoint = old.safePoint ∨ old.state = .loading)) metas metas') :
    MetaChange m (m.setMetas metas') := by
  obtain ⟨hconsistent, hlookup⟩ := h.setMetas hcached (hrel.imp fun _ _ hrel => hrel.1)
  refine ⟨hconsistent, fun {id self} hself => ?_⟩
  rcases (hlookup id self).mp hself with ⟨hin, rfl⟩ | ⟨hself, -⟩
  · obtain ⟨old, hold, hregion, hrest⟩ := exists_of_mem_right hrel hin
    exact ⟨old, hregion ▸ hcached.lookup old hold, hregion, hrest⟩
  · exact ⟨self, hself, rfl, .inl rfl, .inl rfl⟩

/-- One meta is changed. -/
theorem Consistent.metaChange_setMeta (h : m.Consistent) (hold : m.regions.lookup id = some old)
    (hregion : self.region = old.region) (hstate : old.state.Follows self.state)
    (hsafe : self.safePoint = old.safePoint) : MetaChange m (m.setMeta self) := by
  obtain ⟨hconsistent, hlookup⟩ := h.setMeta hold hregion
  refine ⟨hconsistent, fun {id' self'} hself' => ?_⟩
  rw [hlookup] at hself'
  split_ifs at hself' with hid
  · obtain rfl := some.inj hself'
    exact ⟨old, hid ▸ hold, hregion, hstate, .inl hsafe⟩
  · exact ⟨self', hself', rfl, .inl rfl, .inl rfl⟩

theorem Consistent.metaChange_removeRegion (h : m.Consistent)
    (heq : m.removeRegion id = .ok (self, m')) : MetaChange m m' := by
  cases hself : m.regions.lookup id with
  | none =>
    rw [RegionMetaMap.removeRegion, hself] at heq
    cases heq
  | some self' =>
    obtain ⟨m₁, heq₁, h₁, hlookup⟩ := h.removeRegion hself
    obtain ⟨rfl, rfl⟩ := Prod.mk.inj (ok_unique heq₁ heq)
    refine ⟨h₁, fun {l self} hself' => ?_⟩
    rw [hlookup] at hself'
    split_ifs at hself'
    exact ⟨self, hself', rfl, .inl rfl, .inl rfl⟩

end RegionMetaMap

namespace RegionManager

open RegionMetaMap

variable {rm rm' : RegionManager K} {m m' : RegionMetaMap K} {id : ℕ}
  {self old : CacheRegionMeta K} {regions : List (CacheRegion K)} {region : CacheRegion K}

/-- No region is added, and the historical regions stay. -/
structure Keeps (rm rm' : RegionManager K) : Prop where
  metas : MetaChange rm.regionsMap rm'.regionsMap
  historical : rm'.historicalRegions = rm.historicalRegions

/-! ### Loads and garbage collection -/

/-- What the end of a load does to a region. -/
structure LoadEnd (old new : CacheRegionMeta K) : Prop where
  region_eq : new.region = old.region
  list_eq : new.regionSnapshotList = old.regionSnapshotList
  old_state : old.state = .loading ∨ old.state = .loadingCanceled
  new_state : old.state = .loading ∧ new.state = .active ∨
    new.state = .evicting ∧ new.evictInfo.isSome ∧ new.safePoint = old.safePoint

theorem setState_eq_ok {state : RegionState} (h : old.setState state = .ok self) :
    self = { old with state } := by
  unfold setState at h
  split_ifs at h
  exact (Except.ok.inj h).symm

variable {reason : EvictReason} {cb : Option ℕ}

theorem markEvict_eq_ok {state : RegionState} (h : old.markEvict state reason cb = .ok self) :
    self = { old with state, evictInfo := some ⟨reason, cb⟩ } := by
  unfold markEvict at h
  split_ifs at h
  obtain ⟨self', hself', rfl⟩ := map_eq_ok.mp h
  obtain rfl := setState_eq_ok hself'
  rfl

theorem loadEnd_of_loadFinished {safePoint : ℕ} (h : loadFinished safePoint old = .ok self) :
    LoadEnd old self := by
  unfold loadFinished at h
  split at h
  · rename_i hstate
    obtain ⟨self', hself', h⟩ := bind_eq_ok.mp h
    obtain rfl := setState_eq_ok hself'
    unfold setSafePoint at h
    split_ifs at h
    obtain rfl := Except.ok.inj h
    exact ⟨rfl, rfl, .inl hstate, .inl ⟨hstate, rfl⟩⟩
  · rename_i hstate
    obtain rfl := markEvict_eq_ok h
    exact ⟨rfl, rfl, .inr hstate, .inr ⟨rfl, rfl, rfl⟩⟩
  · cases h

theorem loadEnd_of_loadFailed {started : Bool} (h : loadFailed started old = .ok self) :
    LoadEnd old self := by
  unfold loadFailed at h
  by_cases hstate : old.state = .loading ∨ old.state = .loadingCanceled
  · rw [if_pos hstate] at h
    obtain rfl := markEvict_eq_ok h
    exact ⟨rfl, rfl, hstate, .inr ⟨rfl, rfl, rfl⟩⟩
  · rw [if_neg hstate] at h
    cases h

variable {f : CacheRegionMeta K → Except ImePanic (CacheRegionMeta K)}

variable (h : rm.regionsMap.Consistent)
include h

/-- The regions of the end of a load: that with the id and the epoch, or all that overlap. -/
theorem onLoadEnd_eq_ok (hf : ∀ {old self}, f old = .ok self → LoadEnd old self)
    (heq : rm.onLoadEnd region f = .ok (regions, rm')) :
    ∃ metas metas', rm.regionsMap.Cached metas ∧ List.Forall₂ LoadEnd metas metas' ∧
      regions = (metas'.filter (·.state = .evicting)).map (·.region) ∧
      rm' = { rm with regionsMap := rm.regionsMap.setMetas metas' } := by
  unfold RegionManager.onLoadEnd RegionMetaMap.regionMeta at heq
  cases hself : rm.regionsMap.regions.lookup region.id with rw [hself] at heq
  | none => cases heq
  | some self =>
    dsimp only at heq
    split at heq
    · cases heq
    · rename_i metas' hmap
      obtain ⟨rfl, rfl⟩ := ok_mk_inj heq
      split_ifs at hmap
      · exact ⟨[self], metas', h.cached_singleton hself,
          (forall₂_of_mapMetas hmap).imp fun _ _ hok => hf hok, rfl, rfl⟩
      · obtain ⟨metas, hiter, hmap⟩ := bind_eq_ok.mp hmap
        obtain ⟨metas₀, hiter₀, hcached, -⟩ := h.iterOverlappedRegions region
        obtain rfl := ok_unique hiter₀ hiter
        refine ⟨metas₀, metas', hcached, (forall₂_of_mapMetas hmap).imp fun _ _ hok => ?_, rfl, rfl⟩
        unfold within at hok
        split_ifs at hok
        exact hf hok

theorem keeps_onLoadEnd (hf : ∀ {old self}, f old = .ok self → LoadEnd old self)
    (heq : rm.onLoadEnd region f = .ok (regions, rm')) : Keeps rm rm' := by
  obtain ⟨metas, metas', hcached, hrel, -, rfl⟩ := onLoadEnd_eq_ok h hf heq
  refine ⟨h.metaChange_setMetas hcached (hrel.imp fun old self hend => ⟨hend.region_eq, ?_⟩), rfl⟩
  rcases hend.new_state with ⟨hloading, hactive⟩ | ⟨hevicting, -, hsafe⟩
  · exact ⟨.inr (.inr ⟨hloading, hactive⟩), .inr hloading⟩
  · exact ⟨.inr (.inl (by rw [hevicting]; rfl)), .inl hsafe⟩

/-- The end of a garbage collection clears the flags. -/
theorem onGcRegionFinished_eq_ok (heq : rm.onGcRegionFinished region = .ok rm') :
    ∃ metas metas', rm.regionsMap.Cached metas ∧
      List.Forall₂ (fun old self => self = { old with inGc := false }) metas metas' ∧
      rm' = { rm with regionsMap := rm.regionsMap.setMetas metas' } := by
  unfold RegionManager.onGcRegionFinished at heq
  obtain ⟨metas, hall, hcached⟩ := h.onAllOverlappedRegions region
  rw [hall] at heq
  obtain ⟨metas', hmap, rfl⟩ := map_eq_ok.mp heq
  refine ⟨metas, metas', hcached, (forall₂_of_mapMetas hmap).imp fun old self hok => ?_, rfl⟩
  unfold within at hok
  split_ifs at hok
  change old.setInGc false = .ok self at hok
  unfold setInGc at hok
  split_ifs at hok
  exact (Except.ok.inj hok).symm

theorem keeps_onGcRegionFinished (heq : rm.onGcRegionFinished region = .ok rm') : Keeps rm rm' := by
  obtain ⟨metas, metas', hcached, hrel, rfl⟩ := onGcRegionFinished_eq_ok h heq
  refine ⟨h.metaChange_setMetas hcached (hrel.imp fun old self hself => ?_), rfl⟩
  subst hself
  exact ⟨rfl, .inl rfl, .inl rfl⟩

/-! ### Snapshots -/

/-- The meta of a region whose deletion starts. -/
def toEvicting (self : CacheRegionMeta K) : CacheRegionMeta K := { self with state := .evicting }

variable {metas : List (CacheRegionMeta K)}

omit h in
theorem setEvicting_eq (m : RegionMetaMap K) (h : ∀ self ∈ metas, self.state = .pendingEvict) :
    setEvicting m metas = .ok (m.setMetas (metas.map toEvicting)) := by
  induction metas generalizing m with
  | nil => rfl
  | cons self metas ih =>
    have hset : self.setState .evicting = .ok (toEvicting self) := by
      rw [setState, h self mem_cons_self]
      rfl
    rw [setEvicting, hset]
    exact ih _ fun self' hself' => h self' (mem_cons_of_mem _ hself')

omit h in
theorem eq_of_setEvicting (h : setEvicting m metas = .ok m') :
    m' = m.setMetas (metas.map toEvicting) := by
  induction metas generalizing m with
  | nil => exact (Except.ok.inj h).symm
  | cons self metas ih =>
    rw [setEvicting] at h
    split at h
    · cases h
    · rename_i self' hself'
      obtain rfl := setState_eq_ok hself'
      exact ih h

omit h in
theorem sublist_of_deletableRegions {metas deletable : List (CacheRegionMeta K)}
    (h : rm.deletableRegions metas = .ok deletable) : deletable.Sublist metas := by
  induction metas generalizing deletable with
  | nil =>
    obtain rfl := Except.ok.inj h
    exact .slnil
  | cons self metas ih =>
    rw [deletableRegions] at h
    split_ifs at h
    · obtain ⟨rest, hrest, rfl⟩ := map_eq_ok.mp h
      exact (ih hrest).cons_cons _
    · exact (ih h).cons _

/-- Historical regions are removed, and lose snapshots. -/
def HistoryShrinks (hist hist' : OrderedMap (KeyAndVersion K) (CacheRegionMeta K)) : Prop :=
  ∀ {key h'}, hist'.lookup key = some h' → ∃ h, hist.lookup key = some h ∧ h'.region = h.region ∧
    ∀ ts, 0 < h'.regionSnapshotList.count ts → 0 < h.regionSnapshotList.count ts

omit h in
theorem HistoryShrinks.refl (hist : OrderedMap (KeyAndVersion K) (CacheRegionMeta K)) :
    HistoryShrinks hist hist :=
  fun {_ h} hh => ⟨h, hh, rfl, fun _ hts => hts⟩

omit h in
/-- `region_snapshot` of an active region with the epoch. -/
theorem regionSnapshot_eq_ok {epoch readTs : ℕ}
    (heq : rm.regionSnapshot id epoch readTs = .ok rm') :
    ∃ old, rm.regionsMap.regions.lookup id = some old ∧ old.state = .active ∧
      old.region.epochVersion = epoch ∧ old.safePoint < readTs ∧
      rm' = ⟨rm.regionsMap.setMeta
        { old with regionSnapshotList := old.regionSnapshotList.newSnapshot readTs },
        rm.historicalRegions⟩ := by
  unfold RegionManager.regionSnapshot at heq
  cases hold : rm.regionsMap.regions.lookup id with rw [hold] at heq
  | none => cases heq
  | some old =>
    dsimp only at heq
    split_ifs at heq with hactive hepoch hsafe
    exact ⟨old, rfl, not_ne_iff.mp hactive, not_ne_iff.mp hepoch, not_le.mp hsafe,
      (Except.ok.inj heq).symm⟩

theorem keeps_regionSnapshot {epoch readTs : ℕ}
    (heq : rm.regionSnapshot id epoch readTs = .ok rm') : Keeps rm rm' := by
  obtain ⟨old, hold, -, -, -, rfl⟩ := regionSnapshot_eq_ok heq
  exact ⟨h.metaChange_setMeta hold rfl (.inl rfl) rfl, rfl⟩

theorem keeps_removeFromRegion {ts : ℕ} (hold : rm.regionsMap.regions.lookup id = some old)
    (heq : rm.removeFromRegion old ts = .ok (regions, rm')) : Keeps rm rm' := by
  unfold RegionManager.removeFromRegion at heq
  split at heq
  · cases heq
  dsimp only at heq
  split_ifs at heq
  · obtain ⟨self, hself, ⟨⟩⟩ := map_eq_ok.mp heq
    obtain rfl := setState_eq_ok hself
    exact ⟨h.metaChange_setMeta hold rfl (.inr (.inl rfl)) rfl, rfl⟩
  · obtain ⟨-, rfl⟩ := ok_mk_inj heq
    exact ⟨h.metaChange_setMeta hold rfl (.inl rfl) rfl, rfl⟩

/-- A historical region goes with its last snapshot, and regions it held back are evicted. -/
theorem metaChange_removeFromHistorical {s : SnapshotMeta K}
    (heq : rm.removeFromHistorical s = .ok (regions, rm')) :
    MetaChange rm.regionsMap rm'.regionsMap ∧
      HistoryShrinks rm.historicalRegions rm'.historicalRegions := by
  unfold RegionManager.removeFromHistorical at heq
  dsimp only at heq
  cases hpast : rm.historicalRegions.lookup s.region.historicalKey with rw [hpast] at heq
  | none => cases heq
  | some past =>
    dsimp only at heq
    cases hl : past.regionSnapshotList.removeSnapshot s.snapshotTs with rw [hl] at heq
    | error panic => cases heq
    | ok l =>
      dsimp only at heq
      split_ifs at heq
      · obtain ⟨metas, hiter, hcached, -⟩ := h.iterOverlappedRegions s.region
        rw [hiter] at heq
        dsimp only at heq
        split at heq
        · cases heq
        rename_i deletable hdeletable
        obtain ⟨m', hm', ⟨⟩⟩ := map_eq_ok.mp heq
        obtain rfl := eq_of_setEvicting hm'
        have hsub := sublist_of_deletableRegions hdeletable
        constructor
        · refine h.metaChange_setMetas (hcached.sublist hsub) ?_
          rw [forall₂_map_right_iff, forall₂_same]
          exact fun self _ => ⟨rfl, .inr (.inl rfl), .inl rfl⟩
        · intro key h' hh'
          rw [OrderedMap.lookup_erase] at hh'
          split_ifs at hh'
          exact ⟨h', hh', rfl, fun _ hts => hts⟩
      · obtain ⟨-, rfl⟩ := ok_mk_inj heq
        refine ⟨.refl h, fun {key h'} hh' => ?_⟩
        rcases OrderedMap.of_lookup_insert hh' with ⟨rfl, rfl⟩ | ⟨-, hh'⟩
        · refine ⟨past, hpast, rfl, fun ts hts => ?_⟩
          exact hts.trans_le (SnapshotList.count_le_of_removeSnapshot hl ts)
        · exact ⟨h', hh', rfl, fun _ hts => hts⟩

/-- `remove_region_snapshot`. -/
theorem metaChange_removeRegionSnapshot {s : SnapshotMeta K}
    (heq : rm.removeRegionSnapshot s = .ok (regions, rm')) :
    MetaChange rm.regionsMap rm'.regionsMap ∧
      HistoryShrinks rm.historicalRegions rm'.historicalRegions := by
  unfold RegionManager.removeRegionSnapshot at heq
  cases hold : rm.regionsMap.regions.lookup s.region.id with rw [hold] at heq
  | none => exact metaChange_removeFromHistorical h heq
  | some old =>
    dsimp only at heq
    split_ifs at heq
    · obtain ⟨hchange, hhist⟩ := keeps_removeFromRegion h hold heq
      exact ⟨hchange, hhist ▸ HistoryShrinks.refl _⟩
    · exact metaChange_removeFromHistorical h heq

/-! ### Evictions -/

variable {evictRegion : CacheRegion K}

/-- An eviction removes a pending region, and marks any other one. -/
theorem keeps_doEvictRegion {result : Option (CacheRegion K)}
    (heq : rm.doEvictRegion id evictRegion reason cb = .ok (result, rm')) :
    Keeps rm rm' ∧ ∀ {self}, rm'.regionsMap.regions.lookup id = some self →
      self.state.isEvict = true := by
  unfold RegionManager.doEvictRegion at heq
  cases hold : rm.regionsMap.regions.lookup id with rw [hold] at heq
  | none => cases heq
  | some old =>
    dsimp only at heq
    split_ifs at heq
    have hset : ∀ state evictInfo, state.isEvict = true →
        MetaChange rm.regionsMap (rm.regionsMap.setMeta { old with state, evictInfo }) ∧
          ∀ {self'}, (rm.regionsMap.setMeta { old with state, evictInfo }).regions.lookup id =
            some self' → self'.state.isEvict = true := by
      intro state evictInfo hevict
      have hregion : ({ old with state, evictInfo } : CacheRegionMeta K).region = old.region := rfl
      refine ⟨h.metaChange_setMeta hold hregion (.inr (.inl hevict)) rfl, fun {self'} hself' => ?_⟩
      obtain ⟨-, hlookup⟩ := h.setMeta hold hregion
      rw [hlookup, if_pos rfl] at hself'
      exact some.inj hself' ▸ hevict
    cases hstate : old.state with rw [hstate] at heq
    | pending =>
      obtain ⟨⟨self, m'⟩, hm', ⟨⟩⟩ := map_eq_ok.mp heq
      obtain ⟨m₁, heq₁, -, hlookup⟩ := h.removeRegion hold
      obtain ⟨-, rfl⟩ := Prod.mk.inj (ok_unique heq₁ hm')
      refine ⟨⟨h.metaChange_removeRegion hm', rfl⟩, fun {self'} hself' => ?_⟩
      rw [hlookup, if_pos rfl] at hself'
      cases hself'
    | loading =>
      obtain ⟨self, hself, ⟨⟩⟩ := map_eq_ok.mp heq
      obtain rfl := setState_eq_ok hself
      obtain ⟨hchange, hevict⟩ := hset .loadingCanceled old.evictInfo rfl
      exact ⟨⟨hchange, rfl⟩, hevict⟩
    | active =>
      dsimp only at heq
      split at heq
      · cases heq
      rename_i self hself
      obtain rfl := markEvict_eq_ok hself
      split_ifs at heq
      · obtain ⟨self, hself, ⟨⟩⟩ := map_eq_ok.mp heq
        obtain rfl := setState_eq_ok hself
        obtain ⟨hchange, hevict⟩ := hset .evicting (some ⟨reason, cb⟩) rfl
        exact ⟨⟨hchange, rfl⟩, hevict⟩
      · obtain ⟨-, rfl⟩ := ok_mk_inj heq
        obtain ⟨hchange, hevict⟩ := hset .pendingEvict (some ⟨reason, cb⟩) rfl
        exact ⟨⟨hchange, rfl⟩, hevict⟩
    | loadingCanceled | pendingEvict | evicting =>
      obtain ⟨-, rfl⟩ := ok_mk_inj heq
      refine ⟨⟨.refl h, rfl⟩, fun {self'} hself' => ?_⟩
      obtain rfl := mem_unique hold hself'
      rw [hstate]
      rfl

/-- After the loop the regions of the list are marked or gone. -/
theorem keeps_evictRegions {ids : List ℕ}
    (heq : rm.evictRegions evictRegion reason cb ids = .ok (regions, rm')) :
    Keeps rm rm' ∧ ∀ {id self}, id ∈ ids → rm'.regionsMap.regions.lookup id = some self →
      self.state.isEvict = true := by
  induction ids generalizing rm regions with
  | nil =>
    obtain ⟨-, rfl⟩ := ok_mk_inj heq
    exact ⟨⟨.refl h, rfl⟩, nofun⟩
  | cons id ids ih =>
    rw [RegionManager.evictRegions] at heq
    split at heq
    · cases heq
    rename_i region rm₁ heq₁
    obtain ⟨⟨regions', rm₂⟩, heq₂, ⟨⟩⟩ := map_eq_ok.mp heq
    obtain ⟨hkeeps₁, hevict₁⟩ := keeps_doEvictRegion h heq₁
    obtain ⟨hkeeps₂, hevict₂⟩ := ih hkeeps₁.metas.consistent heq₂
    refine ⟨⟨hkeeps₁.metas.trans hkeeps₂.metas, hkeeps₂.historical.trans hkeeps₁.historical⟩,
      fun {id' self} hid' hself => ?_⟩
    rcases mem_cons.mp hid' with rfl | hid'
    · obtain ⟨self₁, hself₁, -, hstate, -⟩ := hkeeps₂.metas.origin hself
      exact hstate.isEvict (hevict₁ hself₁)
    · exact hevict₂ hid' hself

/-- `evict_region`. A region with the id and the epoch of the evicted one is evicted. -/
theorem keeps_evictRegion (heq : rm.evictRegion evictRegion reason cb = .ok (regions, rm')) :
    Keeps rm rm' ∧ ∀ {self}, rm'.regionsMap.regions.lookup evictRegion.id = some self →
      self.region.epochVersion = evictRegion.epochVersion → self.state.isEvict = true := by
  unfold RegionManager.evictRegion at heq
  split at heq
  · cases heq
  rename_i metas hall
  obtain ⟨hkeeps, hevict⟩ := keeps_evictRegions h heq
  refine ⟨hkeeps, fun {self} hself hepoch => hevict ?_ hself⟩
  obtain ⟨old, hold, hregion, -⟩ := hkeeps.metas.origin hself
  unfold RegionMetaMap.onAllOverlappedRegions at hall
  rw [hold] at hall
  dsimp only at hall
  rw [if_pos (hregion ▸ hepoch)] at hall
  obtain rfl := Except.ok.inj hall
  exact mem_singleton.mpr (h.id_eq hold).symm

/-- `on_delete_regions`. -/
theorem keeps_onDeleteRegions {cbs : List ℕ}
    (heq : rm.onDeleteRegions regions = .ok (cbs, rm')) : Keeps rm rm' := by
  induction regions generalizing rm cbs with
  | nil =>
    obtain ⟨-, rfl⟩ := ok_mk_inj heq
    exact ⟨.refl h, rfl⟩
  | cons r regions ih =>
    rw [RegionManager.onDeleteRegions] at heq
    split at heq
    · cases heq
    rename_i self m₁ hm₁
    split_ifs at heq
    split at heq
    · cases heq
    obtain ⟨⟨cbs', rm₂⟩, heq₂, ⟨⟩⟩ := map_eq_ok.mp heq
    have hchange := h.metaChange_removeRegion hm₁
    obtain ⟨hchange', hhist⟩ := ih hchange.consistent heq₂
    exact ⟨hchange.trans hchange', hhist⟩

/-! ### Splits -/

/-- A split replaces a region by regions within it; its snapshots become those of a historical
region. -/
structure SplitChange (source : CacheRegion K) (regions : List (CacheRegion K))
    (rm rm' : RegionManager K) : Prop where
  consistent : rm'.regionsMap.Consistent
  origin : ∀ {id self}, rm'.regionsMap.regions.lookup id = some self →
    rm.regionsMap.regions.lookup id = some self ∧ (id = source.id → self.state.isEvict = true) ∨
      ∃ old, ∃ r ∈ regions, r.id = id ∧ rm.regionsMap.regions.lookup source.id = some old ∧
        old.region.ContainsRange r ∧ self = derivedMeta old r
  historical : ∀ {key h}, rm'.historicalRegions.lookup key = some h →
    rm.historicalRegions.lookup key = some h ∨
      rm.regionsMap.regions.lookup source.id = some h ∧ h.state.isEvict = false ∧
        ∃ ts, 0 < h.regionSnapshotList.count ts

omit h in
/-- The split of a region that is not being evicted. -/
theorem splitChange_splitRemoved {source : CacheRegion K} {regions' : List (CacheRegion K)}
    (hold : rm.regionsMap.regions.lookup source.id = some old) (hevict : old.state.isEvict = false)
    (hm : m.Consistent) (hlookup : ∀ l, m.regions.lookup l =
      if l = source.id then none else rm.regionsMap.regions.lookup l)
    (hsub : regions' ⊆ regions)
    (heq : splitRemoved { rm with regionsMap := m } old regions' = .ok rm') :
    SplitChange source regions rm rm' := by
  obtain ⟨m', hm', rfl⟩ := map_eq_ok.mp heq
  obtain ⟨h', hiff, hregions⟩ := of_newRegions hm hm'
  refine ⟨h', fun {id self} hself => ?_, fun {key past} hpast => ?_⟩
  · rcases hiff.mp hself with hself | ⟨r, hr, hid, rfl⟩
    · rw [hlookup] at hself
      split_ifs at hself with hne
      exact .inl ⟨hself, fun heq => absurd heq hne⟩
    · exact .inr ⟨old, r, hsub hr, hid, hold, (hregions r hr).1, rfl⟩
  · dsimp only at hpast
    split_ifs at hpast with hempty
    · exact .inl hpast
    · rcases OrderedMap.of_lookup_insert hpast with ⟨-, rfl⟩ | ⟨-, hpast⟩
      · exact .inr ⟨hold, hevict, SnapshotList.exists_pos_count hempty⟩
      · exact .inl hpast

/-- `split_region`. -/
theorem splitChange_splitRegion {source : CacheRegion K}
    (heq : rm.splitRegion source regions = .ok rm') : SplitChange source regions rm rm' := by
  have hrefl : (∀ {self}, rm.regionsMap.regions.lookup source.id = some self →
      self.state.isEvict = true) → SplitChange source regions rm rm := fun hevict =>
    ⟨h, fun {id self} hself => .inl ⟨hself, fun hid => hevict (hid ▸ hself)⟩,
      fun hpast => .inl hpast⟩
  unfold RegionManager.splitRegion at heq
  cases hold : rm.regionsMap.regions.lookup source.id with rw [hold] at heq
  | none =>
    refine Except.ok.inj heq ▸ hrefl fun {self} hself => ?_
    exact nomatch hold.symm.trans hself
  | some old =>
    obtain ⟨m₁, heq₁, h₁, hlookup⟩ := h.removeRegion hold
    rw [heq₁] at heq
    dsimp only at heq
    split_ifs at heq with hevict
    · refine Except.ok.inj heq ▸ hrefl fun {self} hself => ?_
      exact mem_unique hold hself ▸ hevict
    · exact splitChange_splitRemoved hold (Bool.not_eq_true _ ▸ hevict) h₁ hlookup
        (List.Subset.refl _) heq
    · exact splitChange_splitRemoved hold (Bool.not_eq_true _ ▸ hevict) h₁ hlookup
        (filter_subset_self _) heq

end RegionManager

/-! ### Calls -/

namespace Cache

open RegionMetaMap RegionManager

/-- What a call does to the cache: no region is added, or one is loaded, read or split. -/
inductive Change (c c' : Cache K) : CacheEvent K → Prop
  | shrink {e : CacheEvent K} (hchange : MetaChange c.manager.regionsMap c'.manager.regionsMap)
    (hhist : HistoryShrinks c.manager.historicalRegions c'.manager.historicalRegions)
    (hlive : c'.live ⊆ c.live) : Change c c' e
  | load {e : CacheEvent K} {region : CacheRegion K}
    (he : e = .loadRegion region ∨ ∃ setInWritten inFlashback,
      e = .prepareForApply region setInWritten inFlashback)
    (hchange : PendingChange region c.manager.regionsMap c'.manager.regionsMap)
    (hhist : c'.manager.historicalRegions = c.manager.historicalRegions)
    (hlive : c'.live = c.live) : Change c c' e
  | snapshot {region : CacheRegion K} {readTs : ℕ}
    (heq : c.manager.regionSnapshot region.id region.epochVersion readTs = .ok c'.manager)
    (hlive : c'.live = ⟨region, readTs⟩ :: c.live) : Change c c' (.regionSnapshot region readTs)
  | split {source : CacheRegion K} {regions : List (CacheRegion K)}
    (hchange : SplitChange source regions c.manager c'.manager) (hlive : c'.live = c.live) :
    Change c c' (.splitRegion source regions)

variable {c c' : Cache K} {e : CacheEvent K}

theorem Change.of_keeps (h : Keeps c.manager c'.manager) (hlive : c'.live = c.live) :
    Change c c' e :=
  .shrink h.metas (h.historical ▸ HistoryShrinks.refl _) (hlive ▸ List.Subset.refl _)

/-- **What a call does to the cache.** -/
theorem change_of_step (h : c.manager.regionsMap.Consistent) (heq : c.step e = .ok c') :
    Change c c' e := by
  cases e with
  | loadRegion region =>
    obtain ⟨⟨result, m'⟩, hm', rfl⟩ := map_eq_ok.mp heq
    obtain ⟨result', m₁, hm₁, hchange, -⟩ := h.loadRegion region
    obtain ⟨-, rfl⟩ := Prod.mk.inj (ok_unique hm₁ hm')
    exact .load (.inl rfl) hchange rfl rfl
  | prepareForApply region setInWritten inFlashback =>
    obtain ⟨⟨result, m'⟩, hm', rfl⟩ := map_eq_ok.mp heq
    obtain ⟨result', m₁, hm₁, hchange⟩ := h.prepareForApply region setInWritten inFlashback
    obtain ⟨-, rfl⟩ := Prod.mk.inj (ok_unique hm₁ hm')
    exact .load (.inr ⟨_, _, rfl⟩) hchange rfl rfl
  | onSnapshotLoadFinished region safePoint =>
    obtain ⟨⟨regions, rm'⟩, hresult, rfl⟩ := map_eq_ok.mp heq
    exact .of_keeps (keeps_onLoadEnd h loadEnd_of_loadFinished hresult) rfl
  | onSnapshotLoadFailed region started =>
    obtain ⟨⟨regions, rm'⟩, hresult, rfl⟩ := map_eq_ok.mp heq
    exact .of_keeps (keeps_onLoadEnd h loadEnd_of_loadFailed hresult) rfl
  | regionSnapshot region readTs =>
    rw [Cache.step] at heq
    split at heq
    · obtain rfl := Except.ok.inj heq
      exact .of_keeps ⟨.refl h, rfl⟩ rfl
    · rename_i manager hmanager
      obtain rfl := Except.ok.inj heq
      exact .snapshot hmanager rfl
  | removeRegionSnapshot snapshot =>
    obtain ⟨⟨regions, rm'⟩, hresult, rfl⟩ := map_eq_ok.mp heq
    obtain ⟨hchange, hhist⟩ := metaChange_removeRegionSnapshot h hresult
    exact .shrink hchange hhist erase_subset
  | evictRegion region reason onEvictFinished =>
    obtain ⟨⟨regions, rm'⟩, hresult, rfl⟩ := map_eq_ok.mp heq
    exact .of_keeps (keeps_evictRegion h hresult).1 rfl
  | splitRegion source regions =>
    obtain ⟨rm', hresult, rfl⟩ := map_eq_ok.mp heq
    exact .split (splitChange_splitRegion h hresult) rfl
  | onGcRegionFinished region =>
    obtain ⟨rm', hresult, rfl⟩ := map_eq_ok.mp heq
    exact .of_keeps (keeps_onGcRegionFinished h hresult) rfl
  | onDeleteRegions regions =>
    obtain ⟨⟨cbs, rm'⟩, hresult, rfl⟩ := map_eq_ok.mp heq
    exact .of_keeps (keeps_onDeleteRegions h hresult) rfl

/-- Only loads and splits add regions. -/
theorem Change.metaChange (h : Change c c' e) (hconsistent : c.manager.regionsMap.Consistent)
    (hload : ∀ {region}, e ≠ .loadRegion region)
    (hprepare : ∀ {region setInWritten inFlashback},
      e ≠ .prepareForApply region setInWritten inFlashback)
    (hsplit : ∀ {source regions}, e ≠ .splitRegion source regions) :
    MetaChange c.manager.regionsMap c'.manager.regionsMap := by
  cases h with
  | shrink hchange => exact hchange
  | load he =>
    rcases he with rfl | ⟨_, _, rfl⟩
    · exact absurd rfl hload
    · exact absurd rfl hprepare
  | snapshot heq => exact (keeps_regionSnapshot hconsistent heq).1
  | split => exact absurd rfl hsplit

end Cache

end Tikv.InMemoryEngine
