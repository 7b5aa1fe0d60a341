import Mathlib.Data.Prod.Lex
import Mathlib.Algebra.Order.Monoid.Unbundled.WithTop
import Tikv.Foundation.AssocMap
import Tikv.Foundation.OrderedMap

/-!
# The region manager of the in-memory engine

The in-memory engine caches regions. `RegionMetaMap` has the cached regions by id, and their ids by
end key; `RegionManager` has this map and the historical regions: regions that were split while
snapshots of them were alive. The methods of the manager are functions here, each as one step, and a
failed assertion, `unwrap` or index is an `ImePanic`.

`Cache` is the manager with the snapshots that are alive and the regions whose deletion is
scheduled, and `Cache.step` one call of a method.
-/

namespace Tikv.InMemoryEngine

open AssocMap OrderedMap

variable {K : Type} [LinearOrder K]

/-- `CacheRegion`. A range has a key. -/
structure CacheRegion (K : Type) [LinearOrder K] where
  id : ℕ
  epochVersion : ℕ
  startKey : K
  endKey : K
  startKey_lt : startKey < endKey
  deriving DecidableEq

namespace CacheRegion

/-- `contains_range`. -/
def ContainsRange (r other : CacheRegion K) : Prop :=
  r.startKey ≤ other.startKey ∧ other.endKey ≤ r.endKey

/-- `contains_key`. -/
def ContainsKey (r : CacheRegion K) (key : K) : Prop := r.startKey ≤ key ∧ key < r.endKey

/-- `overlaps`. -/
def Overlaps (r other : CacheRegion K) : Prop :=
  r.startKey < other.endKey ∧ other.startKey < r.endKey

instance (r other : CacheRegion K) : Decidable (r.ContainsRange other) :=
  inferInstanceAs (Decidable (_ ∧ _))

instance (r : CacheRegion K) (key : K) : Decidable (r.ContainsKey key) :=
  inferInstanceAs (Decidable (_ ∧ _))

instance (r other : CacheRegion K) : Decidable (r.Overlaps other) :=
  inferInstanceAs (Decidable (_ ∧ _))

end CacheRegion

/-- `RegionState`. -/
inductive RegionState
  | pending
  | loading
  | active
  | loadingCanceled
  | pendingEvict
  | evicting
  deriving DecidableEq, Repr

namespace RegionState

theorem ne_of_eq_or {s a b c : RegionState} (h : s = a ∨ s = b) (ha : a ≠ c) (hb : b ≠ c) :
    s ≠ c := by
  rcases h with rfl | rfl
  · exact ha
  · exact hb

/-- `is_evict`. -/
def isEvict : RegionState → Bool
  | .loadingCanceled | .pendingEvict | .evicting => true
  | .pending | .loading | .active => false

/-- `validate_update_region_state`. -/
def validateUpdate : RegionState → RegionState → Bool
  | .pending, .loading => true
  | .loading, .active | .loading, .loadingCanceled | .loading, .evicting => true
  | .active, .pendingEvict => true
  | .loadingCanceled, .pendingEvict | .loadingCanceled, .evicting => true
  | .pendingEvict, .evicting => true
  | _, _ => false

end RegionState

/-- `EvictReason`. -/
inductive EvictReason
  | loadFailed
  | loadFailedWithoutStart
  | memoryLimitReached
  | becomeFollower
  | autoEvict
  | deleteRange
  | prepareMerge
  | merge
  | disabled
  | applySnapshot
  | flashback
  | manual
  | destroyPeer
  | ingestSst
  deriving DecidableEq, Repr

/-- `FailedReason`. -/
inductive FailedReason
  | notCached
  | tooOldRead
  | epochNotMatch
  deriving DecidableEq, Repr

/-- `LoadFailedReason`. -/
inductive LoadFailedReason
  | overlapped (isSameRegion : Bool)
  | pendingRange (isSameRegion : Bool)
  | evicting (isSameRegion : Bool)
  deriving DecidableEq, Repr

/-- `RegionCacheStatus`. -/
inductive RegionCacheStatus
  | notInCache
  | cached
  | loading
  deriving DecidableEq, Repr

/-- The places that panic. -/
inductive ImePanic
  /-- `regions[id]`, or an `unwrap` of a region that is not there -/
  | missingRegion
  /-- an `unwrap` of a snapshot that is not counted -/
  | missingSnapshot
  /-- an `unwrap` of a historical region -/
  | missingHistoricalRegion
  /-- `assert!(!self.overlaps_with(&meta.region))` -/
  | overlaps
  /-- "old_meta: …" -/
  | oldMeta
  /-- "old_region_id: …" -/
  | oldRegionId
  /-- the assertions on `is_active` -/
  | isActive
  /-- `set_state`, `mark_evict` and the other assertions on a state -/
  | state
  /-- `assert!(self.safe_point <= safe_point)` -/
  | safePoint
  /-- `assert!(self.in_gc.load(..) != in_gc)` -/
  | inGc
  /-- `assert!(… .contains_range(..))` -/
  | containsRange
  /-- the assertions on an epoch version -/
  | epochVersion
  /-- `meta.evict_info.unwrap()` -/
  | evictInfo
  /-- `regions_map.load_region(..).unwrap()` -/
  | loadFailed (reason : LoadFailedReason)
  deriving DecidableEq, Repr

/-! ### Snapshot lists -/

/-- `SnapshotList`: the number of snapshots at each timestamp that has one. -/
structure SnapshotList where
  counts : OrderedMap ℕ ℕ
  pos : ∀ readTs n, counts.lookup readTs = some n → 0 < n
  deriving DecidableEq

namespace SnapshotList

def empty : SnapshotList := ⟨.empty, nofun⟩

variable (l : SnapshotList)

/-- The number of snapshots at a timestamp. -/
def count (readTs : ℕ) : ℕ := (l.counts.lookup readTs).getD 0

/-- A positive number of snapshots at a timestamp. -/
def setCount (readTs n : ℕ) : SnapshotList where
  counts := l.counts.insert readTs (n + 1)
  pos := by
    intro ts m hlookup
    rw [OrderedMap.lookup_insert] at hlookup
    split_ifs at hlookup
    · exact Option.some.inj hlookup ▸ Nat.succ_pos n
    · exact l.pos ts m hlookup

/-- `new_snapshot`. -/
def newSnapshot (readTs : ℕ) : SnapshotList :=
  l.setCount readTs (l.count readTs)

/-- `remove_snapshot`. -/
def removeSnapshot (readTs : ℕ) : Except ImePanic SnapshotList :=
  match l.counts.lookup readTs with
  | none | some 0 => .error .missingSnapshot
  | some 1 => .ok {
      counts := l.counts.erase readTs
      pos := by
        intro ts n hlookup
        rw [OrderedMap.lookup_erase] at hlookup
        split_ifs at hlookup
        exact l.pos ts n hlookup }
  | some (n + 2) => .ok (l.setCount readTs n)

/-- `min_snapshot_ts`. -/
def minSnapshotTs : Option ℕ := l.counts.entries.head?.map (·.1)

/-- `is_empty`. -/
def isEmpty : Bool := l.counts.entries.isEmpty

variable {l l' : SnapshotList} {readTs ts : ℕ}

theorem count_setCount (readTs n ts : ℕ) :
    (l.setCount readTs n).count ts = if ts = readTs then n + 1 else l.count ts := by
  rw [count, setCount, OrderedMap.lookup_insert]
  split_ifs <;> rfl

theorem count_newSnapshot (readTs ts : ℕ) :
    (l.newSnapshot readTs).count ts = l.count ts + if ts = readTs then 1 else 0 := by
  rw [newSnapshot, count_setCount]
  split_ifs with hts
  · rw [hts]
  · rfl

/-- A snapshot that is counted can be removed. -/
theorem exists_removeSnapshot (h : 0 < l.count readTs) :
    ∃ l', l.removeSnapshot readTs = .ok l' ∧
      ∀ ts, l'.count ts = l.count ts - if ts = readTs then 1 else 0 := by
  unfold removeSnapshot
  cases hlookup : l.counts.lookup readTs with
  | none => simp [count, hlookup] at h
  | some n =>
    have hcount : l.count readTs = n := by rw [count, hlookup]; rfl
    match n, hcount with
    | 0, hcount => exact absurd hcount h.ne'
    | 1, hcount =>
      refine ⟨_, rfl, fun ts => ?_⟩
      rw [count, OrderedMap.lookup_erase]
      split_ifs with hts
      · rw [hts, hcount]
        rfl
      · rfl
    | n + 2, hcount =>
      refine ⟨_, rfl, fun ts => ?_⟩
      rw [count_setCount]
      split_ifs with hts
      · rw [hts, hcount]
        rfl
      · rfl

theorem count_le_of_removeSnapshot (h : l.removeSnapshot readTs = .ok l') (ts : ℕ) :
    l'.count ts ≤ l.count ts := by
  rcases Nat.eq_zero_or_pos (l.count readTs) with hzero | hpos
  · unfold removeSnapshot at h
    cases hlookup : l.counts.lookup readTs with
    | none =>
      rw [hlookup] at h
      cases h
    | some n =>
      obtain rfl : n = 0 := by rwa [count, hlookup] at hzero
      rw [hlookup] at h
      cases h
  · obtain ⟨l₁, heq, hcount⟩ := exists_removeSnapshot hpos
    obtain rfl := Except.ok.inj (heq.symm.trans h)
    rw [hcount]
    exact Nat.sub_le _ _

theorem pos_count_iff : 0 < l.count ts ↔ ∃ n, (ts, n) ∈ l.counts.entries := by
  constructor
  · intro h
    cases hlookup : l.counts.lookup ts with
    | none => simp [count, hlookup] at h
    | some n => exact ⟨n, lookup_eq_some_iff.mp hlookup⟩
  · rintro ⟨n, hn⟩
    have hlookup := lookup_eq_some_iff.mpr hn
    rw [count, hlookup]
    exact l.pos ts n hlookup

theorem isEmpty_iff : l.isEmpty ↔ ∀ ts, l.count ts = 0 := by
  unfold isEmpty
  constructor
  · intro h ts
    by_contra hne
    obtain ⟨n, hn⟩ := pos_count_iff.mp (Nat.pos_of_ne_zero hne)
    rw [List.isEmpty_iff.mp h] at hn
    exact absurd hn List.not_mem_nil
  · intro h
    cases hentries : l.counts.entries with
    | nil => rfl
    | cons e entries =>
      have hpos : 0 < l.count e.1 := pos_count_iff.mpr ⟨e.2, by rw [hentries]; simp⟩
      exact absurd (h e.1) hpos.ne'

theorem exists_pos_count (h : ¬l.isEmpty) : ∃ ts, 0 < l.count ts := by
  by_contra hnone
  exact h (isEmpty_iff.mpr fun ts => Nat.eq_zero_of_not_pos fun hts => hnone ⟨ts, hts⟩)

theorem minSnapshotTs_le (h : 0 < l.count ts) : ∃ t ≤ ts, l.minSnapshotTs = some t := by
  obtain ⟨n, hn⟩ := pos_count_iff.mp h
  have hsorted := l.counts.sorted
  unfold minSnapshotTs
  cases hentries : l.counts.entries with
  | nil => simp [hentries] at hn
  | cons e entries =>
    rw [hentries] at hn hsorted
    refine ⟨e.1, ?_, rfl⟩
    rcases List.mem_cons.mp hn with rfl | hn
    · exact le_rfl
    · exact ((List.pairwise_cons.mp hsorted).1 _ hn).le

end SnapshotList

/-! ### The meta of a cached region -/

/-- `EvictInfo`. -/
structure EvictInfo where
  reason : EvictReason
  onEvictFinished : Option ℕ
  deriving DecidableEq, Repr

/-- `CacheRegionMeta`. -/
structure CacheRegionMeta (K : Type) [LinearOrder K] where
  region : CacheRegion K
  regionSnapshotList : SnapshotList
  safePoint : ℕ
  state : RegionState
  inGc : Bool
  isWritten : Bool
  evictInfo : Option EvictInfo
  deriving DecidableEq

namespace CacheRegionMeta

def new (region : CacheRegion K) : CacheRegionMeta K where
  region
  regionSnapshotList := .empty
  safePoint := 0
  state := .pending
  inGc := false
  isWritten := false
  evictInfo := none

variable (self : CacheRegionMeta K)

/-- `can_be_updated_to`. -/
def canBeUpdatedTo (region : CacheRegion K) : Except ImePanic Bool :=
  if self.region.id = region.id ∧ self.region.epochVersion < region.epochVersion then
    .ok (self.region.ContainsRange region)
  else .error .epochVersion

/-- `set_safe_point`. -/
def setSafePoint (safePoint : ℕ) : Except ImePanic (CacheRegionMeta K) :=
  if self.safePoint ≤ safePoint then .ok { self with safePoint } else .error .safePoint

/-- `set_state`. -/
def setState (state : RegionState) : Except ImePanic (CacheRegionMeta K) :=
  if self.state.validateUpdate state then .ok { self with state } else .error .state

/-- `mark_evict`. -/
def markEvict (state : RegionState) (reason : EvictReason)
    (onEvictFinished : Option ℕ) : Except ImePanic (CacheRegionMeta K) :=
  if self.state ∈ [.loading, .active, .loadingCanceled] ∧ state ∈ [.pendingEvict, .evicting] then
    (self.setState state).map fun self =>
      { self with evictInfo := some { reason, onEvictFinished } }
  else .error .state

/-- `set_in_gc`. -/
def setInGc (inGc : Bool) : Except ImePanic (CacheRegionMeta K) :=
  if self.inGc ≠ inGc then .ok { self with inGc } else .error .inGc

/-- `derive_from`. -/
def deriveFrom (region : CacheRegion K) (source : CacheRegionMeta K) :
    Except ImePanic (CacheRegionMeta K) :=
  if source.region.ContainsRange region then
    .ok { source with region, regionSnapshotList := .empty, evictInfo := none }
  else .error .containsRange

end CacheRegionMeta

/-! ### The map of the cached regions -/

/-- `RegionMetaMap`. -/
structure RegionMetaMap (K : Type) [LinearOrder K] where
  regionsByRange : OrderedMap K ℕ
  regions : Map ℕ (CacheRegionMeta K)
  isActive : Bool
  deriving DecidableEq

namespace RegionMetaMap

def new : RegionMetaMap K where
  regionsByRange := .empty
  regions := ∅
  isActive := false

variable (m : RegionMetaMap K)

/-- The meta of a region is changed in place. -/
def setMeta (self : CacheRegionMeta K) : RegionMetaMap K :=
  { m with regions := m.regions.insert self.region.id self }

/-- `mut_region_meta(id).unwrap()`. -/
def regionMeta (id : ℕ) : Except ImePanic (CacheRegionMeta K) :=
  match m.regions.lookup id with
  | none => .error .missingRegion
  | some self => .ok self

/-- The regions `iter_overlapped_regions` meets, among those that end after the start of the
range. -/
def overlappedFrom (m : RegionMetaMap K) (region : CacheRegion K) :
    List (K × ℕ) → Except ImePanic (List (CacheRegionMeta K))
  | [] => .ok []
  | (_, id) :: rest =>
    match m.regions.lookup id with
    | none => .error .missingRegion
    | some self =>
      if region.endKey ≤ self.region.startKey then .ok []
      else (m.overlappedFrom region rest).map (self :: ·)

variable (region : CacheRegion K)

/-- `iter_overlapped_regions`, for a closure that returns `true`. -/
def iterOverlappedRegions : Except ImePanic (List (CacheRegionMeta K)) :=
  m.overlappedFrom region (m.regionsByRange.above region.startKey)

/-- `on_all_overlapped_regions`. -/
def onAllOverlappedRegions : Except ImePanic (List (CacheRegionMeta K)) :=
  match m.regions.lookup region.id with
  | some self =>
    if self.region.epochVersion = region.epochVersion then .ok [self]
    else m.iterOverlappedRegions region
  | none => m.iterOverlappedRegions region

/-- `overlaps_with`. -/
def overlapsWith : Except ImePanic Bool :=
  match (m.regionsByRange.above region.startKey).head? with
  | none => .ok false
  | some (_, id) => (m.regionMeta id).map fun self => self.region.startKey < region.endKey

/-- `new_region_meta`. -/
def newRegionMeta (self : CacheRegionMeta K) : Except ImePanic (RegionMetaMap K) :=
  match m.overlapsWith self.region with
  | .error panic => .error panic
  | .ok true => .error .overlaps
  | .ok false =>
    if (m.regions.lookup self.region.id).isSome then .error .oldMeta
    else if (m.regionsByRange.lookup self.region.endKey).isSome then .error .oldRegionId
    else if m.regions.entries = [] ∧ m.isActive then .error .isActive
    else .ok {
      regionsByRange := m.regionsByRange.insert self.region.endKey self.region.id
      regions := m.regions.insert self.region.id self
      isActive := m.regions.entries = [] ∨ m.isActive }

/-- `remove_region`. -/
def removeRegion (id : ℕ) : Except ImePanic (CacheRegionMeta K × RegionMetaMap K) :=
  match m.regions.lookup id with
  | none => .error .missingRegion
  | some self =>
    let regions := m.regions.erase id
    if regions.entries = [] ∧ m.isActive = false then .error .isActive
    else .ok (self, {
      regionsByRange := m.regionsByRange.erase self.region.endKey
      regions
      isActive := m.isActive ∧ regions.entries ≠ [] })

/-- Some regions are removed one after the other. -/
def removeRegions (m : RegionMetaMap K) : List ℕ → Except ImePanic (RegionMetaMap K)
  | [] => .ok m
  | id :: ids =>
    match m.removeRegion id with
    | .error panic => .error panic
    | .ok (_, m) => m.removeRegions ids

/-- A pending region with an epoch that is older than that of the region to load. -/
def isStale (self : CacheRegionMeta K) : Bool :=
  self.state = .pending ∧ self.region.epochVersion < region.epochVersion

/-- `check_overlap_with_region`. -/
def checkOverlapWithRegion : Except ImePanic (Option (RegionState × Bool) × RegionMetaMap K) :=
  match m.iterOverlappedRegions region with
  | .error panic => .error panic
  | .ok metas =>
    match m.removeRegions ((metas.takeWhile (isStale region)).map (·.region.id)) with
    | .error panic => .error panic
    | .ok m =>
      match (metas.dropWhile (isStale region)).head? with
      | some self => .ok (some (self.state, self.region.id = region.id ∧
          self.region.epochVersion = region.epochVersion), m)
      | none => .ok ((m.regions.lookup region.id).map fun self =>
          (self.state, self.region.epochVersion = region.epochVersion), m)

/-- The reason why a region is not loaded. -/
def loadFailedReason : RegionState → Bool → LoadFailedReason
  | .pending, isSameRegion | .loading, isSameRegion => .pendingRange isSameRegion
  | .active, isSameRegion => .overlapped isSameRegion
  | .loadingCanceled, isSameRegion | .pendingEvict, isSameRegion | .evicting, isSameRegion =>
    .evicting isSameRegion

/-- `load_region`. -/
def loadRegion : Except ImePanic (Except LoadFailedReason Unit × RegionMetaMap K) :=
  match m.checkOverlapWithRegion region with
  | .error panic => .error panic
  | .ok (some (state, isSameRegion), m) => .ok (.error (loadFailedReason state isSameRegion), m)
  | .ok (none, m) => (m.newRegionMeta (.new region)).map fun m => (.ok (), m)

/-- Some metas are changed, all of them or none. -/
def mapMetas (f : CacheRegionMeta K → Except ImePanic (CacheRegionMeta K)) :
    List (CacheRegionMeta K) → Except ImePanic (List (CacheRegionMeta K))
  | [] => .ok []
  | self :: metas =>
    match f self with
    | .error panic => .error panic
    | .ok self => (mapMetas f metas).map (self :: ·)

/-- Metas are changed in place. -/
def setMetas (metas : List (CacheRegionMeta K)) : RegionMetaMap K :=
  metas.foldl setMeta m

/-- The end of `prepare_for_apply`: a pending region is to be loaded. The flag tells whether the
load task is scheduled. -/
def prepareMeta (self : CacheRegionMeta K) (setInWritten : Bool) :
    RegionCacheStatus × Bool × RegionMetaMap K :=
  match self.state with
  | .pending => (.loading, true, m.setMeta
      { self with state := .loading, isWritten := setInWritten || self.isWritten })
  | .loading => (.loading, false, m.setMeta
      { self with isWritten := setInWritten || self.isWritten })
  | .active => (.cached, false, m.setMeta
      { self with isWritten := setInWritten || self.isWritten })
  | .loadingCanceled | .pendingEvict | .evicting => (.notInCache, false, m)

/-- `prepare_for_apply`. -/
def prepareForApply (setInWritten inFlashback : Bool) :
    Except ImePanic (RegionCacheStatus × Bool × RegionMetaMap K) :=
  if m.isActive = false then .ok (.notInCache, false, m)
  else
    match m.regions.lookup region.id with
    | none => .ok (.notInCache, false, m)
    | some self =>
      if self.state ≠ .pending then .ok (m.prepareMeta self setInWritten)
      else if self.region.epochVersion < region.epochVersion ∨ inFlashback then
        match m.removeRegion region.id with
        | .error panic => .error panic
        | .ok (self, m) =>
          if self.state ≠ .pending then .error .state
          else if inFlashback then .ok (.notInCache, false, m)
          else
            match self.canBeUpdatedTo region with
            | .error panic => .error panic
            | .ok false => .ok (.notInCache, false, m)
            | .ok true =>
              match m.loadRegion region with
              | .error panic => .error panic
              | .ok (.error reason, _) => .error (.loadFailed reason)
              | .ok (.ok (), m) => (m.regionMeta region.id).map (m.prepareMeta · setInWritten)
      else .ok (m.prepareMeta self setInWritten)

end RegionMetaMap

/-! ### The manager -/

/-- `KeyAndVersion`. The top version is `u64::MAX`. -/
abbrev KeyAndVersion (K : Type) := K ×ₗ WithTop ℕ

/-- The key of a region in `historical_regions`. -/
def CacheRegion.historicalKey (region : CacheRegion K) : KeyAndVersion K :=
  toLex (region.endKey, (region.epochVersion : WithTop ℕ))

/-- `RegionCacheSnapshotMeta`. -/
structure SnapshotMeta (K : Type) [LinearOrder K] where
  region : CacheRegion K
  snapshotTs : ℕ
  deriving DecidableEq

/-- `RegionManager`. -/
structure RegionManager (K : Type) [LinearOrder K] where
  regionsMap : RegionMetaMap K
  historicalRegions : OrderedMap (KeyAndVersion K) (CacheRegionMeta K)
  deriving DecidableEq

namespace RegionManager

def new : RegionManager K where
  regionsMap := .new
  historicalRegions := .empty

variable (rm : RegionManager K) (region : CacheRegion K)

/-- The historical regions that end after the start of a range. -/
def historicalAbove : List (CacheRegionMeta K) :=
  (rm.historicalRegions.above (toLex (region.startKey, ⊤))).map (·.2)

/-- `overlaps_with_historical_regions`. -/
def overlapsWithHistoricalRegions : Bool :=
  (rm.historicalAbove region).any (·.region.startKey < region.endKey)

/-- `region_ready_to_evict`. -/
def regionReadyToEvict (self : CacheRegionMeta K) : Bool :=
  self.state = .pendingEvict && self.regionSnapshotList.isEmpty &&
    !rm.overlapsWithHistoricalRegions self.region

/-- `get_history_regions_min_ts`. -/
def getHistoryRegionsMinTs : Option ℕ :=
  ((rm.historicalAbove region).filterMap fun self =>
    if self.region.startKey < region.endKey then self.regionSnapshotList.minSnapshotTs
    else none).min?

/-- `region_snapshot`. -/
def regionSnapshot (regionId regionEpoch readTs : ℕ) : Except FailedReason (RegionManager K) :=
  match rm.regionsMap.regions.lookup regionId with
  | none => .error .notCached
  | some self =>
    if self.state ≠ .active then .error .notCached
    else if self.region.epochVersion ≠ regionEpoch then .error .epochNotMatch
    else if readTs ≤ self.safePoint then .error .tooOldRead
    else
      let regionSnapshotList := self.regionSnapshotList.newSnapshot readTs
      .ok { rm with regionsMap := rm.regionsMap.setMeta { self with regionSnapshotList } }

/-- `remove_region_snapshot` when the region has not changed since. -/
def removeFromRegion (self : CacheRegionMeta K) (snapshotTs : ℕ) :
    Except ImePanic (List (CacheRegion K) × RegionManager K) :=
  match self.regionSnapshotList.removeSnapshot snapshotTs with
  | .error panic => .error panic
  | .ok regionSnapshotList =>
    let self := { self with regionSnapshotList }
    if rm.regionReadyToEvict self then
      (self.setState .evicting).map fun self =>
        ([self.region], { rm with regionsMap := rm.regionsMap.setMeta self })
    else .ok ([], { rm with regionsMap := rm.regionsMap.setMeta self })

/-- The regions that can be deleted when a historical region is gone. -/
def deletableRegions (rm : RegionManager K) :
    List (CacheRegionMeta K) → Except ImePanic (List (CacheRegionMeta K))
  | [] => .ok []
  | self :: metas =>
    if self.state = .evicting then .error .state
    else if rm.regionReadyToEvict self then (rm.deletableRegions metas).map (self :: ·)
    else rm.deletableRegions metas

/-- Regions start to be evicted. -/
def setEvicting (m : RegionMetaMap K) : List (CacheRegionMeta K) → Except ImePanic (RegionMetaMap K)
  | [] => .ok m
  | self :: metas =>
    match self.setState .evicting with
    | .error panic => .error panic
    | .ok self => setEvicting (m.setMeta self) metas

/-- `remove_region_snapshot` when the region was split since. -/
def removeFromHistorical (snapshot : SnapshotMeta K) :
    Except ImePanic (List (CacheRegion K) × RegionManager K) :=
  let key := snapshot.region.historicalKey
  match rm.historicalRegions.lookup key with
  | none => .error .missingHistoricalRegion
  | some self =>
    match self.regionSnapshotList.removeSnapshot snapshot.snapshotTs with
    | .error panic => .error panic
    | .ok regionSnapshotList =>
      if regionSnapshotList.isEmpty then
        let rm := { rm with historicalRegions := rm.historicalRegions.erase key }
        match rm.regionsMap.iterOverlappedRegions snapshot.region with
        | .error panic => .error panic
        | .ok metas =>
          match rm.deletableRegions metas with
          | .error panic => .error panic
          | .ok deletable => (setEvicting rm.regionsMap deletable).map fun regionsMap =>
              (deletable.map (·.region), { rm with regionsMap })
      else .ok ([], { rm with
        historicalRegions := rm.historicalRegions.insert key { self with regionSnapshotList } })

/-- `remove_region_snapshot`, with the regions that can be deleted. -/
def removeRegionSnapshot (snapshot : SnapshotMeta K) :
    Except ImePanic (List (CacheRegion K) × RegionManager K) :=
  match rm.regionsMap.regions.lookup snapshot.region.id with
  | some self =>
    if self.region.epochVersion = snapshot.region.epochVersion then
      rm.removeFromRegion self snapshot.snapshotTs
    else rm.removeFromHistorical snapshot
  | none => rm.removeFromHistorical snapshot

/-- `do_evict_region`. -/
def doEvictRegion (id : ℕ) (evictRegion : CacheRegion K)
    (reason : EvictReason) (onEvictFinished : Option ℕ) :
    Except ImePanic (Option (CacheRegion K) × RegionManager K) :=
  match rm.regionsMap.regions.lookup id with
  | none => .error .missingRegion
  | some self =>
    if ¬self.region.Overlaps evictRegion then .error .overlaps
    else
      match self.state with
      | .pending => (rm.regionsMap.removeRegion id).map fun (_, regionsMap) =>
          (none, { rm with regionsMap })
      | .loadingCanceled | .pendingEvict | .evicting => .ok (none, rm)
      | .loading => (self.setState .loadingCanceled).map fun self =>
          (none, { rm with regionsMap := rm.regionsMap.setMeta self })
      | .active =>
        match self.markEvict .pendingEvict reason onEvictFinished with
        | .error panic => .error panic
        | .ok self =>
          if rm.regionReadyToEvict self then
            (self.setState .evicting).map fun self =>
              (some self.region, { rm with regionsMap := rm.regionsMap.setMeta self })
          else .ok (none, { rm with regionsMap := rm.regionsMap.setMeta self })

/-- The loop of `evict_region`. -/
def evictRegions (rm : RegionManager K) (evictRegion : CacheRegion K) (reason : EvictReason)
    (onEvictFinished : Option ℕ) :
    List ℕ → Except ImePanic (List (CacheRegion K) × RegionManager K)
  | [] => .ok ([], rm)
  | id :: ids =>
    match rm.doEvictRegion id evictRegion reason
      (if id = evictRegion.id then onEvictFinished else none) with
    | .error panic => .error panic
    | .ok (region, rm) =>
      (rm.evictRegions evictRegion reason onEvictFinished ids).map fun (regions, rm) =>
        (region.toList ++ regions, rm)

/-- `evict_region`, with the regions that can be deleted. -/
def evictRegion (evictRegion : CacheRegion K) (reason : EvictReason)
    (onEvictFinished : Option ℕ) : Except ImePanic (List (CacheRegion K) × RegionManager K) :=
  match rm.regionsMap.onAllOverlappedRegions evictRegion with
  | .error panic => .error panic
  | .ok metas => rm.evictRegions evictRegion reason onEvictFinished (metas.map (·.region.id))

/-- `on_delete_regions`, with the callbacks. -/
def onDeleteRegions (rm : RegionManager K) :
    List (CacheRegion K) → Except ImePanic (List ℕ × RegionManager K)
  | [] => .ok ([], rm)
  | r :: regions =>
    match rm.regionsMap.removeRegion r.id with
    | .error panic => .error panic
    | .ok (self, regionsMap) =>
      if self.region.epochVersion ≠ r.epochVersion then .error .epochVersion
      else
        match self.evictInfo with
        | none => .error .evictInfo
        | some info => (onDeleteRegions { rm with regionsMap } regions).map fun (cbs, rm) =>
            (info.onEvictFinished.toList ++ cbs, rm)

variable (f : CacheRegionMeta K → Except ImePanic (CacheRegionMeta K))

/-- A change to a region that lies in the given one. -/
def within (self : CacheRegionMeta K) : Except ImePanic (CacheRegionMeta K) :=
  if region.ContainsRange self.region then f self else .error .containsRange

/-- `on_gc_region_finished`. -/
def onGcRegionFinished : Except ImePanic (RegionManager K) :=
  match rm.regionsMap.onAllOverlappedRegions region with
  | .error panic => .error panic
  | .ok metas =>
    (RegionMetaMap.mapMetas (within region (·.setInGc false)) metas).map fun metas =>
      { rm with regionsMap := rm.regionsMap.setMetas metas }

/-- The new regions of a split are put in the map. -/
def newRegions (m : RegionMetaMap K) (source : CacheRegionMeta K) :
    List (CacheRegion K) → Except ImePanic (RegionMetaMap K)
  | [] => .ok m
  | r :: regions =>
    match CacheRegionMeta.deriveFrom r source with
    | .error panic => .error panic
    | .ok self =>
      match m.newRegionMeta self with
      | .error panic => .error panic
      | .ok m => newRegions m source regions

/-- The split of a region that was removed from the map. -/
def splitRemoved (self : CacheRegionMeta K) (regions : List (CacheRegion K)) :
    Except ImePanic (RegionManager K) :=
  (newRegions rm.regionsMap self regions).map fun regionsMap =>
    { regionsMap
      historicalRegions :=
        if self.regionSnapshotList.isEmpty then rm.historicalRegions
        else rm.historicalRegions.insert self.region.historicalKey self }

/-- `split_region`. -/
def splitRegion (source : CacheRegion K) (regions : List (CacheRegion K)) :
    Except ImePanic (RegionManager K) :=
  match rm.regionsMap.regions.lookup source.id with
  | none => .ok rm
  | some self =>
    if self.state.isEvict then .ok rm
    else
      match rm.regionsMap.removeRegion source.id with
      | .error panic => .error panic
      | .ok (self, regionsMap) =>
        let rm := { rm with regionsMap }
        if self.region.epochVersion = source.epochVersion then rm.splitRemoved self regions
        else if self.state ≠ .pending then .error .state
        else if source.epochVersion ≤ self.region.epochVersion then .error .epochVersion
        else rm.splitRemoved self (regions.filter self.region.Overlaps)

/-- What `on_snapshot_load_finished` does to a region. -/
def loadFinished (safePoint : ℕ) (self : CacheRegionMeta K) : Except ImePanic (CacheRegionMeta K) :=
  match self.state with
  | .loading => (self.setState .active).bind (·.setSafePoint safePoint)
  | .loadingCanceled => self.markEvict .evicting .loadFailed none
  | _ => .error .state

/-- What `on_snapshot_load_failed` does to a region. -/
def loadFailed (started : Bool) (self : CacheRegionMeta K) : Except ImePanic (CacheRegionMeta K) :=
  if self.state = .loading ∨ self.state = .loadingCanceled then
    self.markEvict .evicting (if started then .loadFailed else .loadFailedWithoutStart) none
  else .error .state

/-- The end of a load: the region that was loaded, or all regions it has been split into, are
changed, and those that are evicted can be deleted. -/
def onLoadEnd : Except ImePanic (List (CacheRegion K) × RegionManager K) :=
  match rm.regionsMap.regionMeta region.id with
  | .error panic => .error panic
  | .ok self =>
    match (if self.region.epochVersion = region.epochVersion then
        RegionMetaMap.mapMetas f [self]
      else (rm.regionsMap.iterOverlappedRegions region).bind
        (RegionMetaMap.mapMetas (within region f))) with
    | .error panic => .error panic
    | .ok metas => .ok ((metas.filter (·.state = .evicting)).map (·.region),
        { rm with regionsMap := rm.regionsMap.setMetas metas })

/-- `on_snapshot_load_finished`. -/
def onSnapshotLoadFinished (safePoint : ℕ) :
    Except ImePanic (List (CacheRegion K) × RegionManager K) :=
  rm.onLoadEnd region (loadFinished safePoint)

/-- `on_snapshot_load_failed`. -/
def onSnapshotLoadFailed (started : Bool) :
    Except ImePanic (List (CacheRegion K) × RegionManager K) :=
  rm.onLoadEnd region (loadFailed started)

end RegionManager

/-! ### The steps -/

/-- The manager, the snapshots that are alive, and the regions whose deletion is scheduled. -/
structure Cache (K : Type) [LinearOrder K] where
  manager : RegionManager K
  live : List (SnapshotMeta K)
  scheduled : List (CacheRegion K)
  deriving DecidableEq

/-- The calls of the methods. -/
inductive CacheEvent (K : Type) [LinearOrder K]
  | loadRegion (region : CacheRegion K)
  | prepareForApply (region : CacheRegion K) (setInWritten inFlashback : Bool)
  | onSnapshotLoadFinished (region : CacheRegion K) (safePoint : ℕ)
  | onSnapshotLoadFailed (region : CacheRegion K) (started : Bool)
  | regionSnapshot (region : CacheRegion K) (readTs : ℕ)
  | removeRegionSnapshot (snapshot : SnapshotMeta K)
  | evictRegion (region : CacheRegion K) (reason : EvictReason) (onEvictFinished : Option ℕ)
  | splitRegion (source : CacheRegion K) (regions : List (CacheRegion K))
  | onGcRegionFinished (region : CacheRegion K)
  | onDeleteRegions (regions : List (CacheRegion K))

namespace Cache

def new : Cache K where
  manager := .new
  live := []
  scheduled := []

/-- The manager after a call that schedules the deletion of some regions. -/
def schedule (c : Cache K) (result : List (CacheRegion K) × RegionManager K) : Cache K :=
  { c with manager := result.2, scheduled := result.1 ++ c.scheduled }

/-- The cache after a call. A snapshot that is not granted changes nothing. -/
def step (c : Cache K) : CacheEvent K → Except ImePanic (Cache K)
  | .loadRegion region => (c.manager.regionsMap.loadRegion region).map fun (_, regionsMap) =>
      { c with manager := { c.manager with regionsMap } }
  | .prepareForApply region setInWritten inFlashback =>
    (c.manager.regionsMap.prepareForApply region setInWritten inFlashback).map
      fun (_, _, regionsMap) => { c with manager := { c.manager with regionsMap } }
  | .onSnapshotLoadFinished region safePoint =>
    (c.manager.onSnapshotLoadFinished region safePoint).map c.schedule
  | .onSnapshotLoadFailed region started =>
    (c.manager.onSnapshotLoadFailed region started).map c.schedule
  | .regionSnapshot region readTs =>
    match c.manager.regionSnapshot region.id region.epochVersion readTs with
    | .error _ => .ok c
    | .ok manager => .ok { c with manager, live := ⟨region, readTs⟩ :: c.live }
  | .removeRegionSnapshot snapshot =>
    (c.manager.removeRegionSnapshot snapshot).map fun result =>
      { c.schedule result with live := c.live.erase snapshot }
  | .evictRegion region reason onEvictFinished =>
    (c.manager.evictRegion region reason onEvictFinished).map c.schedule
  | .splitRegion source regions =>
    (c.manager.splitRegion source regions).map fun manager => { c with manager }
  | .onGcRegionFinished region =>
    (c.manager.onGcRegionFinished region).map fun manager => { c with manager }
  | .onDeleteRegions regions => (c.manager.onDeleteRegions regions).map fun (_, manager) =>
      { c with manager, scheduled := c.scheduled.diff regions }

end Cache

end Tikv.InMemoryEngine
