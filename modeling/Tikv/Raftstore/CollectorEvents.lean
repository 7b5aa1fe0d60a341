import Tikv.Foundation.Versions
import Tikv.Raftstore.RegionCollector

/-!
# The events of the region collector

The collector is told of the regions of a store by events, which may come late, twice or in another
order than the regions have changed. It keeps a region by its id and by its end key, in two maps
that are changed one after the other and must stay mirror images of each other (`Mirror`).

Before an event is handled, the collected regions that overlap its region are removed, unless one of
them is newer; the loop over them stops at the first region behind, which is right because the
collected regions are disjoint (`Tiles`). So an event is recorded unless a newer one has been
(`Recorded`). All that is needed of the events is that overlapping
regions of different ids have different versions, which is so for the descriptors of one history
(**`collector_mirrors_regions`**).
-/

namespace Tikv.Raftstore

open List Option Region Cluster Function

open AssocMap (Map)
open VersionedPartition

universe u

variable {K : Type u} [LinearOrder K] [OrderBot K]

/-- `StateRole`. -/
inductive StateRole
  | follower
  | candidate
  | leader
  | preCandidate
deriving DecidableEq

/-- `RaftStoreEvent`. -/
inductive RaftStoreEvent (K : Type u)
  | createRegion (region : Region K) (role : StateRole)
  | updateRegion (region : Region K) (role : StateRole)
  | destroyRegion (region : Region K)
  | roleChange (region : Region K) (role : StateRole) (initialized : Bool)
  | updateRegionBuckets (region : Region K) (buckets : ℕ)

/-- `RaftStoreEvent::get_region`. -/
def RaftStoreEvent.region : RaftStoreEvent K → Region K
  | createRegion region _ => region
  | updateRegion region _ => region
  | destroyRegion region => region
  | roleChange region _ _ => region
  | updateRegionBuckets region _ => region

/-- The collector with what else it knows: the role and the number of buckets of each region it has,
and the ids of the regions that are led from this store. -/
structure CollectorState (K : Type u) extends RegionCollector K where
  role : ℕ → StateRole
  buckets : ℕ → ℕ
  regionLeaders : ℕ → Bool

namespace CollectorState

/-- `RegionCollector::new`. -/
def new : CollectorState K where
  regions := ∅
  regionRanges := []
  role := fun _ => .follower
  buckets := fun _ => 1
  regionLeaders := fun _ => false

variable (ranges : List (WithTop K × ℕ))

/-- `BTreeMap::insert` for `region_ranges`. -/
def insertRange (key : WithTop K) (id : ℕ) : List (WithTop K × ℕ) :=
  ranges.filter (·.1 < key) ++ (key, id) :: ranges.filter (key < ·.1)

/-- `BTreeMap::remove` for `region_ranges`. -/
def removeRange (key : WithTop K) : List (WithTop K × ℕ) :=
  ranges.filter (·.1 ≠ key)

/-- `BTreeMap::get` for `region_ranges`. -/
def getRange (key : WithTop K) : Option ℕ :=
  (ranges.find? (·.1 = key)).map Prod.snd

variable (s : CollectorState K) (region : Region K)

/-- `RegionCollector::create_region`. -/
def createRegion (role : StateRole) : Except Panic (CollectorState K) :=
  if region.id ∈ s.regions then .error .assertion
  else .ok { s with
    regions := s.regions.insert region.id region
    regionRanges := insertRange s.regionRanges region.encEndKey region.id
    role := update s.role region.id role
    buckets := update s.buckets region.id 1 }

/-- `RegionCollector::update_region`. -/
def updateRegion : Except Panic (CollectorState K) :=
  match s.regions.lookup region.id with
  | none => .error .assertion
  | some oldRegion =>
    if oldRegion.id ≠ region.id then .error .assertion
    else if oldRegion.endKey ≠ region.endKey then
      if getRange s.regionRanges oldRegion.encEndKey ≠ some region.id then .error .assertion
      else
        let regionRanges := removeRange s.regionRanges oldRegion.encEndKey
        if (getRange regionRanges region.encEndKey).isSome then .error .assertion
        else .ok { s with
          regions := s.regions.insert region.id region
          regionRanges := insertRange regionRanges region.encEndKey region.id }
    else .ok { s with regions := s.regions.insert region.id region }

/-- `RegionCollector::handle_create_region`. -/
def handleCreateRegion (role : StateRole) : Except Panic (CollectorState K) :=
  if region.id ∈ s.regions then s.updateRegion region else s.createRegion region role

/-- `RegionCollector::handle_update_region`. -/
def handleUpdateRegion (role : StateRole) : Except Panic (CollectorState K) :=
  if region.id ∈ s.regions then s.updateRegion region else s.createRegion region role

/-- `RegionCollector::handle_update_region_buckets`. -/
def handleUpdateRegionBuckets (buckets : ℕ) : Except Panic (CollectorState K) :=
  match s.regions.lookup region.id with
  | some oldRegion =>
    if oldRegion.id ≠ region.id then .error .assertion
    else .ok { s with buckets := update s.buckets region.id buckets }
  | none => .ok s

/-- `RegionCollector::handle_destroy_region`. -/
def handleDestroyRegion : Except Panic (CollectorState K) :=
  let regionLeaders := update s.regionLeaders region.id false
  match s.regions.lookup region.id with
  | some removedRegion =>
    if removedRegion.id ≠ region.id then .error .assertion
    else if getRange s.regionRanges removedRegion.encEndKey ≠ some region.id then .error .assertion
    else .ok { s with
      regions := s.regions.erase region.id
      regionRanges := removeRange s.regionRanges removedRegion.encEndKey
      regionLeaders }
  | none => .ok { s with regionLeaders }

/-- `RegionCollector::handle_role_change`. -/
def handleRoleChange (newRole : StateRole) : Except Panic (CollectorState K) :=
  let s := { s with
    regionLeaders := update s.regionLeaders region.id (newRole = StateRole.leader) }
  if region.id ∈ s.regions then .ok { s with role := update s.role region.id newRole }
  else s.createRegion region newRole

/-- The event is ignored without a look at the collected regions. -/
def ignores (event : RaftStoreEvent K) : Bool :=
  match event with
  | .roleChange region _ initialized => region.regionEpoch.version = 0 || !initialized
  | _ => event.region.regionEpoch.version = 0

/-- `RegionCollector::handle_raftstore_event`. -/
def handleRaftstoreEvent (event : RaftStoreEvent K) : Except Panic (CollectorState K) :=
  if ignores event then .ok s
  else
    match s.toRegionCollector.checkRegionRange event.region true with
    | .error e => .error e
    | .ok (false, _) => .ok s
    | .ok (true, collector) =>
      let s := { s with toRegionCollector := collector }
      match event with
      | .createRegion region role => s.handleCreateRegion region role
      | .updateRegion region role => s.handleUpdateRegion region role
      | .destroyRegion region => s.handleDestroyRegion region
      | .roleChange region role _ => s.handleRoleChange region role
      | .updateRegionBuckets region buckets => s.handleUpdateRegionBuckets region buckets

/-- The collected region of an entry, which is indexed. -/
def regionOf (entry : WithTop K × ℕ) : Except Panic (Region K) :=
  match s.regions.lookup entry.2 with
  | some region => .ok region
  | none => .error .assertion

/-- `RegionCollector::handle_seek_region`: what the iterator of the callback runs through. -/
def handleSeekRegion (fromKey : K) : Except Panic (List (Region K)) :=
  (s.regionRanges.filter fun e => (fromKey : WithTop K) < e.1).mapM s.regionOf

/-- `RangeKey::from_end_key`. -/
def fromEndKey (key : K) : WithTop K := if key = ⊥ then ⊤ else key

/-- The loop of `handle_get_regions_in_range`. -/
def regionsUpTo (s : CollectorState K) (endKey : WithTop K) :
    List (WithTop K × ℕ) → Except Panic (List (Region K))
  | [] => .ok []
  | entry :: entries => do
    let region ← s.regionOf entry
    if endKey < region.startKey then return []
    let regions ← s.regionsUpTo endKey entries
    return region :: regions

/-- `RegionCollector::handle_get_regions_in_range`. -/
def handleGetRegionsInRange (startKey endKey : K) : Except Panic (List (Region K)) :=
  s.regionsUpTo (fromEndKey endKey) (s.regionRanges.filter fun e => (startKey : WithTop K) < e.1)

end CollectorState

namespace RegionCollector

/-! ### The check -/

variable {c c' : RegionCollector K} {region : Region K}

/-- The two maps are mirror images: the entries by end key are those of the regions by id. -/
structure Mirror (c : RegionCollector K) : Prop where
  ids : ∀ id r, c.regions.lookup id = some r → r.id = id
  ranges : ∀ key id, (key, id) ∈ c.regionRanges ↔
    ∃ r, c.regions.lookup id = some r ∧ r.encEndKey = key
  sorted : c.regionRanges.Pairwise fun a b => a.1 < b.1

/-- The collected regions are not empty and disjoint. -/
structure Tiles (c : RegionCollector K) : Prop where
  nonempty : ∀ id r, c.regions.lookup id = some r → r.range.Nonempty
  disjoint : ∀ id id' r r', c.regions.lookup id = some r → c.regions.lookup id' = some r' →
    id ≠ id' → ¬ (r.range ∩ r'.range).Nonempty

theorem Mirror.nodup_keys (h : c.Mirror) : (c.regionRanges.map Prod.fst).Nodup :=
  pairwise_map.mpr (h.sorted.imp fun h => h.ne)

theorem Mirror.consistent (h : c.Mirror) : c.Consistent where
  ids := h.ids
  ranges := fun key id hmem => (h.ranges key id).mp hmem
  sorted := pairwise_map.mpr h.sorted

/-- The region is older than a collected region of its id, or than one that overlaps it. -/
def Outdated (c : RegionCollector K) (region : Region K) : Prop :=
  ∃ id r, c.regions.lookup id = some r ∧
    (id = region.id ∨ (region.range ∩ r.range).Nonempty) ∧ isRegionEpochStale region r = true

/-- Overlapping regions of other ids have other versions. -/
def VersionsDiffer (c : RegionCollector K) (region : Region K) : Prop :=
  ∀ id r, c.regions.lookup id = some r → id ≠ region.id → (region.range ∩ r.range).Nonempty →
    region.regionEpoch.version ≠ r.regionEpoch.version

/-- What the loop of the check visits: entries of collected regions, in the order of their
ranges. -/
structure Visits (regions : Map ℕ (Region K)) (region : Region K)
    (entries : List (WithTop K × ℕ)) : Prop where
  found : ∀ e ∈ entries, ∃ r, regions.lookup e.2 = some r ∧ r.encEndKey = e.1 ∧ r.range.Nonempty ∧
    (region.startKey : WithTop K) < e.1
  ordered : entries.Pairwise fun e e' => ∀ r', regions.lookup e'.2 = some r' →
    e.1 ≤ (r'.startKey : WithTop K)

variable {regions : Map ℕ (Region K)} {entries : List (WithTop K × ℕ)} {e : WithTop K × ℕ}

theorem Visits.tail (h : Visits regions region (e :: entries)) : Visits regions region entries where
  found := fun e' he' => h.found e' (mem_cons_of_mem _ he')
  ordered := (pairwise_cons.mp h.ordered).2

/-- Behind a region that is behind `region` all are. -/
theorem Visits.le_startKey_of_behind (h : Visits regions region (e :: entries)) {r : Region K}
    (hr : regions.lookup e.2 = some r) (hbehind : region.encEndKey ≤ r.startKey) :
    ∀ e' ∈ e :: entries, ∀ r', regions.lookup e'.2 = some r' →
      region.encEndKey ≤ r'.startKey := by
  intro e' he' r' hr'
  rcases mem_cons.mp he' with rfl | he'
  · exact mem_unique hr hr' ▸ hbehind
  · obtain ⟨r₀, hr₀, hend, hnonempty, -⟩ := h.found e mem_cons_self
    obtain rfl := mem_unique hr hr₀
    have hle := (pairwise_cons.mp h.ordered).1 e' he' r' hr'
    exact (hbehind.trans (startKey_lt_encEndKey hnonempty).le).trans (hend ▸ hle)

/-- The entry of another region, which is not behind `region`. -/
def hits (c : RegionCollector K) (region : Region K) (e : WithTop K × ℕ) : Bool :=
  e.2 ≠ region.id && (c.regions.lookup e.2).any fun r => (r.startKey : WithTop K) < region.encEndKey

/-- The loop finds a newer region that overlaps, or it collects all that overlap. -/
theorem Visits.staleRegionsInRange (h : Visits c.regions region entries)
    (hregion : region.range.Nonempty) (hversion : c.VersionsDiffer region) :
    (staleRegionsInRange c.regions region entries = .ok none ∧
      ∃ e ∈ entries, ∃ r, c.regions.lookup e.2 = some r ∧ (region.range ∩ r.range).Nonempty ∧
        isRegionEpochStale region r = true) ∨
    (staleRegionsInRange c.regions region entries = .ok (some (entries.filter (c.hits region))) ∧
      ∀ e ∈ entries, c.hits region e = true → ∀ r, c.regions.lookup e.2 = some r →
        isRegionEpochStale region r = false) := by
  induction entries with
  | nil => exact .inr ⟨rfl, nofun⟩
  | cons e entries ih =>
    obtain ⟨key, id⟩ := e
    obtain ⟨r, hr, hend, hnonempty, hkey⟩ := h.found (key, id) mem_cons_self
    rw [RegionCollector.staleRegionsInRange]
    by_cases hid : id = region.id
    · -- The entry of the region itself is skipped.
      have hskip : ¬ c.hits region (key, id) = true := by simp [hits, hid]
      rw [if_pos hid, filter_cons_of_neg hskip]
      rcases ih h.tail with ⟨heq, e, he, hnewer⟩ | ⟨heq, hstale⟩
      · exact .inl ⟨heq, e, mem_cons_of_mem _ he, hnewer⟩
      · exact .inr ⟨heq, forall_mem_cons.mpr ⟨fun hhit => absurd hhit hskip, hstale⟩⟩
    · rw [if_neg hid, hr]
      dsimp only
      by_cases hbehind : region.encEndKey ≤ r.startKey
      · rw [if_pos (behind_iff.mpr hbehind)]
        have hnone : ∀ e ∈ (key, id) :: entries, ¬ c.hits region e = true := by
          intro e he hhit
          obtain ⟨r', hr', -⟩ := h.found e he
          rw [hits, hr', Bool.and_eq_true] at hhit
          exact (h.le_startKey_of_behind hr hbehind e he r' hr').not_gt (of_decide_eq_true hhit.2)
        rw [filter_eq_nil_iff.mpr hnone]
        exact .inr ⟨rfl, fun e he hhit => absurd hhit (hnone e he)⟩
      · have hhit : c.hits region (key, id) = true := by
          simpa [hits, hid, hr] using not_le.mp hbehind
        have hoverlap : (region.range ∩ r.range).Nonempty :=
          (overlap_iff hregion hnonempty).mpr ⟨hend ▸ hkey, not_le.mp hbehind⟩
        rw [if_neg (mt behind_iff.mp hbehind), filter_cons_of_pos hhit]
        by_cases hstale : isRegionEpochStale region r = true
        · rw [if_pos hstale]
          exact .inl ⟨rfl, (key, id), mem_cons_self, r, hr, hoverlap, hstale⟩
        · rw [if_neg hstale, if_neg (hversion id r hr hid hoverlap)]
          rcases ih h.tail with ⟨heq, e, he, hnewer⟩ | ⟨heq, hstale'⟩
          · rw [heq]
            exact .inl ⟨rfl, e, mem_cons_of_mem _ he, hnewer⟩
          · rw [heq]
            refine .inr ⟨rfl, forall_mem_cons.mpr ⟨fun _ r' hr' => ?_, hstale'⟩⟩
            obtain rfl := mem_unique hr hr'
            exact (Bool.not_eq_true _).mp hstale

/-- The entries of the collected regions are in the order of their ranges. -/
theorem Mirror.ordered (hm : c.Mirror) (ht : c.Tiles) :
    c.regionRanges.Pairwise fun e e' => ∀ r', c.regions.lookup e'.2 = some r' →
      e.1 ≤ (r'.startKey : WithTop K) := by
  refine hm.sorted.imp_of_mem fun {e e'} he he' hlt r' hr' => ?_
  obtain ⟨r, hr, hend⟩ := (hm.ranges e.1 e.2).mp he
  obtain ⟨r'', hr'', hend'⟩ := (hm.ranges e'.1 e'.2).mp he'
  obtain rfl := mem_unique hr' hr''
  have hid : e.2 ≠ e'.2 := by
    intro hid
    rw [hid] at hr
    obtain rfl := mem_unique hr' hr
    exact hlt.ne (hend.symm.trans hend')
  rw [← hend]
  exact encEndKey_le_startKey (ht.nonempty _ r hr) (ht.nonempty _ r' hr')
    (ht.disjoint _ _ r r' hr hr' hid) (hend.symm ▸ hend'.symm ▸ hlt)

theorem Mirror.visits (hm : c.Mirror) (ht : c.Tiles) (region : Region K) :
    Visits c.regions region
      (c.regionRanges.filter fun (key, _) => (region.startKey : WithTop K) < key) where
  found := by
    intro e he
    obtain ⟨hmem, hlt⟩ := mem_filter.mp he
    obtain ⟨r, hr, hend⟩ := (hm.ranges e.1 e.2).mp hmem
    exact ⟨r, hr, hend, ht.nonempty _ r hr, of_decide_eq_true hlt⟩
  ordered := (hm.ordered ht).filter _

/-- What is left when regions are removed is still mirrored. -/
theorem Mirror.of_removed (hm : c.Mirror) {stale : List (WithTop K × ℕ)}
    (hsub : stale.Sublist c.regionRanges)
    (hregions : ∀ id, c'.regions.lookup id =
      if id ∈ stale.map Prod.snd then none else c.regions.lookup id)
    (hranges : c'.regionRanges = c.regionRanges.filter (·.1 ∉ stale.map Prod.fst)) : c'.Mirror := by
  have hsome : ∀ id r, c'.regions.lookup id = some r →
      id ∉ stale.map Prod.snd ∧ c.regions.lookup id = some r := by
    intro id r hr
    rw [hregions] at hr
    split_ifs at hr with hmem
    exact ⟨hmem, hr⟩
  refine ⟨fun id r hr => hm.ids id r (hsome id r hr).2, fun key id => ?_, ?_⟩
  · rw [hranges, mem_filter, hm.ranges, decide_eq_true_eq]
    constructor
    · rintro ⟨⟨r, hr, rfl⟩, hkey⟩
      refine ⟨r, ?_, rfl⟩
      rw [hregions, if_neg, hr]
      intro hmem
      obtain ⟨⟨key', id'⟩, he, rfl⟩ := mem_map.mp hmem
      obtain ⟨r', hr', rfl⟩ := (hm.ranges key' id').mp (hsub.subset he)
      obtain rfl := mem_unique hr hr'
      exact hkey (mem_map_of_mem he)
    · rintro ⟨r, hr, rfl⟩
      obtain ⟨hnot, hr⟩ := hsome id r hr
      refine ⟨⟨r, hr, rfl⟩, fun hmem => ?_⟩
      obtain ⟨⟨key', id'⟩, he, heq⟩ := mem_map.mp hmem
      -- End keys are distinct, so the entry is that of `id`.
      have hentry := (hm.ranges r.encEndKey id).mpr ⟨r, hr, rfl⟩
      cases inj_on_of_nodup_map hm.nodup_keys (hsub.subset he) hentry heq
      exact hnot (mem_map_of_mem he)
  · rw [hranges]
    exact hm.sorted.filter _

/-- What is left of disjoint regions is disjoint. -/
theorem Tiles.of_lookup (ht : c.Tiles)
    (h : ∀ id r, c'.regions.lookup id = some r → c.regions.lookup id = some r) : c'.Tiles where
  nonempty := fun id r hr => ht.nonempty id r (h id r hr)
  disjoint := fun id id' r r' hr hr' => ht.disjoint id id' r r' (h id r hr) (h id' r' hr')

/-- The check removes the regions that overlap, unless the region is outdated. -/
theorem checkRegionRange_spec (hm : c.Mirror) (ht : c.Tiles) (hregion : region.range.Nonempty)
    (hversion : c.VersionsDiffer region) :
    (c.Outdated region ∧ c.checkRegionRange region true = .ok (false, c)) ∨
    (¬ c.Outdated region ∧ ∃ c', c.checkRegionRange region true = .ok (true, c') ∧ c'.Mirror ∧
      ∀ id r, c'.regions.lookup id = some r ↔ c.regions.lookup id = some r ∧
        (id = region.id ∨ ¬ (region.range ∩ r.range).Nonempty)) := by
  unfold checkRegionRange
  by_cases hsame : (c.regions.lookup region.id).any (isRegionEpochStale region) = true
  · rw [if_pos hsame]
    refine .inl ⟨?_, rfl⟩
    cases hr : c.regions.lookup region.id with rw [hr] at hsame
    | none => cases hsame
    | some r => exact ⟨region.id, r, hr, .inl rfl, hsame⟩
  · rw [if_neg hsame]
    dsimp only
    rcases (hm.visits ht region).staleRegionsInRange hregion hversion with
      ⟨heq, e, he, r, hr, hoverlap, hnewer⟩ | ⟨heq, hstale⟩
    · rw [heq]
      exact .inl ⟨⟨e.2, r, hr, .inr hoverlap, hnewer⟩, rfl⟩
    · -- A region is collected exactly when it overlaps.
      have hcollected : ∀ id r, c.regions.lookup id = some r → ((r.encEndKey, id) ∈
          (c.regionRanges.filter fun (key, _) => (region.startKey : WithTop K) < key).filter
            (c.hits region) ↔ id ≠ region.id ∧ (region.range ∩ r.range).Nonempty) := by
        intro id r hr
        have hmem := (hm.ranges _ _).mpr ⟨r, hr, rfl⟩
        rw [mem_filter, mem_filter, overlap_iff hregion (ht.nonempty id r hr), hits, hr]
        simp only [hmem, decide_eq_true_eq, true_and, ne_eq, decide_not, any_some,
          Bool.and_eq_true, Bool.not_eq_eq_eq_not, Bool.not_true, decide_eq_false_iff_not]
        tauto
      have hsub := (filter_sublist (p := c.hits region)).trans (filter_sublist
        (p := fun (key, _) => decide ((region.startKey : WithTop K) < key)) (l := c.regionRanges))
      obtain ⟨c', hc', hregions, hranges⟩ := removeRegions_ok hm.consistent hsub
      rw [heq]
      dsimp only
      rw [if_pos rfl, hc']
      refine .inr ⟨?_, c', rfl, hm.of_removed hsub hregions hranges, fun id r => ?_⟩
      · rintro ⟨id, r, hr, hover, hnewer⟩
        by_cases hid : id = region.id
        · rw [hid] at hr
          rw [hr] at hsame
          exact hsame hnewer
        · obtain ⟨hvisit, hhit⟩ := mem_filter.mp ((hcollected id r hr).mpr
            ⟨hid, hover.resolve_left hid⟩)
          rw [hstale _ hvisit hhit r hr] at hnewer
          cases hnewer
      · rw [hregions, Option.ite_none_left_eq_some, and_comm]
        refine and_congr_right fun hr => ?_
        rw [← not_iff_not, not_not, not_or, not_not, ← hcollected id r hr, List.mem_map]
        refine ⟨fun ⟨e, he, hid⟩ => ?_, fun he => ⟨_, he, rfl⟩⟩
        subst hid
        obtain ⟨r', hr', hend⟩ := (hm.ranges e.1 e.2).mp (hsub.subset he)
        obtain rfl := mem_unique hr hr'
        rwa [hend]

end RegionCollector

/-! ### The handlers -/

namespace CollectorState

open RegionCollector

variable {s s' : CollectorState K} {region : Region K} {ranges : List (WithTop K × ℕ)}
  {key : WithTop K} {id : ℕ}

omit [OrderBot K] in
theorem mem_insertRange {e : WithTop K × ℕ} :
    e ∈ insertRange ranges key id ↔ e = (key, id) ∨ e ∈ ranges ∧ e.1 ≠ key := by
  rw [insertRange, mem_append, mem_cons, mem_filter, mem_filter,
    decide_eq_true_eq, decide_eq_true_eq, ne_iff_lt_or_gt]
  tauto

omit [OrderBot K] in
theorem sorted_insertRange (h : ranges.Pairwise fun a b => a.1 < b.1) :
    (insertRange ranges key id).Pairwise fun a b => a.1 < b.1 := by
  rw [insertRange, pairwise_append, pairwise_cons]
  refine ⟨h.filter _, ⟨fun e he => ?_, h.filter _⟩, fun e he e' he' => ?_⟩
  · exact of_decide_eq_true (mem_filter.mp he).2
  · have hlt : e.1 < key := of_decide_eq_true (mem_filter.mp he).2
    rcases mem_cons.mp he' with rfl | he''
    · exact hlt
    · exact hlt.trans (of_decide_eq_true (mem_filter.mp he'').2)

omit [OrderBot K] in
theorem getRange_eq_some (h : ranges.Pairwise fun a b => a.1 < b.1) :
    getRange ranges key = some id ↔ (key, id) ∈ ranges :=
  keyed_find?_eq_some_iff (R := (· < ·)) lt_irrefl h

/-- The other collected regions do not overlap the region. -/
def Clear (c : RegionCollector K) (region : Region K) : Prop :=
  ∀ id r, c.regions.lookup id = some r → id ≠ region.id → ¬ (region.range ∩ r.range).Nonempty

/-- The collector holds the region, and otherwise what it held before. -/
structure Puts (c : RegionCollector K) (region : Region K) (c' : RegionCollector K) : Prop where
  regions : c'.regions = c.regions.insert region.id region
  ranges : ∀ key id, (key, id) ∈ c'.regionRanges ↔
    (id = region.id ∧ key = region.encEndKey) ∨ (id ≠ region.id ∧ (key, id) ∈ c.regionRanges)
  sorted : c'.regionRanges.Pairwise fun a b => a.1 < b.1

section

variable {c c' : RegionCollector K} (h : Puts c region c')
include h

theorem Puts.of_lookup {r : Region K} (hr : c'.regions.lookup id = some r) :
    (id = region.id ∧ r = region) ∨ (id ≠ region.id ∧ c.regions.lookup id = some r) :=
  AssocMap.of_lookup_insert (h.regions ▸ hr)

/-- The maps mirror each other when the region is put into both. -/
theorem Puts.mirror (hm : c.Mirror) : c'.Mirror := by
  refine ⟨fun id r hr => ?_, fun key id => ?_, h.sorted⟩
  · rcases h.of_lookup hr with ⟨rfl, rfl⟩ | ⟨-, hr⟩
    · rfl
    · exact hm.ids id r hr
  · rw [h.ranges, h.regions, AssocMap.lookup_insert]
    by_cases hid : id = region.id
    · rw [if_pos hid]
      constructor
      · rintro (⟨-, rfl⟩ | ⟨hne, -⟩)
        · exact ⟨region, rfl, rfl⟩
        · exact absurd hid hne
      · rintro ⟨r, hr, rfl⟩
        obtain rfl := some.inj hr
        exact .inl ⟨hid, rfl⟩
    · rw [if_neg hid, hm.ranges]
      exact ⟨fun h => (h.resolve_left fun h => hid h.1).2, fun h => .inr ⟨hid, h⟩⟩

/-- A region that overlaps no other one may be put in. -/
theorem Puts.tiles (ht : c.Tiles) (hregion : region.range.Nonempty) (hclear : Clear c region) :
    c'.Tiles := by
  refine ⟨fun id r hr => ?_, fun id id' r r' hr hr' hne => ?_⟩
  · rcases h.of_lookup hr with ⟨-, rfl⟩ | ⟨-, hr⟩
    · exact hregion
    · exact ht.nonempty id r hr
  · rcases h.of_lookup hr with ⟨rfl, rfl⟩ | ⟨hid, hr⟩
    · rcases h.of_lookup hr' with ⟨rfl, rfl⟩ | ⟨hid', hr'⟩
      · exact absurd rfl hne
      · exact hclear id' r' hr' hid'
    · rcases h.of_lookup hr' with ⟨rfl, rfl⟩ | ⟨hid', hr'⟩
      · rw [Set.inter_comm]
        exact hclear id r hr hid
      · exact ht.disjoint id id' r r' hr hr' hne

end

section

variable (hm : s.Mirror)
include hm

/-- The entry at the end of a region is its own. -/
theorem mem_removeRange_iff {old : Region K} (hold : s.regions.lookup region.id = some old)
    (e : WithTop K × ℕ) :
    e ∈ removeRange s.regionRanges old.encEndKey ↔ e ∈ s.regionRanges ∧ e.2 ≠ region.id := by
  rw [removeRange, mem_filter, decide_eq_true_eq]
  refine and_congr_right fun hmem => not_congr ?_
  obtain ⟨r, hr, hend⟩ := (hm.ranges e.1 e.2).mp hmem
  constructor
  · intro hkey
    have hentry := (hm.ranges old.encEndKey region.id).mpr ⟨old, hold, rfl⟩
    exact congrArg Prod.snd (inj_on_of_nodup_map hm.nodup_keys hmem hentry hkey)
  · intro hid
    rw [hid, hold] at hr
    rw [some.inj hr, hend]

variable (ht : s.Tiles) (hregion : region.range.Nonempty)
  (hclear : Clear s.toRegionCollector region)
include ht hregion hclear

theorem Clear.ne_encEndKey (hmem : (key, id) ∈ s.regionRanges) (hid : id ≠ region.id) :
    key ≠ region.encEndKey := by
  rintro rfl
  obtain ⟨r, hr, hend⟩ := (hm.ranges _ _).mp hmem
  exact hclear id r hr hid
    (overlap_of_encEndKey_eq hregion (ht.nonempty id r hr) hend.symm)

/-- A new region gets its entry. -/
theorem createRegion_puts (hnew : s.regions.lookup region.id = none) (role : StateRole) :
    ∃ s', s.createRegion region role = .ok s' ∧
      Puts s.toRegionCollector region s'.toRegionCollector := by
  have hnot : region.id ∉ s.regions := AList.lookup_eq_none.mp hnew
  refine ⟨_, if_neg hnot, rfl, fun key id => ?_, sorted_insertRange hm.sorted⟩
  have hid : ∀ key id, (key, id) ∈ s.regionRanges → id ≠ region.id := by
    rintro key id hmem rfl
    obtain ⟨r, hr, -⟩ := (hm.ranges _ _).mp hmem
    rw [hnew] at hr
    cases hr
  rw [mem_insertRange, Prod.mk.injEq]
  constructor
  · rintro (⟨rfl, rfl⟩ | ⟨hmem, -⟩)
    · exact .inl ⟨rfl, rfl⟩
    · exact .inr ⟨hid key id hmem, hmem⟩
  · rintro (⟨rfl, rfl⟩ | ⟨hne, hmem⟩)
    · exact .inl ⟨rfl, rfl⟩
    · exact .inr ⟨hmem, hclear.ne_encEndKey hm ht hregion hmem hne⟩

/-- An update moves the entry to the new end key. -/
theorem updateRegion_puts {old : Region K} (hold : s.regions.lookup region.id = some old) :
    ∃ s', s.updateRegion region = .ok s' ∧
      Puts s.toRegionCollector region s'.toRegionCollector := by
  -- The entry of the region is the one at its old end.
  have hown : ∀ key, (key, region.id) ∈ s.regionRanges ↔ key = old.encEndKey := by
    intro key
    rw [hm.ranges]
    constructor
    · rintro ⟨r, hr, rfl⟩
      rw [mem_unique hold hr]
    · rintro rfl
      exact ⟨old, hold, rfl⟩
  rw [updateRegion, hold]
  dsimp only
  rw [if_neg (not_not.mpr (hm.ids _ _ hold))]
  by_cases hend : old.endKey = region.endKey
  · have henc : old.encEndKey = region.encEndKey := by
      rw [encEndKey, encEndKey, hend]
    rw [if_neg (not_not.mpr hend)]
    refine ⟨_, rfl, rfl, fun key id => ?_, hm.sorted⟩
    by_cases hid : id = region.id
    · rw [hid, hown, henc]
      tauto
    · tauto
  · have hget : getRange s.regionRanges old.encEndKey = some region.id :=
      (getRange_eq_some hm.sorted).mpr ((hown _).mpr rfl)
    have hsorted : (removeRange s.regionRanges old.encEndKey).Pairwise fun a b => a.1 < b.1 :=
      hm.sorted.filter _
    have hremoved := mem_removeRange_iff hm hold
    have hfree : getRange (removeRange s.regionRanges old.encEndKey) region.encEndKey = none := by
      refine eq_none_iff_forall_ne_some.mpr fun id hid => ?_
      obtain ⟨hmem, hne⟩ := (hremoved _).mp ((getRange_eq_some hsorted).mp hid)
      exact hclear.ne_encEndKey hm ht hregion hmem hne rfl
    rw [if_pos hend, hget, if_neg (not_not.mpr rfl), hfree, isSome_none,
      if_neg Bool.false_ne_true]
    refine ⟨_, rfl, rfl, fun key id => ?_, sorted_insertRange hsorted⟩
    rw [mem_insertRange, hremoved, Prod.mk.injEq]
    constructor
    · rintro (⟨rfl, rfl⟩ | ⟨⟨hmem, hne⟩, -⟩)
      · exact .inl ⟨rfl, rfl⟩
      · exact .inr ⟨hne, hmem⟩
    · rintro (⟨rfl, rfl⟩ | ⟨hne, hmem⟩)
      · exact .inl ⟨rfl, rfl⟩
      · exact .inr ⟨⟨hmem, hne⟩, hclear.ne_encEndKey hm ht hregion hmem hne⟩

end

/-- What is collected under the id of the event's region, if the event is not outdated. -/
def records (event : RaftStoreEvent K) (old : Option (Region K)) : Option (Region K) :=
  match event with
  | .createRegion region _ | .updateRegion region _ => some region
  | .destroyRegion _ => none
  | .roleChange region _ _ => some (old.getD region)
  | .updateRegionBuckets _ _ => old

/-- The event is recorded: its region is collected as the event says, and of the others those that
do not overlap it. -/
structure Recorded (s : CollectorState K) (event : RaftStoreEvent K) (s' : CollectorState K) :
    Prop where
  own : s'.regions.lookup event.region.id = records event (s.regions.lookup event.region.id)
  others : ∀ id r, id ≠ event.region.id → (s'.regions.lookup id = some r ↔
    s.regions.lookup id = some r ∧ ¬ (event.region.range ∩ r.range).Nonempty)

/-- What the collector keeps in order: the two maps mirror each other, the regions are disjoint, and
all of them are descriptors of the history. -/
structure Inv (P : Region K → Prop) (c : RegionCollector K) : Prop where
  mirror : c.Mirror
  tiles : c.Tiles
  known : ∀ id r, c.regions.lookup id = some r → P r

variable {P : Region K → Prop}

theorem Inv.put {c c' : RegionCollector K} (h : Inv P c) (hputs : Puts c region c')
    (hregion : region.range.Nonempty) (hclear : Clear c region) (hP : P region) : Inv P c' where
  mirror := hputs.mirror h.mirror
  tiles := hputs.tiles h.tiles hregion hclear
  known := by
    intro id r hr
    rcases hputs.of_lookup hr with ⟨-, rfl⟩ | ⟨-, hr⟩
    · exact hP
    · exact h.known id r hr

/-- A handler goes through, keeps everything in order and collects `x` under the id. -/
def Handles (P : Region K → Prop) (s : CollectorState K) (id : ℕ) (x : Option (Region K))
    (r : Except Panic (CollectorState K)) : Prop :=
  ∃ s', r = .ok s' ∧ Inv P s'.toRegionCollector ∧
    ∀ id', s'.regions.lookup id' = if id' = id then x else s.regions.lookup id'

omit [LinearOrder K] [OrderBot K] in
/-- Nothing changes. -/
theorem lookup_eq_ite {x : Option (Region K)} (h : s.regions.lookup id = x) (id' : ℕ) :
    s.regions.lookup id' = if id' = id then x else s.regions.lookup id' := by
  split_ifs with hid
  · rw [hid, h]
  · rfl

section

variable (h : Inv P s.toRegionCollector)
include h

/-- A region is taken out of both maps. -/
theorem handleDestroyRegion_inv :
    Handles P s region.id none (s.handleDestroyRegion region) := by
  rw [handleDestroyRegion]
  cases hlookup : s.regions.lookup region.id with
  | none => exact ⟨_, rfl, h, lookup_eq_ite hlookup⟩
  | some old =>
    have hmem := (h.mirror.ranges _ _).mpr ⟨old, hlookup, rfl⟩
    dsimp only
    rw [if_neg (not_not.mpr (h.mirror.ids _ _ hlookup)),
      (getRange_eq_some h.mirror.sorted).mpr hmem, if_neg (not_not.mpr rfl)]
    have herase : ∀ id r, (s.regions.erase region.id).lookup id = some r →
        s.regions.lookup id = some r :=
      fun id r hr => (AssocMap.lookup_erase_eq_some_iff.mp hr).2
    refine ⟨_, rfl, ⟨h.mirror.of_removed (singleton_sublist.mpr hmem) (fun id => ?_) ?_,
      h.tiles.of_lookup herase, fun id r hr => h.known id r (herase id r hr)⟩,
      fun id => AssocMap.lookup_erase _ _ _⟩
    · simp only [map_cons, map_nil, mem_singleton, AssocMap.lookup_erase]
    · simp only [map_cons, map_nil, mem_singleton, removeRange]

variable (hregion : region.range.Nonempty) (hclear : Clear s.toRegionCollector region)
  (hP : P region) (role : StateRole)
include hregion hclear hP

theorem Handles.of_puts {r : Except Panic (CollectorState K)}
    (hputs : ∃ s', r = .ok s' ∧ Puts s.toRegionCollector region s'.toRegionCollector) :
    Handles P s region.id (some region) r := by
  obtain ⟨s', heq, hputs⟩ := hputs
  refine ⟨s', heq, h.put hputs hregion hclear hP, fun id => ?_⟩
  rw [hputs.regions, AssocMap.lookup_insert]

/-- A region is created or updated. -/
theorem upsert_inv : Handles P s region.id (some region)
    (if region.id ∈ s.regions then s.updateRegion region else s.createRegion region role) := by
  cases hlookup : s.regions.lookup region.id with
  | none =>
    rw [if_neg (AList.lookup_eq_none.mp hlookup)]
    exact .of_puts h hregion hclear hP
      (createRegion_puts h.mirror h.tiles hregion hclear hlookup role)
  | some old =>
    rw [if_pos (AList.lookup_isSome.mp (by rw [hlookup]; rfl))]
    exact .of_puts h hregion hclear hP (updateRegion_puts h.mirror h.tiles hregion hclear hlookup)

theorem handleRoleChange_inv :
    Handles P s region.id (some ((s.regions.lookup region.id).getD region))
      (s.handleRoleChange region role) := by
  rw [handleRoleChange]
  cases hlookup : s.regions.lookup region.id with
  | some old =>
    rw [if_pos (AList.lookup_isSome.mp (by rw [hlookup]; rfl))]
    exact ⟨_, rfl, h, lookup_eq_ite hlookup⟩
  | none =>
    rw [if_neg (AList.lookup_eq_none.mp hlookup)]
    let s' := { s with
      regionLeaders := update s.regionLeaders region.id (role = StateRole.leader) }
    exact Handles.of_puts (s := s') h hregion hclear hP
      (createRegion_puts (s := s') h.mirror h.tiles hregion hclear hlookup role)

omit hregion hclear hP in
theorem handleUpdateRegionBuckets_inv (buckets : ℕ) :
    Handles P s region.id (s.regions.lookup region.id)
      (s.handleUpdateRegionBuckets region buckets) := by
  rw [handleUpdateRegionBuckets]
  cases hlookup : s.regions.lookup region.id with
  | none => exact ⟨s, rfl, h, lookup_eq_ite hlookup⟩
  | some old =>
    dsimp only
    rw [if_neg (not_not.mpr (h.mirror.ids _ _ hlookup))]
    exact ⟨_, rfl, h, lookup_eq_ite hlookup⟩

omit hregion hclear hP in
/-- An event is handled: one whose region is outdated changes nothing, and any other one is
recorded, unless it is ignored. -/
theorem handleRaftstoreEvent_inv {event : RaftStoreEvent K}
    (hregion : event.region.range.Nonempty) (hP : P event.region)
    (hversion : s.VersionsDiffer event.region) :
    ∃ s', s.handleRaftstoreEvent event = .ok s' ∧ Inv P s'.toRegionCollector ∧
      (s.Outdated event.region → s' = s) ∧
      (ignores event = false → ¬ s.Outdated event.region → Recorded s event s') := by
  rw [handleRaftstoreEvent]
  cases hignore : ignores event with
  | true => exact ⟨s, rfl, h, fun _ => rfl, by simp⟩
  | false =>
    rcases checkRegionRange_spec h.mirror h.tiles hregion hversion with
      ⟨hout, hcheck⟩ | ⟨hnew, c, hcheck, hmirror, hlookup⟩
    · rw [hcheck]
      exact ⟨s, rfl, h, fun _ => rfl, fun _ hnot => absurd hout hnot⟩
    · rw [hcheck]
      have hinv : Inv P c := ⟨hmirror, h.tiles.of_lookup fun id r hr => ((hlookup id r).mp hr).1,
        fun id r hr => h.known id r ((hlookup id r).mp hr).1⟩
      have hclear : Clear c event.region := fun id r hr hid =>
        ((hlookup id r).mp hr).2.resolve_left hid
      have hown : c.regions.lookup event.region.id = s.regions.lookup event.region.id := by
        refine Option.ext fun r => (hlookup _ r).trans ?_
        exact and_iff_left (.inl rfl)
      have hdone : ∀ r : Except Panic (CollectorState K),
          Handles P { s with toRegionCollector := c } event.region.id
            (records event (c.regions.lookup event.region.id)) r →
          ∃ s', r = .ok s' ∧ Inv P s'.toRegionCollector ∧ (s.Outdated event.region → s' = s) ∧
            (false = false → ¬ s.Outdated event.region → Recorded s event s') := by
        rintro r ⟨s', heq, hinv', hlookup'⟩
        refine ⟨s', heq, hinv', fun hout => absurd hout hnew, fun _ _ => ⟨?_, fun id r hid => ?_⟩⟩
        · rw [hlookup', if_pos rfl, hown]
        · rw [hlookup', if_neg hid]
          exact (hlookup id r).trans (and_congr_right fun _ => or_iff_right hid)
      cases event with
      | createRegion region role | updateRegion region role =>
        exact hdone _ (upsert_inv (s := { s with toRegionCollector := c }) hinv hregion hclear hP
          role)
      | destroyRegion region =>
        exact hdone _ (handleDestroyRegion_inv (s := { s with toRegionCollector := c }) hinv)
      | roleChange region role initialized =>
        exact hdone _ (handleRoleChange_inv (s := { s with toRegionCollector := c }) hinv hregion
          hclear hP role)
      | updateRegionBuckets region buckets =>
        exact hdone _ (handleUpdateRegionBuckets_inv (s := { s with toRegionCollector := c }) hinv
          buckets)

end

/-! ### Enumeration -/

/-- What is taken from the front by a test that fails from some point on is all that passes it. -/
theorem mem_takeWhile_iff {α : Type*} {p : α → Bool} {l : List α}
    (h : l.Pairwise fun a b => p b = true → p a = true) (a : α) :
    a ∈ l.takeWhile p ↔ a ∈ l ∧ p a = true := by
  refine ⟨fun ha => ⟨(takeWhile_sublist p).subset ha, all_eq_true.mp all_takeWhile a ha⟩, ?_⟩
  rintro ⟨ha, hp⟩
  induction l with
  | nil => cases ha
  | cons b l ih =>
    obtain ⟨hb, hl⟩ := pairwise_cons.mp h
    rcases mem_cons.mp ha with rfl | ha
    · rw [takeWhile_cons_of_pos hp]
      exact mem_cons_self
    · rw [takeWhile_cons_of_pos (hb a ha hp)]
      exact mem_cons_of_mem _ (ih hl ha)

/-- One region is before the other one. -/
def Before (r r' : Region K) : Prop := r.encEndKey ≤ (r'.startKey : WithTop K)

variable {entries : List (WithTop K × ℕ)}

/-- The regions of entries in the order of their ranges are enumerated in key order. -/
theorem mapM_regionOf (hm : s.Mirror) (ht : s.Tiles) (hsub : entries.Sublist s.regionRanges) :
    ∃ rs, entries.mapM s.regionOf = .ok rs ∧ rs.Pairwise Before ∧
      ∀ r, r ∈ rs ↔ ∃ e ∈ entries, s.regions.lookup e.2 = some r := by
  have hfound : ∀ e ∈ entries, ∃ r, s.regions.lookup e.2 = some r ∧ r.encEndKey = e.1 :=
    fun e he => (hm.ranges e.1 e.2).mp (hsub.subset he)
  refine ⟨entries.filterMap fun e => s.regions.lookup e.2, ?_, ?_, fun r => mem_filterMap⟩
  · clear hsub
    induction entries with
    | nil => rfl
    | cons e entries ih =>
      obtain ⟨r, hr, -⟩ := hfound e mem_cons_self
      rw [mapM_cons, regionOf, filterMap_cons, hr, ok_bind,
        ih fun e he => hfound e (mem_cons_of_mem _ he)]
      rfl
  · refine pairwise_filterMap.mpr (((hm.ordered ht).sublist hsub).imp_of_mem ?_)
    intro e e' he _ hle r hr r' hr'
    obtain ⟨r₀, hr₀, hend⟩ := hfound e he
    obtain rfl := mem_unique hr hr₀
    exact hend.trans_le (hle r' hr')

omit [OrderBot K] in
/-- The loop up to an end key returns the first of the regions. -/
theorem regionsUpTo_eq {rs : List (Region K)} (h : entries.mapM s.regionOf = .ok rs)
    (endKey : WithTop K) :
    s.regionsUpTo endKey entries = .ok (rs.takeWhile fun r => !decide (endKey < r.startKey)) := by
  induction entries generalizing rs with
  | nil =>
    obtain rfl : [] = rs := Except.ok.inj h
    rfl
  | cons e entries ih =>
    rw [mapM_cons, bind_eq_ok] at h
    obtain ⟨r, hr, h⟩ := h
    obtain ⟨rs', hrs', h⟩ := bind_eq_ok.mp h
    obtain rfl : r :: rs' = rs := Except.ok.inj h
    rw [regionsUpTo, hr, ok_bind, takeWhile_cons]
    by_cases hlt : endKey < r.startKey
    · rw [if_pos hlt, decide_eq_true hlt]
      rfl
    · rw [if_neg hlt, decide_eq_false hlt, ih hrs']
      rfl

/-- The regions that end after a key are enumerated in key order. -/
theorem mapM_regionOf_after (hm : s.Mirror) (ht : s.Tiles) (fromKey : K) :
    ∃ rs, (s.regionRanges.filter fun e => (fromKey : WithTop K) < e.1).mapM s.regionOf = .ok rs ∧
      rs.Pairwise Before ∧
      ∀ r, r ∈ rs ↔ (∃ id, s.regions.lookup id = some r) ∧ (fromKey : WithTop K) < r.encEndKey := by
  obtain ⟨rs, hrs, hpairwise, hmem⟩ := mapM_regionOf hm ht
    (filter_sublist (p := fun e => (fromKey : WithTop K) < e.1))
  refine ⟨rs, hrs, hpairwise, fun r => (hmem r).trans ?_⟩
  constructor
  · rintro ⟨e, he, hr⟩
    obtain ⟨hmem, hlt⟩ := mem_filter.mp he
    obtain ⟨r', hr', hend⟩ := (hm.ranges e.1 e.2).mp hmem
    obtain rfl := mem_unique hr hr'
    exact ⟨⟨e.2, hr⟩, hend ▸ of_decide_eq_true hlt⟩
  · rintro ⟨⟨id, hr⟩, hlt⟩
    exact ⟨(r.encEndKey, id), mem_filter.mpr
      ⟨(hm.ranges _ _).mpr ⟨r, hr, rfl⟩, decide_eq_true hlt⟩, hr⟩

/-- The regions that end after the start key and do not start after the end key. -/
theorem handleGetRegionsInRange_spec (hm : s.Mirror) (ht : s.Tiles) (startKey endKey : K) :
    ∃ rs, s.handleGetRegionsInRange startKey endKey = .ok rs ∧ rs.Pairwise Before ∧
      ∀ r, r ∈ rs ↔ (∃ id, s.regions.lookup id = some r) ∧ (startKey : WithTop K) < r.encEndKey ∧
        (r.startKey : WithTop K) ≤ fromEndKey endKey := by
  obtain ⟨rs, hrs, hpairwise, hmem⟩ := mapM_regionOf_after hm ht startKey
  refine ⟨_, regionsUpTo_eq hrs (fromEndKey endKey),
    hpairwise.sublist (takeWhile_sublist _), fun r => ?_⟩
  rw [mem_takeWhile_iff, hmem, and_assoc]
  · simp
  · -- A region that starts after the end key is followed by such regions only.
    refine hpairwise.imp_of_mem fun {r r'} hr _ hbefore hle => ?_
    obtain ⟨⟨id, hlookup⟩, -⟩ := (hmem r).mp hr
    have hlt := (startKey_lt_encEndKey (ht.nonempty id r hlookup)).trans_le hbefore
    simp only [Bool.not_eq_true', decide_eq_false_iff_not, not_lt] at hle ⊢
    exact hlt.le.trans hle

/-! ### Histories -/

/-- The descriptor is that of a region of the history, with any conf version and peers: a change of
the peers alters nothing else. -/
def Described (first : Region K) (es : List (Command K)) (r : Region K) : Prop :=
  ∃ r₀, Cluster.Appeared first es r₀ ∧ r.id = r₀.id ∧ r.startKey = r₀.startKey ∧
    r.endKey = r₀.endKey ∧ r.regionEpoch.version = r₀.regionEpoch.version

variable {first r r' : Region K} {es : List (Command K)}

theorem Described.nonempty (hstart : first.startKey = ⊥) (hend : first.endKey = ⊥)
    (h : Described first es r) : r.range.Nonempty := by
  obtain ⟨r₀, happeared, -, hs, he, -⟩ := h
  rw [Region.range, Region.encEndKey, hs, he]
  exact happeared.nonempty hstart hend

theorem Described.version_ne (hstart : first.startKey = ⊥) (hend : first.endKey = ⊥)
    (h : Described first es r) (h' : Described first es r') (hid : r.id ≠ r'.id)
    (hoverlap : (r.range ∩ r'.range).Nonempty) :
    r.regionEpoch.version ≠ r'.regionEpoch.version := by
  obtain ⟨r₀, happeared, hid₀, hs, he, hv⟩ := h
  obtain ⟨r₀', happeared', hid₀', hs', he', hv'⟩ := h'
  rw [hv, hv']
  refine happeared.version_ne hstart hend happeared' (by rwa [← hid₀, ← hid₀']) ?_
  rw [Region.range, Region.encEndKey, ← hs, ← he, Region.range, Region.encEndKey, ← hs', ← he']
  exact hoverlap

/-- **The collector mirrors the regions.** After any events about regions of one history, none of
which fails an assertion, the entries by end key are exactly those of the collected regions, the
regions are disjoint, an event with an outdated region changes nothing and any other one that is not
ignored is recorded, and the regions that are asked for are enumerated in key order. -/
theorem collector_mirrors_regions (hstart : first.startKey = ⊥) (hend : first.endKey = ⊥)
    (es : List (Command K)) (events : List (RaftStoreEvent K))
    (hevents : ∀ event ∈ events, Described first es event.region) :
    ∃ s : CollectorState K, events.foldlM handleRaftstoreEvent new = .ok s ∧
      s.Mirror ∧ s.Tiles ∧
      (∀ event, Described first es event.region → s.Outdated event.region →
        s.handleRaftstoreEvent event = .ok s) ∧
      (∀ event, Described first es event.region → ignores event = false →
        ¬ s.Outdated event.region →
        ∃ s', s.handleRaftstoreEvent event = .ok s' ∧ Recorded s event s') ∧
      (∀ fromKey, ∃ rs, s.handleSeekRegion fromKey = .ok rs ∧ rs.Pairwise Before ∧
        ∀ r, r ∈ rs ↔
          (∃ id, s.regions.lookup id = some r) ∧ (fromKey : WithTop K) < r.encEndKey) ∧
      ∀ startKey endKey, ∃ rs, s.handleGetRegionsInRange startKey endKey = .ok rs ∧
        rs.Pairwise Before ∧ ∀ r, r ∈ rs ↔ (∃ id, s.regions.lookup id = some r) ∧
          (startKey : WithTop K) < r.encEndKey ∧
          (r.startKey : WithTop K) ≤ fromEndKey endKey := by
  have hversion : ∀ (s : CollectorState K) region, Inv (Described first es) s.toRegionCollector →
      Described first es region → s.VersionsDiffer region := by
    intro s region hinv hregion id r hr hid hoverlap
    refine hregion.version_ne hstart hend (hinv.known id r hr) ?_ hoverlap
    rw [hinv.mirror.ids id r hr]
    exact hid.symm
  have hnew : Inv (Described first es) (new : CollectorState K).toRegionCollector :=
    ⟨⟨nofun, fun key id => ⟨nofun, fun ⟨_, h, _⟩ => nomatch h⟩, .nil⟩, ⟨nofun, nofun⟩, nofun⟩
  obtain ⟨s, hrun, hinv⟩ := exists_foldlM_ok (l := events) (f := handleRaftstoreEvent)
    (I := fun _ (s : CollectorState K) => Inv (Described first es) s.toRegionCollector) hnew (by
      intro done event rest s heq hinv
      have hdescribed := hevents event (heq ▸ mem_append_right _ mem_cons_self)
      obtain ⟨s', hhandle, hinv', -⟩ := handleRaftstoreEvent_inv hinv
        (hdescribed.nonempty hstart hend) hdescribed (hversion s _ hinv hdescribed)
      exact ⟨s', hhandle, hinv'⟩)
  have hhandles := fun (event : RaftStoreEvent K) (hdescribed : Described first es event.region) =>
    handleRaftstoreEvent_inv hinv (hdescribed.nonempty hstart hend) hdescribed
      (hversion s _ hinv hdescribed)
  refine ⟨s, hrun, hinv.mirror, hinv.tiles, fun event hdescribed hout => ?_,
    fun event hdescribed hignore hnew => ?_, mapM_regionOf_after hinv.mirror hinv.tiles,
    handleGetRegionsInRange_spec hinv.mirror hinv.tiles⟩
  · obtain ⟨s', hhandle, -, hsame, -⟩ := hhandles event hdescribed
    rw [hhandle, hsame hout]
  · obtain ⟨s', hhandle, -, -, hrecorded⟩ := hhandles event hdescribed
    exact ⟨s', hhandle, hrecorded hignore hnew⟩

/-- The whole region after it was split and merged again. -/
def mergedRegion : Region ℕ :=
  { wholeRegion with regionEpoch := { confVer := 1, version := 4 } }

theorem described_wholeRegion :
    Described wholeRegion splitAndMerge wholeRegion :=
  ⟨_, ⟨[], _, _, rfl, .nil _, { region := wholeRegion, state := .normal },
    ⟨rfl, rfl⟩, rfl⟩, rfl, rfl, rfl, rfl⟩

theorem described_mergedRegion :
    Described wholeRegion splitAndMerge mergedRegion :=
  ⟨_, ⟨_, [], _, (append_nil _).symm, splitAndMerge_exec,
    { region := mergedRegion, state := .normal }, ⟨rfl, rfl⟩, rfl⟩, rfl, rfl, rfl, rfl⟩

/-- The merged region is told of before the region of the beginning, which is then outdated: the
merged region is held and found. -/
theorem collector_mirrors_regions_late :
    ∃ s : CollectorState ℕ,
      [.createRegion mergedRegion .leader, .updateRegion wholeRegion .follower].foldlM
        handleRaftstoreEvent new = .ok s ∧ s.Mirror ∧ s.Tiles ∧
      s.regions.lookup 1 = some mergedRegion ∧
      (∃ s', s.handleRaftstoreEvent (.destroyRegion mergedRegion) = .ok s' ∧
        s'.regions.lookup 1 = none) ∧
      ∃ rs, s.handleGetRegionsInRange 3 7 = .ok rs ∧ mergedRegion ∈ rs := by
  obtain ⟨s, hrun, hmirror, htiles, -, hrecorded, -, hrange⟩ := collector_mirrors_regions
    (show wholeRegion.startKey = ⊥ from rfl) rfl splitAndMerge
    [.createRegion mergedRegion .leader, .updateRegion wholeRegion .follower] (by
      intro event hevent
      rcases mem_cons.mp hevent with rfl | hevent
      · exact described_mergedRegion
      · obtain rfl := mem_singleton.mp hevent
        exact described_wholeRegion)
  have hrun' : [.createRegion mergedRegion .leader, .updateRegion wholeRegion .follower].foldlM
      handleRaftstoreEvent new = .ok _ := rfl
  cases hrun'.symm.trans hrun
  obtain ⟨s', hdestroyed, hrecorded⟩ := hrecorded (.destroyRegion mergedRegion)
    described_mergedRegion rfl (by
      rintro ⟨id, r, hr, -, hstale⟩
      obtain ⟨-, rfl⟩ | ⟨-, hr⟩ := AssocMap.of_lookup_insert hr
      · cases hstale
      · cases hr)
  obtain ⟨rs, hrs, -, hmem⟩ := hrange 3 7
  exact ⟨_, hrun, hmirror, htiles, rfl, ⟨s', hdestroyed, hrecorded.own⟩, rs, hrs,
    (hmem _).mpr ⟨⟨1, rfl⟩, WithTop.coe_lt_top 3, WithTop.coe_le_coe.mpr (Nat.zero_le 7)⟩⟩

end CollectorState

end Tikv.Raftstore
