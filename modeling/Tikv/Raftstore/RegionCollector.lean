import Mathlib.Order.Nat
import Tikv.Raftstore.RegionVersion
import Tikv.TxnTypes

/-!
# The check of a region against the collected ones

`RegionCollector` keeps the latest known descriptor of each region of a store, and the regions
again by their end keys. Events arrive late, so before an event is handled the region in it is
compared with all collected regions that overlap it: either it is stale, or they are. The check
asserts that two overlapping regions never have the same version. For descriptors from one history
of the cluster this is so, because the version is a clock for each key.
-/

namespace Tikv.Raftstore

open List

open AssocMap (Map)
open VersionedPartition

universe u

variable {K : Type u} [LinearOrder K] [OrderBot K]

namespace Region

variable {r r' : Region K}

/-- Two regions have a key in common exactly when each starts before the other one ends. -/
theorem overlap_iff (hr : r.range.Nonempty) (hr' : r'.range.Nonempty) :
    (r.range ∩ r'.range).Nonempty ↔
      (r.startKey : WithTop K) < r'.encEndKey ∧ (r'.startKey : WithTop K) < r.encEndKey := by
  constructor
  · rintro ⟨x, ⟨hx, hlt⟩, hx', hlt'⟩
    exact ⟨(WithTop.coe_le_coe.mpr hx).trans_lt hlt', (WithTop.coe_le_coe.mpr hx').trans_lt hlt⟩
  · rintro ⟨h, h'⟩
    refine ⟨max r.startKey r'.startKey, ⟨le_max_left _ _, ?_⟩, le_max_right _ _, ?_⟩
    · rw [WithTop.coe_max]
      exact max_lt (startKey_lt_encEndKey hr) h'
    · rw [WithTop.coe_max]
      exact max_lt h (startKey_lt_encEndKey hr')

/-- Regions with the same end have a key in common. -/
theorem overlap_of_encEndKey_eq (hr : r.range.Nonempty) (hr' : r'.range.Nonempty)
    (h : r.encEndKey = r'.encEndKey) : (r.range ∩ r'.range).Nonempty :=
  (overlap_iff hr hr').mpr ⟨h ▸ startKey_lt_encEndKey hr, h ▸ startKey_lt_encEndKey hr'⟩

/-- Of two disjoint regions, the one that ends first is before the other one. -/
theorem encEndKey_le_startKey (hr : r.range.Nonempty) (hr' : r'.range.Nonempty)
    (h : ¬ (r.range ∩ r'.range).Nonempty) (hlt : r.encEndKey < r'.encEndKey) :
    r.encEndKey ≤ r'.startKey := by
  rw [overlap_iff hr hr', not_and, not_lt] at h
  exact h ((startKey_lt_encEndKey hr).trans hlt)

/-- The test with which the loop of the check stops. -/
theorem behind_iff : r.endKey ≠ ⊥ ∧ r.endKey ≤ r'.startKey ↔ r.encEndKey ≤ r'.startKey := by
  rw [encEndKey]
  split_ifs with hbot
  · simp [hbot]
  · rw [WithTop.coe_le_coe]
    exact and_iff_right hbot

end Region

/-- `RegionCollector`: the regions by id, and their ids by end key in ascending order. -/
structure RegionCollector (K : Type u) where
  regions : Map ℕ (Region K)
  regionRanges : List (WithTop K × ℕ)

namespace RegionCollector

/-- `is_region_epoch_stale`. -/
def isRegionEpochStale (regionToCheck current : Region K) : Bool :=
  let epoch := regionToCheck.regionEpoch
  let currentEpoch := current.regionEpoch
  epoch.version < currentEpoch.version ||
    (epoch.version == currentEpoch.version && epoch.confVer < currentEpoch.confVer)

/-- The loop of `check_region_range` over the regions that end after the start of `region`: `none`
if it is stale, or else the regions that are. -/
def staleRegionsInRange (regions : Map ℕ (Region K)) (region : Region K) :
    List (WithTop K × ℕ) → Except Panic (Option (List (WithTop K × ℕ)))
  | [] => .ok (some [])
  | (key, id) :: rest =>
    if id = region.id then staleRegionsInRange regions region rest
    else
      match regions.lookup id with
      | none => .error .assertion
      | some currentRegion =>
        if region.endKey ≠ ⊥ ∧ region.endKey ≤ currentRegion.startKey then .ok (some [])
        else if isRegionEpochStale region currentRegion then .ok none
        -- They are impossible to equal, or they cannot overlap.
        else if region.regionEpoch.version = currentRegion.regionEpoch.version then
          .error .assertion
        else
          match staleRegionsInRange regions region rest with
          | .ok (some stale) => .ok (some ((key, id) :: stale))
          | other => other

/-- The removal of the stale regions, each of which is unwrapped. -/
def removeRegions (c : RegionCollector K) :
    List (WithTop K × ℕ) → Except Panic (RegionCollector K)
  | [] => .ok c
  | (key, id) :: rest =>
    if id ∈ c.regions ∧ key ∈ c.regionRanges.map Prod.fst then
      removeRegions { regions := c.regions.erase id
                      regionRanges := c.regionRanges.filter (·.1 ≠ key) } rest
    else .error .assertion

/-- `check_region_range`. -/
def checkRegionRange (c : RegionCollector K) (region : Region K) (clearRegionsInRange : Bool) :
    Except Panic (Bool × RegionCollector K) :=
  if (c.regions.lookup region.id).any (isRegionEpochStale region) then .ok (false, c)
  else
    let after := c.regionRanges.filter fun (key, _) => (region.startKey : WithTop K) < key
    match staleRegionsInRange c.regions region after with
    | .error e => .error e
    | .ok none => .ok (false, c)
    | .ok (some stale) =>
      match c.removeRegions (if clearRegionsInRange then stale else []) with
      | .error e => .error e
      | .ok c => .ok (true, c)

/-- The two maps hold the same regions. -/
structure Consistent (c : RegionCollector K) : Prop where
  ids : ∀ id r, c.regions.lookup id = some r → r.id = id
  ranges : ∀ key id, (key, id) ∈ c.regionRanges →
    ∃ r, c.regions.lookup id = some r ∧ r.encEndKey = key
  sorted : (c.regionRanges.map Prod.fst).Pairwise (· < ·)

variable {c : RegionCollector K} {regions : Map ℕ (Region K)} {region : Region K}
  {entries stale : List (WithTop K × ℕ)}

/-- The regions to be removed are among the entries. -/
theorem sublist_of_staleRegionsInRange
    (h : staleRegionsInRange regions region entries = .ok (some stale)) :
    stale.Sublist entries := by
  induction entries generalizing stale with
  | nil =>
    obtain rfl : stale = [] := by simpa [staleRegionsInRange, eq_comm] using h
    exact List.Sublist.refl _
  | cons entry entries ih =>
    obtain ⟨key, id⟩ := entry
    unfold staleRegionsInRange at h
    split_ifs at h
    · exact (ih h).cons _
    · split at h
      · exact absurd h (by simp)
      · split_ifs at h
        · obtain rfl : stale = [] := by simpa [eq_comm] using h
          exact nil_sublist _
        · exact absurd h (by simp)
        · split at h
          · rename_i tail htail
            obtain rfl : (key, id) :: tail = stale := by simpa using h
            exact (ih htail).cons_cons _
          · rename_i hnot
            exact absurd h (hnot stale)

/-- No entry is removed twice, and the others stay. -/
theorem removeRegions_ok (hc : c.Consistent) (h : stale.Sublist c.regionRanges) :
    ∃ c', c.removeRegions stale = .ok c' ∧
      (∀ id, c'.regions.lookup id =
        if id ∈ stale.map Prod.snd then none else c.regions.lookup id) ∧
      c'.regionRanges = c.regionRanges.filter (·.1 ∉ stale.map Prod.fst) := by
  induction stale generalizing c with
  | nil => exact ⟨c, rfl, fun _ => rfl, (filter_eq_self.mpr fun _ _ => rfl).symm⟩
  | cons entry stale ih =>
    obtain ⟨key, id⟩ := entry
    have hmem : (key, id) ∈ c.regionRanges := h.subset mem_cons_self
    obtain ⟨r, hr, rfl⟩ := hc.ranges key id hmem
    have hid : id ∈ c.regions := by
      rw [← AList.lookup_isSome, hr]
      rfl
    rw [removeRegions, if_pos ⟨hid, mem_map_of_mem hmem⟩]
    have hkeys : ∀ e ∈ stale, e.1 ≠ r.encEndKey := by
      have hnodup := (hc.sorted.imp ne_of_lt).sublist (h.map Prod.fst)
      intro e he heq
      exact (nodup_cons.mp hnodup).1 (mem_map.mpr ⟨e, he, heq⟩)
    have hconsistent : Consistent { regions := c.regions.erase id
                                    regionRanges := c.regionRanges.filter
                                      (·.1 ≠ r.encEndKey) } := by
      constructor
      · intro id' r' hr'
        rw [AssocMap.lookup_erase] at hr'
        split_ifs at hr'
        exact hc.ids id' r' hr'
      · intro key' id' hmem'
        obtain ⟨hmem', hne⟩ := mem_filter.mp hmem'
        obtain ⟨r', hr', rfl⟩ := hc.ranges key' id' hmem'
        refine ⟨r', ?_, rfl⟩
        rw [AssocMap.lookup_erase, if_neg]
        · exact hr'
        · rintro rfl
          obtain rfl := Option.mem_unique hr hr'
          exact absurd rfl (of_decide_eq_true hne)
      · exact hc.sorted.sublist (filter_sublist.map _)
    have hsublist : stale.Sublist (c.regionRanges.filter (·.1 ≠ r.encEndKey)) := by
      have hfilter : stale.filter (·.1 ≠ r.encEndKey) = stale :=
        filter_eq_self.mpr fun e he => decide_eq_true (hkeys e he)
      rw [← hfilter]
      exact ((sublist_cons_self _ _).trans h).filter _
    obtain ⟨c', hc', hregions, hranges⟩ := ih hconsistent hsublist
    refine ⟨c', hc', fun id' => ?_, ?_⟩
    · rw [hregions, AssocMap.lookup_erase, map_cons]
      by_cases hid' : id' = id
      · rw [if_pos hid', ite_self, if_pos (hid' ▸ mem_cons_self)]
      · rw [if_neg hid']
        simp only [mem_cons, hid', false_or]
    · rw [hranges, filter_filter, map_cons]
      simp only [mem_cons, not_or, ← Bool.decide_and, and_comm]

/-- Regions that overlap have different versions: then the assertion holds, whatever the loop
visits. -/
theorem staleRegionsInRange_ok
    (hentries : ∀ key id, (key, id) ∈ entries → (region.startKey : WithTop K) < key ∧
      ∃ r, regions.lookup id = some r ∧ r.id = id ∧ r.encEndKey = key)
    (hregion : region.range.Nonempty)
    (hversion : ∀ r, regions.lookup r.id = some r → r.id ≠ region.id →
      r.range.Nonempty ∧ ((region.range ∩ r.range).Nonempty →
        region.regionEpoch.version ≠ r.regionEpoch.version)) :
    ∃ result, staleRegionsInRange regions region entries = .ok result := by
  induction entries with
  | nil => exact ⟨_, rfl⟩
  | cons entry entries ih =>
    obtain ⟨key, id⟩ := entry
    obtain ⟨result, hresult⟩ := ih fun key id hmem => hentries key id (mem_cons_of_mem _ hmem)
    obtain ⟨hkey, r, hr, hid, hend⟩ := hentries key id mem_cons_self
    unfold staleRegionsInRange
    simp only [hr, hresult]
    split_ifs with hsame hbreak hstale heq
    · exact ⟨_, rfl⟩
    · exact ⟨_, rfl⟩
    · exact ⟨_, rfl⟩
    · subst hid
      obtain ⟨hrange, hne⟩ := hversion r hr hsame
      rw [Region.behind_iff, not_le] at hbreak
      exact absurd heq (hne ((Region.overlap_iff hregion hrange).mpr ⟨hend ▸ hkey, hbreak⟩))
    · cases result with
      | none | some stale => exact ⟨_, rfl⟩

/-- The check returns if overlapping regions have different versions. -/
theorem checkRegionRange_ok (hc : c.Consistent) (hregion : region.range.Nonempty)
    (hversion : ∀ r, c.regions.lookup r.id = some r → r.id ≠ region.id →
      r.range.Nonempty ∧ ((region.range ∩ r.range).Nonempty →
        region.regionEpoch.version ≠ r.regionEpoch.version)) (clear : Bool) :
    ∃ result, c.checkRegionRange region clear = .ok result := by
  unfold checkRegionRange
  by_cases hsame : (c.regions.lookup region.id).any (isRegionEpochStale region)
  · exact ⟨_, if_pos hsame⟩
  · rw [if_neg hsame]
    set after := c.regionRanges.filter fun (key, _) => (region.startKey : WithTop K) < key
    have hentries : ∀ key id, (key, id) ∈ after → (region.startKey : WithTop K) < key ∧
        ∃ r, c.regions.lookup id = some r ∧ r.id = id ∧ r.encEndKey = key := by
      intro key id hmem
      obtain ⟨hmem, hkey⟩ := mem_filter.mp hmem
      obtain ⟨r, hr, hend⟩ := hc.ranges key id hmem
      exact ⟨of_decide_eq_true hkey, r, hr, hc.ids id r hr, hend⟩
    obtain ⟨result, hresult⟩ := staleRegionsInRange_ok hentries hregion hversion
    simp only [hresult]
    cases result with
    | none => exact ⟨_, rfl⟩
    | some stale =>
      have hstale : (if clear then stale else []).Sublist c.regionRanges := by
        split_ifs
        · exact (sublist_of_staleRegionsInRange hresult).trans filter_sublist
        · exact nil_sublist _
      obtain ⟨c', hc', -⟩ := removeRegions_ok hc hstale
      refine ⟨(true, c'), ?_⟩
      simp only [hc']

end RegionCollector

namespace Cluster

variable {first r r' : Region K} {es : List (Command K)} {c : Cluster K}

/-- The descriptor was that of a live region at some moment of the history. -/
def Appeared (first : Region K) (es : List (Command K)) (r : Region K) : Prop :=
  ∃ past future c, es = past ++ future ∧ Exec Step (initial first) past c ∧
    ∃ l ∈ c.live, l.region = r

theorem Step.unique {c c₁ c₂ : Cluster K} {e : Command K} (h₁ : c.Step e c₁)
    (h₂ : c.Step e c₂) : c₁ = c₂ := by
  obtain ⟨-, states₁, hok₁, rfl⟩ := h₁
  obtain ⟨-, states₂, hok₂, rfl⟩ := h₂
  obtain rfl : states₁ = states₂ := by simpa using hok₁.symm.trans hok₂
  rfl

section

variable (hstart : first.startKey = ⊥)
include hstart

theorem inv_of_exec (hend : first.endKey = ⊥) (hrun : Exec Step (initial first) es c) : c.Inv :=
  hrun.invariant (fun _ _ _ => Inv.step) (initial_inv hstart hend)

theorem Appeared.nonempty (hend : first.endKey = ⊥) (h : Appeared first es r) :
    r.range.Nonempty := by
  obtain ⟨past, future, c, -, hpast, l, hl, rfl⟩ := h
  exact (inv_of_exec hstart hend hpast).partition.nonempty l hl

/-- Overlapping descriptors of a history are equal or have different versions. -/
theorem Appeared.version_ne (hend : first.endKey = ⊥) (h : Appeared first es r)
    (h' : Appeared first es r') (hid : r.id ≠ r'.id) (hoverlap : (r.range ∩ r'.range).Nonempty) :
    r.regionEpoch.version ≠ r'.regionEpoch.version := by
  obtain ⟨past, future, c, rfl, hpast, l, hl, rfl⟩ := h
  obtain ⟨past', future', c', heq, hpast', l', hl', rfl⟩ := h'
  obtain ⟨x, hx, hx'⟩ := hoverlap
  have hdet : ∀ s e t t', Step (K := K) s e t → Step s e t' → t = t' := fun _ _ _ _ => Step.unique
  -- One of the two moments is not after the other one.
  rcases append_eq_append_iff.mp heq with ⟨between, rfl, -⟩ | ⟨between, rfl, -⟩
  · have hrun := hpast.of_append hdet hpast'
    rcases (inv_of_exec hstart hend hpast).version_lt hrun hl hl' hx hx' with rfl | hlt
    · exact absurd rfl hid
    · exact hlt.ne
  · have hrun := hpast'.of_append hdet hpast
    rcases (inv_of_exec hstart hend hpast').version_lt hrun hl' hl hx' hx with rfl | hlt
    · exact absurd rfl hid
    · exact hlt.ne'

end

/-- **The version of a region is a clock for its keys.** After any history that starts from one
region without bounds, the live regions partition the key space into ranges that are not empty; the
regions that hold a key have growing versions; so overlapping descriptors of different regions have
different versions, and the assertion of `check_region_range` holds for all of them. -/
theorem region_version_clock (first : Region K) (hstart : first.startKey = ⊥)
    (hend : first.endKey = ⊥) (es : List (Command K)) (c : Cluster K)
    (hrun : Exec Step (initial first) es c) :
    IsPartition RegionLocalState.range c.live ∧
    (∀ es' c', Exec Step c es' c' → ∀ l ∈ c.live, ∀ l' ∈ c'.live, ∀ x ∈ l.range, x ∈ l'.range →
      l.region = l'.region ∨ l.version < l'.version) ∧
    (∀ r r', Appeared first es r → Appeared first es r' → r.id ≠ r'.id →
      (r.range ∩ r'.range).Nonempty → r.regionEpoch.version ≠ r'.regionEpoch.version) ∧
    ∀ collector : RegionCollector K, collector.Consistent →
      (∀ id r, collector.regions.lookup id = some r → Appeared first es r) →
      ∀ region, Appeared first es region → ∀ clear,
        ∃ result, collector.checkRegionRange region clear = .ok result := by
  have hinv := inv_of_exec hstart hend hrun
  refine ⟨hinv.partition, ?_, ?_, ?_⟩
  · intro es' c' hrun' l hl l' hl' x hx hx'
    exact (hinv.version_lt hrun' hl hl' hx hx').imp_left (congrArg _)
  · intro r r' hr hr' hid hoverlap
    exact hr.version_ne hstart hend hr' hid hoverlap
  · intro collector hc hregions region hregion clear
    refine RegionCollector.checkRegionRange_ok hc (hregion.nonempty hstart hend) ?_ clear
    intro r hr hid
    have hr := hregions r.id r hr
    exact ⟨hr.nonempty hstart hend, hregion.version_ne hstart hend hr hid.symm⟩

/-- A region without bounds, over numbers as keys. -/
def wholeRegion : Region ℕ where
  id := 1
  startKey := 0
  endKey := 0
  regionEpoch := { confVer := 1, version := 1 }
  peers := [{ id := 2, storeId := 1 }]

/-- It is split at 5, and the right region takes over the left one. -/
def splitAndMerge : List (Command ℕ) :=
  [.batchSplit 1 1 { requests := [⟨5, 3, [4]⟩], rightDerive := true },
    .prepareMerge 3 1 7 wholeRegion 1,
    .commitMerge 1 { id := 3, startKey := 0, endKey := 5
                     regionEpoch := { confVer := 2, version := 3 }
                     peers := [{ id := 4, storeId := 1 }] }]

/-- The states in a history that the commands compute. -/
def run (c : Cluster ℕ) : List (Command ℕ) → Cluster ℕ
  | [] => c
  | e :: es =>
    match c.written e with
    | some (.ok states) => run (c.writePeerStates states) es
    | _ => c

theorem splitAndMerge_exec :
    Exec Step (initial wholeRegion) splitAndMerge (run (initial wholeRegion) splitAndMerge) := by
  refine .cons ⟨⟨by decide, ?_⟩, _, rfl, rfl⟩ (.cons ⟨trivial, _, rfl, rfl⟩
    (.cons ⟨?_, _, rfl, rfl⟩ (.nil _)))
  · intro req hreq
    obtain rfl := mem_singleton.mp hreq
    decide
  · intro region hregion
    obtain rfl := Option.some.inj hregion
    exact .inr rfl

theorem region_version_clock_splitAndMerge :
    IsPartition RegionLocalState.range (run (initial wholeRegion) splitAndMerge).live :=
  (region_version_clock wholeRegion rfl rfl splitAndMerge _ splitAndMerge_exec).1

end Cluster

end Tikv.Raftstore
