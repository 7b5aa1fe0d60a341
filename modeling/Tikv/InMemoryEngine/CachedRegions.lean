import Tikv.Foundation.Execution
import Tikv.InMemoryEngine.RegionSteps

/-!
# The cached regions and the regions of the raftstore

`RegionStore` is the cache beside the regions of the store. A split and a merge of the raftstore are
told to the cache at once, as an event for the region that is split and as the eviction of the
target of the merge. A request to load a region may carry any descriptor that was current before.

The map of the cached regions is consistent in every run. A loaded region whose id is still in use
is the current one, so a split of it has a place for each new region. A pending region may be older,
with another range than the region that is split; then a new region can overlap it without lying in
it, which fails the assertion of `derive_from`.
-/

namespace Tikv.InMemoryEngine

open AssocMap RegionMetaMap RegionManager List

variable {K : Type} [LinearOrder K]

/-- The cache, the regions of the store, and all descriptors that were current so far. -/
structure RegionStore (K : Type) [LinearOrder K] where
  cache : Cache K
  current : List (CacheRegion K)
  history : List (CacheRegion K)
  deriving DecidableEq

/-- The steps of the raftstore and the calls that follow from none. -/
inductive StoreEvent (K : Type) [LinearOrder K]
  | split (source : CacheRegion K) (regions : List (CacheRegion K))
  | merge (source target merged : CacheRegion K) (onEvictFinished : Option ℕ)
  | loadRegion (region : CacheRegion K)
  | prepareForApply (region : CacheRegion K) (setInWritten inFlashback : Bool)
  | onSnapshotLoadFinished (region : CacheRegion K) (safePoint : ℕ)
  | onSnapshotLoadFailed (region : CacheRegion K) (started : Bool)
  | regionSnapshot (region : CacheRegion K) (readTs : ℕ)
  | removeRegionSnapshot (snapshot : SnapshotMeta K)
  | evictRegion (region : CacheRegion K) (reason : EvictReason) (onEvictFinished : Option ℕ)
  | onGcRegionFinished (region : CacheRegion K)
  | onDeleteRegions (regions : List (CacheRegion K))

/-- The call that the cache gets. -/
def StoreEvent.call : StoreEvent K → CacheEvent K
  | .split source regions => .splitRegion source regions
  | .merge _ target _ onEvictFinished => .evictRegion target .merge onEvictFinished
  | .loadRegion region => .loadRegion region
  | .prepareForApply region setInWritten inFlashback =>
    .prepareForApply region setInWritten inFlashback
  | .onSnapshotLoadFinished region safePoint => .onSnapshotLoadFinished region safePoint
  | .onSnapshotLoadFailed region started => .onSnapshotLoadFailed region started
  | .regionSnapshot region readTs => .regionSnapshot region readTs
  | .removeRegionSnapshot snapshot => .removeRegionSnapshot snapshot
  | .evictRegion region reason onEvictFinished => .evictRegion region reason onEvictFinished
  | .onGcRegionFinished region => .onGcRegionFinished region
  | .onDeleteRegions regions => .onDeleteRegions regions

namespace RegionStore

/-- A store whose regions are not cached. -/
def new (regions : List (CacheRegion K)) : RegionStore K where
  cache := .new
  current := regions
  history := regions

/-- The regions after an event. -/
def changeRegions (s : RegionStore K) : StoreEvent K → RegionStore K
  | .split source regions => { s with
      current := regions ++ s.current.erase source
      history := regions ++ s.history }
  | .merge source target merged _ => { s with
      current := merged :: (s.current.erase source).erase target
      history := merged :: s.history }
  | _ => s

/-- The store after an event. -/
def step (s : RegionStore K) (e : StoreEvent K) : Except ImePanic (RegionStore K) :=
  (s.cache.step e.call).map fun cache => { s.changeRegions e with cache }

/-- The events that can happen: a current region is split into newer ones, of which one may keep the
id and the others have new ids; two regions merge into a newer one; a region to load was current at
some time, and a region that applies is current. -/
def Allowed (s : RegionStore K) : StoreEvent K → Prop
  | .split source regions => source ∈ s.current ∧ IsSplit source regions ∧
      (regions.map (·.id)).Nodup ∧
      ∀ r ∈ regions, r.id = source.id ∨ ∀ d ∈ s.history, d.id ≠ r.id
  | .merge source target merged _ => source ∈ s.current ∧ target ∈ s.current ∧ source ≠ target ∧
      merged.id = target.id ∧ source.epochVersion < merged.epochVersion ∧
      target.epochVersion < merged.epochVersion ∧
      ∀ key, merged.ContainsKey key ↔ source.ContainsKey key ∨ target.ContainsKey key
  | .loadRegion region => region ∈ s.history
  | .prepareForApply region _ _ => region ∈ s.current
  | _ => True

/-- One event. -/
def Step (s : RegionStore K) (e : StoreEvent K) (s' : RegionStore K) : Prop :=
  s.Allowed e ∧ s.step e = .ok s'

/-- A split that finds an older region finds each new region within it or apart from it. -/
def Orderly (s : RegionStore K) : StoreEvent K → Prop
  | .split source regions => ∀ old,
      s.cache.manager.regionsMap.regions.lookup source.id = some old → old.state.isEvict = false →
      old.region.epochVersion ≠ source.epochVersion →
      ∀ r ∈ regions, old.region.Overlaps r → old.region.ContainsRange r
  | _ => True

/-- A region that is loaded or loading. -/
def InUse (self : CacheRegionMeta K) : Prop := self.state = .loading ∨ self.state = .active

/-- The invariant of the runs. -/
structure Inv (s : RegionStore K) : Prop where
  consistent : s.cache.manager.regionsMap.Consistent
  /-- cached regions were current -/
  known : ∀ {id self}, s.cache.manager.regionsMap.regions.lookup id = some self →
    self.region ∈ s.history
  subset : s.current ⊆ s.history
  nodup : (s.current.map (·.id)).Nodup
  /-- a current region is the newest with its id -/
  newest : ∀ d ∈ s.history, ∀ r ∈ s.current, d.id = r.id →
    d.epochVersion < r.epochVersion ∨ d = r
  /-- a region in use is current, or its id is not used any more -/
  inUse : ∀ {id self r}, s.cache.manager.regionsMap.regions.lookup id = some self → InUse self →
    r ∈ s.current → r.id = id → self.region = r

theorem inUse_of_follows {old self : CacheRegionMeta K} (h : old.state.Follows self.state)
    (huse : InUse self) : InUse old := by
  rcases h with heq | hevict | ⟨hloading, -⟩
  · rwa [InUse, heq] at huse
  · rcases huse with huse | huse <;> rw [huse] at hevict <;> cases hevict
  · exact .inl hloading

variable {s s' : RegionStore K} {e : StoreEvent K} {events : List (StoreEvent K)}
  {source : CacheRegion K} {regions : List (CacheRegion K)}

theorem inv_new (hids : (regions.map (·.id)).Nodup) : Inv (new regions) where
  consistent := consistent_new
  known := nofun
  subset := List.Subset.refl _
  nodup := hids
  newest := by
    intro d hd r hr hid
    exact .inr (inj_on_of_nodup_map hids hd hr hid)
  inUse := nofun

/-! ### Splits do not panic -/

section

variable (hinv : Inv s)
include hinv

/-- The new regions fit in the place of the region that was removed. -/
theorem Inv.exists_splitRemoved (hallowed : s.Allowed (.split source regions))
    {old : CacheRegionMeta K} {m₁ : RegionMetaMap K} {regions' : List (CacheRegion K)}
    (hold : s.cache.manager.regionsMap.regions.lookup source.id = some old) (h₁ : m₁.Consistent)
    (hlookup : ∀ l, m₁.regions.lookup l =
      if l = source.id then none else s.cache.manager.regionsMap.regions.lookup l)
    (hsub : regions'.Sublist regions) (hcontains : ∀ r ∈ regions', old.region.ContainsRange r) :
    ∃ rm', splitRemoved { s.cache.manager with regionsMap := m₁ } old regions' = .ok rm' := by
  obtain ⟨-, hsplit, hids, hfresh⟩ := hallowed
  have hrest : ∀ {l self}, m₁.regions.lookup l = some self → l ≠ source.id ∧
      s.cache.manager.regionsMap.regions.lookup l = some self := by
    intro l self hself
    rw [hlookup] at hself
    split_ifs at hself with hl
    exact ⟨hl, hself⟩
  have hfree : ∀ r ∈ regions', m₁.regions.lookup r.id = none := by
    intro r hr
    cases hself : m₁.regions.lookup r.id with
    | none => rfl
    | some self =>
      obtain ⟨hne, hself⟩ := hrest hself
      refine absurd (hinv.consistent.id_eq hself) ?_
      exact (hfresh r (hsub.subset hr)).resolve_left hne _ (hinv.known hself)
  have hdisjoint : ∀ r ∈ regions', ∀ {l self}, m₁.regions.lookup l = some self →
      ¬self.region.Overlaps r := by
    intro r hr l self hself hoverlap
    obtain ⟨hne, hself⟩ := hrest hself
    exact hne (hinv.consistent.disjoint hself hold (hoverlap.symm.mono (hcontains r hr)).symm)
  obtain ⟨m', hm'⟩ := exists_newRegions h₁ hcontains hfree hdisjoint (hids.sublist (hsub.map _))
    (hsplit.disjoint.sublist hsub)
  rw [splitRemoved, hm']
  exact ⟨_, rfl⟩

/-- **An orderly split does not panic.** -/
theorem Inv.exists_splitRegion (hallowed : s.Allowed (.split source regions))
    (horderly : s.Orderly (.split source regions)) :
    ∃ rm', s.cache.manager.splitRegion source regions = .ok rm' := by
  have hcurrent := hallowed.1
  unfold RegionManager.splitRegion
  cases hold : s.cache.manager.regionsMap.regions.lookup source.id with
  | none => exact ⟨_, rfl⟩
  | some old =>
    dsimp only
    by_cases hevict : old.state.isEvict = true
    · rw [if_pos hevict]
      exact ⟨_, rfl⟩
    obtain ⟨m₁, heq₁, h₁, hlookup⟩ := hinv.consistent.removeRegion hold
    have hnewest := hinv.newest _ (hinv.known hold) source hcurrent (hinv.consistent.id_eq hold)
    rw [if_neg hevict, heq₁]
    dsimp only
    by_cases hepoch : old.region.epochVersion = source.epochVersion
    · rw [if_pos hepoch]
      have hregion : old.region = source := hnewest.resolve_left fun hlt => absurd hepoch hlt.ne
      refine hinv.exists_splitRemoved hallowed hold h₁ hlookup (List.Sublist.refl _) fun r hr => ?_
      rw [hregion]
      exact hallowed.2.1.containsRange hr
    · have hlt : old.region.epochVersion < source.epochVersion :=
        hnewest.resolve_right fun heq => hepoch (heq ▸ rfl)
      -- A region in use would be the current one.
      have hpending : old.state = .pending := by
        by_contra hnot
        have huse : InUse old := by
          revert hevict hnot
          unfold InUse
          cases old.state <;> simp [RegionState.isEvict]
        exact hepoch (congrArg _ (hinv.inUse hold huse hcurrent rfl))
      rw [if_neg hepoch, if_neg (not_ne_iff.mpr hpending), if_neg (not_le.mpr hlt)]
      refine hinv.exists_splitRemoved hallowed hold h₁ hlookup filter_sublist fun r hr => ?_
      rw [mem_filter, decide_eq_true_eq] at hr
      exact horderly old hold (Bool.not_eq_true _ ▸ hevict) hepoch r hr.1 hr.2

/-! ### The invariant -/

variable {cache : Cache K}

theorem Inv.of_metaChange
    (hchange : MetaChange s.cache.manager.regionsMap cache.manager.regionsMap) :
    Inv { s with cache } := by
  refine ⟨hchange.consistent, fun {id self} hself => ?_, hinv.subset, hinv.nodup, hinv.newest,
    fun {id self r} hself huse hr hid => ?_⟩
  · obtain ⟨old, hold, hregion, -⟩ := hchange.origin hself
    exact hregion ▸ hinv.known hold
  · obtain ⟨old, hold, hregion, hstate, -⟩ := hchange.origin hself
    rw [hregion]
    exact hinv.inUse hold (inUse_of_follows hstate huse) hr hid

/-- A split of a region splits the cached one. -/
theorem Inv.split (hallowed : s.Allowed (.split source regions))
    (hchange : SplitChange source regions s.cache.manager cache.manager) :
    Inv { s.changeRegions (.split source regions) with cache } := by
  obtain ⟨hsource, hsplit, hids, hfresh⟩ := hallowed
  have hsource_id : ∀ {r}, r ∈ s.current.erase source → r.id ≠ source.id := by
    intro r hr heq
    have hcurrent := mem_of_mem_erase hr
    obtain rfl := inj_on_of_nodup_map hinv.nodup hcurrent hsource heq
    exact (hinv.nodup.of_map _).not_mem_erase hr
  -- An old descriptor and a new one share the id of the region that is split only.
  have hold_new : ∀ {d r}, d ∈ s.history → r ∈ regions → d.id = r.id → r.id = source.id :=
    fun hd hr hid => (hfresh _ hr).resolve_right fun hne => hne _ hd hid
  refine ⟨hchange.consistent, fun {id self} hself => ?_, ?_, ?_, ?_, ?_⟩
  · rcases hchange.origin hself with ⟨hself, -⟩ | ⟨old, r, hr, -, -, -, rfl⟩
    · exact mem_append_right _ (hinv.known hself)
    · exact mem_append_left _ hr
  · intro r hr
    rcases mem_append.mp hr with hr | hr
    · exact mem_append_left _ hr
    · exact mem_append_right _ (hinv.subset (mem_of_mem_erase hr))
  · change ((regions ++ s.current.erase source).map (·.id)).Nodup
    rw [map_append, nodup_append]
    refine ⟨hids, hinv.nodup.sublist (erase_sublist.map _), fun id hid id' hid' heq => ?_⟩
    obtain ⟨r, hr, rfl⟩ := mem_map.mp hid
    obtain ⟨r', hr', rfl⟩ := mem_map.mp hid'
    have hhistory := hinv.subset (mem_of_mem_erase hr')
    exact hsource_id hr' (heq.symm.trans (hold_new hhistory hr heq.symm))
  · intro d hd r hr hid
    rcases mem_append.mp hd with hd | hd <;> rcases mem_append.mp hr with hr | hr
    · exact .inr (inj_on_of_nodup_map hids hd hr hid)
    · have hhistory := hinv.subset (mem_of_mem_erase hr)
      exact absurd (hid.symm.trans (hold_new hhistory hd hid.symm)) (hsource_id hr)
    · have hid' := hid.trans (hold_new hd hr hid)
      refine .inl (lt_of_le_of_lt ?_ (hsplit.newer r hr))
      rcases hinv.newest d hd source hsource hid' with hlt | rfl
      · exact hlt.le
      · exact le_rfl
    · exact hinv.newest d hd r (mem_of_mem_erase hr) hid
  · intro id self r hself huse hr hid
    rcases hchange.origin hself with ⟨hself, hevict⟩ | ⟨old, r', hr', hid', -, -, rfl⟩
    · rcases mem_append.mp hr with hr | hr
      · -- Nothing has a new id, and what is left of the old id is evicted.
        subst hid
        have hid' := hold_new (hinv.known hself) hr (hinv.consistent.id_eq hself)
        have hevict := hevict hid'
        rcases huse with huse | huse <;> rw [huse] at hevict <;> cases hevict
      · exact hinv.inUse hself huse (mem_of_mem_erase hr) hid
    · change r' = r
      rcases mem_append.mp hr with hr | hr
      · exact inj_on_of_nodup_map hids hr' hr (hid'.trans hid.symm)
      · have hhistory := hinv.subset (mem_of_mem_erase hr)
        have heq : r.id = r'.id := hid.trans hid'.symm
        exact absurd (heq.trans (hold_new hhistory hr' heq)) (hsource_id hr)

/-- The raftstore merges two regions. -/
theorem Inv.merge {target merged : CacheRegion K} {cb : Option ℕ}
    (hallowed : s.Allowed (.merge source target merged cb))
    (hchange : MetaChange s.cache.manager.regionsMap cache.manager.regionsMap)
    (hevict : ∀ {self}, cache.manager.regionsMap.regions.lookup target.id = some self →
      self.region.epochVersion = target.epochVersion → self.state.isEvict = true) :
    Inv { s.changeRegions (.merge source target merged cb) with cache } := by
  obtain ⟨-, htarget, -, hid_merged, -, hepoch, -⟩ := hallowed
  have hinv' := hinv.of_metaChange hchange
  have hrest : ∀ {r}, r ∈ (s.current.erase source).erase target →
      r ∈ s.current ∧ r.id ≠ target.id := by
    intro r hr
    have hcurrent := mem_of_mem_erase (mem_of_mem_erase hr)
    refine ⟨hcurrent, fun heq => ?_⟩
    obtain rfl := inj_on_of_nodup_map hinv.nodup hcurrent htarget heq
    exact ((hinv.nodup.of_map _).erase _).not_mem_erase hr
  refine ⟨hinv'.consistent, fun hself => mem_cons_of_mem _ (hinv'.known hself), ?_, ?_, ?_, ?_⟩
  · exact forall_mem_cons.mpr
      ⟨mem_cons_self, fun r hr => mem_cons_of_mem _ (hinv.subset (hrest hr).1)⟩
  · refine nodup_cons.mpr ⟨fun hmem => ?_, ?_⟩
    · obtain ⟨r, hr, heq⟩ := mem_map.mp hmem
      exact (hrest hr).2 (heq.trans hid_merged)
    · exact hinv.nodup.sublist ((erase_sublist.trans erase_sublist).map _)
  · intro d hd r hr hid
    rcases mem_cons.mp hr with rfl | hr'
    · rcases mem_cons.mp hd with rfl | hd'
      · exact .inr rfl
      · refine .inl (lt_of_le_of_lt ?_ hepoch)
        rcases hinv.newest d hd' target htarget (hid.trans hid_merged) with hlt | rfl
        · exact hlt.le
        · exact le_rfl
    · rcases mem_cons.mp hd with rfl | hd'
      · exact absurd (hid.symm.trans hid_merged) (hrest hr').2
      · exact hinv.newest d hd' r (hrest hr').1 hid
  · intro id self r hself huse hr hid
    rcases mem_cons.mp hr with rfl | hr
    · -- A region of the target that was in use is evicted.
      obtain rfl : target.id = id := hid_merged.symm.trans hid
      have hregion := hinv'.inUse hself huse htarget rfl
      have hevict := hevict hself (congrArg _ hregion)
      rcases huse with huse | huse <;> rw [huse] at hevict <;> cases hevict
    · exact hinv'.inUse hself huse (hrest hr).1 hid

/-- A region is loaded. -/
theorem Inv.loadRegion {region : CacheRegion K} (hregion : region ∈ s.history)
    (hconsistent : cache.manager.regionsMap.Consistent)
    (horigin : ∀ {id self}, cache.manager.regionsMap.regions.lookup id = some self →
      s.cache.manager.regionsMap.regions.lookup id = some self ∨
        id = region.id ∧ self = .new region) :
    Inv { s with cache } := by
  refine ⟨hconsistent, fun {id self} hself => ?_, hinv.subset, hinv.nodup, hinv.newest,
    fun {id self r} hself huse hr hid => ?_⟩
  · rcases horigin hself with hself | ⟨-, rfl⟩
    · exact hinv.known hself
    · exact hregion
  · rcases horigin hself with hself | ⟨-, rfl⟩
    · exact hinv.inUse hself huse hr hid
    · exact huse.elim nofun nofun

/-- A current region applies: a pending region that starts to load is current. -/
theorem Inv.prepareForApply {region : CacheRegion K} (hregion : region ∈ s.current)
    (hchange : PendingChange region s.cache.manager.regionsMap cache.manager.regionsMap) :
    Inv { s with cache } := by
  refine ⟨hchange.consistent, fun {id self} hself => ?_, hinv.subset, hinv.nodup, hinv.newest,
    fun {id self r} hself huse hr hid => ?_⟩
  · obtain ⟨old, state, isWritten, rfl, ⟨hold, -⟩ | ⟨-, rfl, -⟩⟩ := hchange.origin hself
    · have hknown := hinv.known hold
      exact hknown
    · exact hinv.subset hregion
  · obtain ⟨old, state, isWritten, rfl, ⟨hold, rfl | ⟨-, rfl, rfl, hepoch⟩⟩ | ⟨rfl, rfl, -⟩⟩ :=
      hchange.origin hself
    · have hold_use : InUse old := huse
      have hregion := hinv.inUse hold hold_use hr hid
      exact hregion
    · obtain rfl := inj_on_of_nodup_map hinv.nodup hr hregion hid
      exact (hinv.newest _ (hinv.known hold) r hr (hinv.consistent.id_eq hold)).resolve_left
        (not_lt.mpr hepoch)
    · exact inj_on_of_nodup_map hinv.nodup hregion hr hid.symm

/-- **Every event keeps the invariant.** -/
theorem Inv.step (h : Step s e s') : Inv s' := by
  obtain ⟨hallowed, heq⟩ := h
  obtain ⟨cache, hcache, rfl⟩ := map_eq_ok.mp heq
  have hchange := Cache.change_of_step hinv.consistent hcache
  cases e with
  | split source regions =>
    obtain ⟨rm', hresult, rfl⟩ := map_eq_ok.mp hcache
    exact hinv.split hallowed (splitChange_splitRegion hinv.consistent hresult)
  | merge source target merged cb =>
    obtain ⟨⟨regions, rm'⟩, hresult, rfl⟩ := map_eq_ok.mp hcache
    obtain ⟨hkeeps, hevict⟩ := keeps_evictRegion hinv.consistent hresult
    exact hinv.merge hallowed hkeeps.metas hevict
  | loadRegion region =>
    obtain ⟨⟨result, m'⟩, hm', rfl⟩ := map_eq_ok.mp hcache
    obtain ⟨result', m₁, hm₁, hpending, horigin, -⟩ := hinv.consistent.loadRegion region
    obtain ⟨-, rfl⟩ := Prod.mk.inj (ok_unique hm₁ hm')
    exact hinv.loadRegion hallowed hpending.consistent horigin
  | prepareForApply region setInWritten inFlashback =>
    obtain ⟨⟨result, m'⟩, hm', rfl⟩ := map_eq_ok.mp hcache
    obtain ⟨result', m₁, hm₁, hpending⟩ :=
      hinv.consistent.prepareForApply region setInWritten inFlashback
    obtain ⟨-, rfl⟩ := Prod.mk.inj (ok_unique hm₁ hm')
    exact hinv.prepareForApply hallowed hpending
  | onSnapshotLoadFinished | onSnapshotLoadFailed | regionSnapshot | removeRegionSnapshot
  | evictRegion | onGcRegionFinished | onDeleteRegions =>
    exact hinv.of_metaChange (hchange.metaChange hinv.consistent (by nofun) (by nofun) (by nofun))

/-! ### Runs -/

/-- The map is consistent, and the methods that add regions do not panic, unless a split finds an
older region that a new one overlaps without lying in it. -/
structure Sound (s : RegionStore K) : Prop where
  consistent : s.cache.manager.regionsMap.Consistent
  loadRegion : ∀ region ∈ s.history, ∃ cache, s.cache.step (.loadRegion region) = .ok cache
  prepareForApply : ∀ region ∈ s.current, ∀ setInWritten inFlashback, ∃ cache,
    s.cache.step (.prepareForApply region setInWritten inFlashback) = .ok cache
  split : ∀ source regions, s.Allowed (.split source regions) →
    s.Orderly (.split source regions) →
    ∃ cache, s.cache.step (.splitRegion source regions) = .ok cache

/-- What the invariant says of a state that is reached. -/
theorem Inv.sound : s.Sound where
  consistent := hinv.consistent
  loadRegion := by
    intro region _
    obtain ⟨result, m', heq, -⟩ := hinv.consistent.loadRegion region
    exact ⟨_, by rw [Cache.step, heq]; rfl⟩
  prepareForApply := by
    intro region _ setInWritten inFlashback
    obtain ⟨result, m', heq, -⟩ := hinv.consistent.prepareForApply region setInWritten inFlashback
    exact ⟨_, by rw [Cache.step, heq]; rfl⟩
  split := by
    intro source regions hallowed horderly
    obtain ⟨rm', heq⟩ := hinv.exists_splitRegion hallowed horderly
    exact ⟨_, by rw [Cache.step, heq]; rfl⟩

end

/-- **The cached regions stay consistent**, in every run from regions with different ids. -/
theorem sound_of_exec (hids : (regions.map (·.id)).Nodup)
    (h : Exec Step (new regions) events s) : s.Sound :=
  (h.invariant (I := Inv) (fun _ _ _ hinv hstep => hinv.step hstep) (inv_new hids)).sound

/-! Two regions merge, and the old descriptor of the target is loaded. -/

private def target₁ : CacheRegion ℕ := ⟨1, 1, 0, 5, by decide⟩

private def source₁ : CacheRegion ℕ := ⟨2, 2, 5, 10, by decide⟩

private def merged₁ : CacheRegion ℕ := ⟨1, 3, 0, 10, target₁.startKey_lt.trans source₁.startKey_lt⟩

private def staleEvents : List (StoreEvent ℕ) :=
  [.merge source₁ target₁ merged₁ none, .loadRegion target₁]

private theorem merged_iff (key : ℕ) :
    merged₁.ContainsKey key ↔ source₁.ContainsKey key ∨ target₁.ContainsKey key := by
  simp only [CacheRegion.ContainsKey, merged₁, source₁, target₁]
  omega

private theorem isSplit_merged {k id : ℕ} (hk : 0 < k) (hk' : k < 10) :
    IsSplit merged₁ [⟨1, 4, 0, k, hk⟩, ⟨id, 4, k, 10, hk'⟩] := by
  refine ⟨by simp [merged₁], fun key => ?_, by simp [CacheRegion.Overlaps]⟩
  simp only [CacheRegion.ContainsKey, merged₁, mem_cons, not_mem_nil, or_false,
    exists_eq_or_imp, exists_eq_left]
  omega

private theorem allowed_merge :
    (new [target₁, source₁]).Allowed (.merge source₁ target₁ merged₁ none) :=
  ⟨by decide, by decide, by decide, by decide, by decide, by decide, merged_iff⟩

/-- The split at 3 finds the pending region `[0, 5)`: the new region `[3, 10)` overlaps it and does
not lie in it. -/
theorem splitRegion_eq_error_stale : ∃ s, Exec Step (new [target₁, source₁]) staleEvents s ∧
    s.Allowed (.split merged₁ [⟨1, 4, 0, 3, by decide⟩, ⟨3, 4, 3, 10, by decide⟩]) ∧
    s.cache.step (.splitRegion merged₁ [⟨1, 4, 0, 3, by decide⟩, ⟨3, 4, 3, 10, by decide⟩]) =
      .error .containsRange := by
  have hrun : Exec Step (new [target₁, source₁]) staleEvents _ :=
    .cons ⟨allowed_merge, Eq.refl (Except.ok _)⟩ <|
    .cons ⟨mem_cons_of_mem _ mem_cons_self, Eq.refl (Except.ok _)⟩ (.nil _)
  exact ⟨_, hrun, ⟨mem_cons_self, isSplit_merged _ _, by decide, by decide⟩, rfl⟩

/-- The split at 5 does not cut the pending region. -/
theorem sound_of_exec_stale : ∃ s, Exec Step (new [target₁, source₁]) staleEvents s ∧
    s.Allowed (.split merged₁ [⟨1, 4, 0, 5, by decide⟩, ⟨3, 4, 5, 10, by decide⟩]) ∧
    s.Orderly (.split merged₁ [⟨1, 4, 0, 5, by decide⟩, ⟨3, 4, 5, 10, by decide⟩]) ∧
    s.Sound := by
  have hrun : Exec Step (new [target₁, source₁]) staleEvents _ :=
    .cons ⟨allowed_merge, Eq.refl (Except.ok _)⟩ <|
    .cons ⟨mem_cons_of_mem _ mem_cons_self, Eq.refl (Except.ok _)⟩ (.nil _)
  have hnew : ∀ r ∈ [(⟨1, 4, 0, 5, by decide⟩ : CacheRegion ℕ), ⟨3, 4, 5, 10, by decide⟩],
      target₁.Overlaps r → target₁.ContainsRange r := by decide
  have horderly : ∀ old, some (CacheRegionMeta.new target₁) = some old →
      old.state.isEvict = false → old.region.epochVersion ≠ merged₁.epochVersion →
      ∀ r ∈ [(⟨1, 4, 0, 5, by decide⟩ : CacheRegion ℕ), ⟨3, 4, 5, 10, by decide⟩],
        old.region.Overlaps r → old.region.ContainsRange r := by
    rintro old hold - -
    obtain rfl := Option.some.inj hold
    exact hnew
  exact ⟨_, hrun, ⟨mem_cons_self, isSplit_merged _ _, by decide, by decide⟩, horderly,
    sound_of_exec (by decide) hrun⟩

end RegionStore

end Tikv.InMemoryEngine
