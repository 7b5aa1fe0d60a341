import Tikv.Foundation.Execution
import Tikv.InMemoryEngine.SnapshotInvariant

/-!
# Live snapshots pin the cached regions

Evictions, deletions and splits keep the invariant of the manager too. Where it holds, what overlaps
a snapshot that is alive is not deleted, and a region that waits for its eviction overlaps such a
snapshot (`Cache.Pinned`).
-/

namespace Tikv.InMemoryEngine

open AssocMap List Option RegionManager CacheRegion

variable {K : Type} [LinearOrder K] {D : Descriptors K} {live : Live K}

namespace RegionManager

variable {rm rm' : RegionManager K} {scheduled : List (CacheRegion K)} {id : ℕ}
  {old : CacheRegionMeta K}

/-! ### Evictions -/

theorem lookup_removed_iff {m m' : RegionMetaMap K}
    (hlookup : ∀ l, m'.regions.lookup l = if l = id then none else m.regions.lookup l) (l : ℕ)
    (self : CacheRegionMeta K) :
    m'.regions.lookup l = some self ↔ l ≠ id ∧ m.regions.lookup l = some self := by
  rw [hlookup]
  split_ifs with hl <;> simp [hl]

section

variable (hinv : Inv D rm live scheduled)
include hinv

/-- A region that no snapshot concerns is removed. -/
theorem Inv.removeRegion {m' : RegionMetaMap K}
    (hold : rm.regionsMap.regions.lookup id = some old) (hactive : old.state ≠ .active)
    (hpending : old.state ≠ .pendingEvict) (hconsistent : m'.Consistent)
    (hlookup : ∀ l, m'.regions.lookup l =
      if l = id then none else rm.regionsMap.regions.lookup l) :
    Inv D { rm with regionsMap := m' } live (scheduled.erase old.region) := by
  obtain ⟨hzero, hdisjoint⟩ := (hinv.metas hold).quiet hactive hpending
  have hsub := lookup_removed_iff hlookup
  refine ⟨hconsistent, fun hself => hinv.metas ((hsub _ _).mp hself).2, hinv.historical, ?_, ?_,
    hinv.nodup.erase _, ?_⟩
  · intro key h k hh hk
    obtain ⟨l, self, hself, hself_k⟩ := hinv.covered hh hk
    refine ⟨l, self, (hsub _ _).mpr ⟨?_, hself⟩, hself_k⟩
    rintro rfl
    obtain rfl := mem_unique hold hself
    exact hdisjoint hh (overlaps_iff_exists.mpr ⟨k, hk, hself_k⟩)
  · intro s hs
    refine (hinv.placed s hs).imp_left ?_
    rintro ⟨l, self, hself, heq⟩
    refine ⟨l, self, (hsub _ _).mpr ⟨?_, hself⟩, heq⟩
    rintro rfl
    obtain rfl := mem_unique hold hself
    have hcount := hzero s.snapshotTs
    rw [(hinv.metas hold).counted, heq, List.count_eq_zero] at hcount
    exact hcount hs
  · intro r
    rw [hinv.nodup.mem_erase_iff, hinv.scheduled_iff]
    constructor
    · rintro ⟨hne, l, self, hself, rfl, hstate⟩
      refine ⟨l, self, (hsub _ _).mpr ⟨?_, hself⟩, rfl, hstate⟩
      rintro rfl
      exact hne (congrArg _ (mem_unique hself hold))
    · rintro ⟨l, self, hself, rfl, hstate⟩
      obtain ⟨hne, hself⟩ := (hsub _ _).mp hself
      exact ⟨fun heq => hne (hinv.eq_of_region_eq hself hold heq), l, self, hself, rfl, hstate⟩

variable {evictRegion : CacheRegion K}

/-- `do_evict_region`. -/
theorem Inv.doEvictRegion {reason : EvictReason} {cb : Option ℕ} {region : Option (CacheRegion K)}
    (heq : rm.doEvictRegion id evictRegion reason cb = .ok (region, rm')) :
    Inv D rm' live (region.toList ++ scheduled) := by
  unfold RegionManager.doEvictRegion at heq
  cases hold : rm.regionsMap.regions.lookup id with
  | none => rw [hold] at heq; cases heq
  | some old =>
    have hmeta := hinv.metas hold
    have hkey : ∀ {key h}, rm.historicalRegions.lookup key = some h →
        key = h.region.historicalKey := fun hh => (hinv.historical hh).key_eq
    rw [hold] at heq
    dsimp only at heq
    split_ifs at heq
    cases hstate : old.state with rw [hstate] at heq
    | pending =>
      obtain ⟨⟨_, m'⟩, hm', ⟨⟩⟩ := map_eq_ok.mp heq
      obtain ⟨m₁, heq₁, h₁, hlookup⟩ := hinv.consistent.removeRegion hold
      obtain ⟨-, rfl⟩ := Prod.mk.inj (ok_unique heq₁ hm')
      have hnot := hinv.region_not_mem_scheduled hold (by rw [hstate]; nofun)
      have hinv' := hinv.removeRegion hold (by rw [hstate]; nofun)
        (by rw [hstate]; nofun) h₁ hlookup
      rwa [erase_of_not_mem hnot] at hinv'
    | loading =>
      obtain ⟨self, hself, ⟨⟩⟩ := map_eq_ok.mp heq
      obtain rfl := setState_eq_ok hself
      have hquiet := hmeta.quiet (by rw [hstate]; nofun) (by rw [hstate]; nofun)
      have hself' : MetaInv D rm.historicalRegions live { old with state := .loadingCanceled } :=
        ⟨hmeta.known, hmeta.counted, hmeta.newer, fun _ _ => hquiet, nofun, by simp⟩
      exact hinv.setMeta hold hself' rfl (fun _ _ => rfl) (by rw [hstate]; nofun)
    | active =>
      dsimp only at heq
      split at heq
      · cases heq
      rename_i self hself
      obtain rfl := markEvict_eq_ok hself
      split_ifs at heq with hready
      · obtain ⟨self, hself, ⟨⟩⟩ := map_eq_ok.mp heq
        obtain rfl := setState_eq_ok hself
        obtain ⟨-, hzero, hdisjoint⟩ := (regionReadyToEvict_iff hkey).mp hready
        have hself' : MetaInv D rm.historicalRegions live
            { old with state := .evicting, evictInfo := some ⟨reason, cb⟩ } :=
          ⟨hmeta.known, hmeta.counted, hmeta.newer, fun _ _ => ⟨hzero, hdisjoint⟩, nofun,
            fun _ => rfl⟩
        exact hinv.setMeta hold hself' rfl (fun _ _ => rfl) (by rw [hstate]; nofun)
      · obtain ⟨rfl, rfl⟩ := ok_mk_inj heq
        have hself' : MetaInv D rm.historicalRegions live
            { old with state := .pendingEvict, evictInfo := some ⟨reason, cb⟩ } :=
          ⟨hmeta.known, hmeta.counted, hmeta.newer, fun _ hnot => absurd rfl hnot,
            fun _ => pinned_of_not_ready hkey rfl hready, fun _ => rfl⟩
        exact hinv.setMeta hold hself' rfl (fun _ _ => rfl) (by rw [hstate]; nofun)
    | loadingCanceled | pendingEvict | evicting =>
      obtain ⟨rfl, rfl⟩ := ok_mk_inj heq
      exact hinv

variable {regions : List (CacheRegion K)}

/-- `evict_region`. -/
theorem Inv.evictRegions {reason : EvictReason} {cb : Option ℕ} {ids : List ℕ}
    (heq : rm.evictRegions evictRegion reason cb ids = .ok (regions, rm')) :
    Inv D rm' live (regions ++ scheduled) := by
  induction ids generalizing rm regions scheduled with
  | nil =>
    obtain ⟨rfl, rfl⟩ := ok_mk_inj heq
    exact hinv
  | cons id ids ih =>
    rw [evictRegions] at heq
    split at heq
    · cases heq
    · rename_i region rm₁ heq₁
      obtain ⟨⟨regions', rm₂⟩, heq₂, ⟨⟩⟩ := map_eq_ok.mp heq
      refine (ih (hinv.doEvictRegion heq₁) heq₂).perm ?_
      rw [← append_assoc]
      exact perm_append_comm.append_right _

/-- **`on_delete_regions` of scheduled regions does not panic.** -/
theorem Inv.onDeleteRegions (hregions : regions.Subperm scheduled) :
    ∃ cbs rm', rm.onDeleteRegions regions = .ok (cbs, rm') ∧
      Inv D rm' live (scheduled.diff regions) := by
  induction regions generalizing rm scheduled with
  | nil => exact ⟨[], rm, rfl, hinv⟩
  | cons r regions ih =>
    obtain ⟨id, old, hold, rfl, hstate⟩ :=
      (hinv.scheduled_iff r).mp (hregions.subset mem_cons_self)
    have hid := hinv.consistent.id_eq hold
    obtain ⟨m', heq, h', hlookup⟩ := hinv.consistent.removeRegion hold
    have hinv' := hinv.removeRegion hold (by rw [hstate]; nofun) (by rw [hstate]; nofun) h' hlookup
    have hrest : regions.Subperm (scheduled.erase old.region) := by
      have herase := hregions.erase old.region
      rwa [erase_cons_head] at herase
    obtain ⟨cbs, rm', heq', hinv''⟩ := ih hinv' hrest
    obtain ⟨info, hinfo⟩ := isSome_iff_exists.mp ((hinv.metas hold).evictInfo (.inr hstate))
    refine ⟨info.onEvictFinished.toList ++ cbs, rm', ?_, by rw [diff_cons]; exact hinv''⟩
    unfold onDeleteRegions
    rw [hid, heq]
    dsimp only
    rw [if_neg (not_ne_iff.mpr rfl), hinfo]
    rw [heq']
    rfl

/-! ### Splits -/

omit hinv in
theorem historicalKey_inj {r s : CacheRegion K} (h : r.historicalKey = s.historicalKey) :
    r.endKey = s.endKey ∧ r.epochVersion = s.epochVersion := by
  have hpair := Prod.mk.inj (toLex.injective h)
  exact ⟨hpair.1, WithTop.coe_injective hpair.2⟩

/-- The historical regions after the split of a region. -/
theorem Inv.lookup_historical_split (hold : rm.regionsMap.regions.lookup id = some old)
    (key : KeyAndVersion K) (h : CacheRegionMeta K) :
    (if old.regionSnapshotList.isEmpty then rm.historicalRegions
      else rm.historicalRegions.insert old.region.historicalKey old).lookup key = some h ↔
      rm.historicalRegions.lookup key = some h ∨
        key = old.region.historicalKey ∧ h = old ∧ ∃ ts, 0 < old.regionSnapshotList.count ts := by
  -- The key is new: a historical region with it would be older than itself.
  have hfree : rm.historicalRegions.lookup old.region.historicalKey ≠ some h := by
    intro hh
    obtain ⟨hend, hepoch⟩ := historicalKey_inj (hinv.historical hh).key_eq
    have hlt := (hinv.metas hold).newer hh (overlaps_of_endKey_eq hend.symm)
    exact absurd hepoch hlt.ne'
  split_ifs with hempty
  · have hzero := SnapshotList.isEmpty_iff.mp hempty
    refine (or_iff_left ?_).symm
    rintro ⟨-, -, ts, hts⟩
    exact hts.ne' (hzero ts)
  · have hpos := SnapshotList.exists_pos_count hempty
    rw [OrderedMap.lookup_insert]
    split_ifs with hkey
    · subst hkey
      simp only [hfree, false_or, true_and, hpos, and_true, some.injEq, eq_comm]
    · simp only [hkey, false_and, or_false]

/-- **A region is split.** Its snapshots are those of a historical region from now on. -/
theorem Inv.splitRemoved {m₁ : RegionMetaMap K}
    (hold : rm.regionsMap.regions.lookup id = some old) (hevict : old.state.isEvict = false)
    (h₁ : m₁.Consistent)
    (hlookup : ∀ l, m₁.regions.lookup l = if l = id then none else rm.regionsMap.regions.lookup l)
    (hknown : ∀ r ∈ regions, r ∈ D.regions)
    (hepoch : old.state ≠ .pending → ∀ r ∈ regions, old.region.epochVersion < r.epochVersion)
    (hcover : old.state ≠ .pending → ∀ k, old.region.ContainsKey k → ∃ r ∈ regions, r.ContainsKey k)
    (heq : splitRemoved { rm with regionsMap := m₁ } old regions = .ok rm') :
    Inv D rm' live scheduled := by
  obtain ⟨m', hm', rfl⟩ := map_eq_ok.mp heq
  obtain ⟨h', hiff, hregions⟩ := of_newRegions h₁ hm'
  have hmeta := hinv.metas hold
  have hhist := hinv.lookup_historical_split hold
  have hrest := lookup_removed_iff hlookup
  have hdisjoint : ∀ {l self}, m₁.regions.lookup l = some self →
      ¬old.region.Overlaps self.region := by
    intro l self hself hoverlap
    obtain ⟨hne, hself⟩ := (hrest _ _).mp hself
    exact hne (hinv.consistent.disjoint hself hold hoverlap.symm)
  have hpending : old.state = .pending → (∀ ts, old.regionSnapshotList.count ts = 0) ∧
      ∀ {key h}, rm.historicalRegions.lookup key = some h → ¬h.region.Overlaps old.region :=
    fun hstate => hmeta.quiet (by rw [hstate]; nofun) (by rw [hstate]; nofun)
  have hpos_state : (∃ ts, 0 < old.regionSnapshotList.count ts) → old.state ≠ .pending := by
    rintro ⟨ts, hts⟩ hstate
    exact hts.ne' ((hpending hstate).1 ts)
  -- What overlaps a new region is older than it.
  have holder : ∀ {key h r}, rm.historicalRegions.lookup key = some h → r ∈ regions →
      h.region.Overlaps r → h.region.epochVersion < r.epochVersion := by
    intro key h r hh hr hoverlap
    have hoverlap' : h.region.Overlaps old.region :=
      (hoverlap.symm.mono (hregions r hr).1).symm
    have hstate : old.state ≠ .pending := fun hstate => (hpending hstate).2 hh hoverlap'
    exact (hmeta.newer hh hoverlap').trans (hepoch hstate r hr)
  have hnew : ∀ r ∈ regions, ∀ ts, live.count ⟨r, ts⟩ = 0 := by
    intro r hr ts
    rw [List.count_eq_zero]
    intro hs
    rcases hinv.placed _ hs with ⟨l, self, hself, rfl⟩ | ⟨key, h, hh, rfl⟩
    · by_cases hl : l = id
      · subst hl
        obtain rfl := mem_unique hold hself
        refine absurd (count_pos_iff.mpr hs) ?_
        rw [← hmeta.counted]
        intro hts
        exact lt_irrefl _ (hepoch (hpos_state ⟨ts, hts⟩) _ hr)
      · exact (hregions _ hr).2.2 ((hrest _ _).mpr ⟨hl, hself⟩) self.region.overlaps_self
    · exact lt_irrefl _ (holder hh hr h.region.overlaps_self)
  refine ⟨h', ?_, ?_, ?_, ?_, hinv.nodup, ?_⟩
  · intro l self hself
    rcases hiff.mp hself with hself | ⟨r, hr, -, rfl⟩
    · have hdisjoint_self := hdisjoint hself
      have hself := hinv.metas ((hrest _ _).mp hself).2
      refine hself.of_historical (fun {key h} hh hoverlap => ?_) fun hpend => ?_
      · rcases (hhist _ _).mp hh with hh | ⟨-, rfl, -⟩
        · exact ⟨h, hh, rfl⟩
        · exact absurd hoverlap hdisjoint_self
      · refine (hself.pinned hpend).imp_right ?_
        rintro ⟨key, h, hh, hoverlap⟩
        exact ⟨key, h, (hhist _ _).mpr (.inl hh), hoverlap⟩
    · have hstate : ∀ {state}, state.isEvict = true → old.state ≠ state := by
        rintro state hstate rfl
        exact nomatch hevict.symm.trans hstate
      refine ⟨hknown r hr, fun ts => (hnew r hr ts).symm, fun {key h} hh hoverlap => ?_,
        fun hactive hpend => ⟨fun _ => rfl, fun {key h} hh hoverlap => ?_⟩,
        fun hpend => absurd hpend (hstate rfl), ?_⟩
      · rcases (hhist _ _).mp hh with hh | ⟨-, rfl, hpos⟩
        · exact holder hh hr hoverlap
        · exact hepoch (hpos_state hpos) r hr
      · obtain ⟨hzero, hnone⟩ := hmeta.quiet hactive hpend
        rcases (hhist _ _).mp hh with hh | ⟨-, rfl, ts, hts⟩
        · exact hnone hh (hoverlap.symm.mono (hregions r hr).1).symm
        · exact hts.ne' (hzero ts)
      · rintro (hpend | hpend)
        · exact absurd hpend (hstate rfl)
        · exact absurd hpend (hstate rfl)
  · intro key h hh
    rcases (hhist _ _).mp hh with hh | ⟨rfl, rfl, hpos⟩
    · exact hinv.historical hh
    · exact ⟨hmeta.known, rfl, hmeta.counted, hpos⟩
  · intro key h k hh hk
    have hnewcover : old.state ≠ .pending → old.region.ContainsKey k →
        ∃ l self, m'.regions.lookup l = some self ∧ self.region.ContainsKey k := by
      intro hstate hk
      obtain ⟨r, hr, hr_k⟩ := hcover hstate k hk
      exact ⟨r.id, _, hiff.mpr (.inr ⟨r, hr, rfl, rfl⟩), hr_k⟩
    rcases (hhist _ _).mp hh with hh | ⟨-, rfl, hpos⟩
    · obtain ⟨l, self, hself, hself_k⟩ := hinv.covered hh hk
      by_cases hl : l = id
      · subst hl
        obtain rfl := mem_unique hold hself
        refine hnewcover (fun hstate => (hpending hstate).2 hh ?_) hself_k
        exact overlaps_iff_exists.mpr ⟨k, hk, hself_k⟩
      · exact ⟨l, self, hiff.mpr (.inl ((hrest _ _).mpr ⟨hl, hself⟩)), hself_k⟩
    · exact hnewcover (hpos_state hpos) hk
  · intro s hs
    rcases hinv.placed s hs with ⟨l, self, hself, heq⟩ | ⟨key, h, hh, heq⟩
    · by_cases hl : l = id
      · subst hl
        obtain rfl := mem_unique hold hself
        refine .inr ⟨_, old, (hhist _ _).mpr
          (.inr ⟨rfl, rfl, s.snapshotTs, ?_⟩), heq⟩
        rw [hmeta.counted, heq]
        exact count_pos_iff.mpr hs
      · exact .inl ⟨l, self, hiff.mpr (.inl ((hrest _ _).mpr ⟨hl, hself⟩)), heq⟩
    · exact .inr ⟨key, h, (hhist _ _).mpr (.inl hh), heq⟩
  · intro r
    rw [hinv.scheduled_iff]
    constructor
    · rintro ⟨l, self, hself, rfl, hevicting⟩
      refine ⟨l, self, hiff.mpr (.inl ((hrest _ _).mpr ⟨?_, hself⟩)), rfl, hevicting⟩
      rintro rfl
      obtain rfl := mem_unique hold hself
      rw [hevicting] at hevict
      cases hevict
    · rintro ⟨l, self, hself, rfl, hevicting⟩
      rcases hiff.mp hself with hself | ⟨r, hr, -, rfl⟩
      · exact ⟨l, self, ((hrest _ _).mp hself).2, rfl, hevicting⟩
      · change old.state = _ at hevicting
        rw [hevicting] at hevict
        cases hevict

/-- `split_region`. -/
theorem Inv.splitRegion {source : CacheRegion K} (hsource : source ∈ D.regions)
    (hknown : ∀ r ∈ regions, r ∈ D.regions) (hsplit : IsSplit source regions)
    (heq : rm.splitRegion source regions = .ok rm') :
    Inv D rm' live scheduled := by
  unfold RegionManager.splitRegion at heq
  cases hold : rm.regionsMap.regions.lookup source.id with rw [hold] at heq
  | none => exact Except.ok.inj heq ▸ hinv
  | some old =>
    obtain ⟨m₁, heq₁, h₁, hlookup⟩ := hinv.consistent.removeRegion hold
    rw [heq₁] at heq
    dsimp only at heq
    split_ifs at heq with hevict hepoch hstate hnewer
    · exact Except.ok.inj heq ▸ hinv
    · obtain rfl : old.region = source := D.eq_of_epochVersion (hinv.metas hold).known hsource
        (hinv.consistent.id_eq hold) hepoch
      exact hinv.splitRemoved hold (Bool.not_eq_true _ ▸ hevict) h₁ hlookup hknown
        (fun _ => hsplit.newer) (fun _ k hk => (hsplit.covers k).mp hk) heq
    · -- A pending region that is older than the split one: nothing of it is in use.
      rw [not_ne_iff] at hstate
      refine hinv.splitRemoved hold (Bool.not_eq_true _ ▸ hevict) h₁ hlookup ?_
        (absurd hstate) (absurd hstate) heq
      exact fun r hr => hknown r (mem_filter.mp hr).1

end

end RegionManager

/-! ### Runs -/

/-- The calls that the rest of the store makes: regions are descriptors of the raftstore, snapshots
are dropped when they are alive, and regions are deleted when they are scheduled. -/
def CacheEvent.Allowed (D : Descriptors K) (c : Cache K) : CacheEvent K → Prop
  | .loadRegion region | .prepareForApply region _ _ | .regionSnapshot region _ =>
    region ∈ D.regions
  | .removeRegionSnapshot snapshot => snapshot ∈ c.live
  | .splitRegion source regions => source ∈ D.regions ∧ (∀ r ∈ regions, r ∈ D.regions) ∧
      RegionManager.IsSplit source regions
  | .onDeleteRegions regions => regions.Subperm c.scheduled
  | .onSnapshotLoadFinished _ _ | .onSnapshotLoadFailed _ _ | .evictRegion _ _ _
  | .onGcRegionFinished _ => True

namespace Cache

variable {c c' : Cache K} {e : CacheEvent K}

/-- One call. -/
def Step (D : Descriptors K) (c : Cache K) (e : CacheEvent K) (c' : Cache K) : Prop :=
  e.Allowed D c ∧ c.step e = .ok c'

/-- **Every call keeps the invariant.** -/
theorem Step.inv (h : Step D c e c') (hinv : c.manager.Inv D c.live c.scheduled) :
    c'.manager.Inv D c'.live c'.scheduled := by
  obtain ⟨hallowed, heq⟩ := h
  cases e with
  | loadRegion region =>
    obtain ⟨⟨result, m'⟩, hm', rfl⟩ := map_eq_ok.mp heq
    obtain ⟨result', m₁, hm₁, hchange, -⟩ := hinv.consistent.loadRegion region
    obtain ⟨-, rfl⟩ := Prod.mk.inj (ok_unique hm₁ hm')
    exact hinv.pendingChange hallowed hchange
  | prepareForApply region setInWritten inFlashback =>
    obtain ⟨⟨result, m'⟩, hm', rfl⟩ := map_eq_ok.mp heq
    obtain ⟨result', m₁, hm₁, hchange⟩ :=
      hinv.consistent.prepareForApply region setInWritten inFlashback
    obtain ⟨-, rfl⟩ := Prod.mk.inj (ok_unique hm₁ hm')
    exact hinv.pendingChange hallowed hchange
  | onSnapshotLoadFinished region safePoint =>
    obtain ⟨result, hresult, rfl⟩ := map_eq_ok.mp heq
    exact hinv.onLoadEnd loadEnd_of_loadFinished hresult
  | onSnapshotLoadFailed region started =>
    obtain ⟨result, hresult, rfl⟩ := map_eq_ok.mp heq
    exact hinv.onLoadEnd loadEnd_of_loadFailed hresult
  | regionSnapshot region readTs =>
    rw [Cache.step] at heq
    split at heq
    · exact Except.ok.inj heq ▸ hinv
    · rename_i manager hmanager
      obtain rfl := Except.ok.inj heq
      exact hinv.regionSnapshot hallowed hmanager
  | removeRegionSnapshot snapshot =>
    obtain ⟨result, hresult, rfl⟩ := map_eq_ok.mp heq
    obtain ⟨regions, rm', heq', hinv'⟩ := hinv.removeRegionSnapshot hallowed
    obtain rfl := ok_unique heq' hresult
    exact hinv'
  | evictRegion region reason onEvictFinished =>
    obtain ⟨result, hresult, rfl⟩ := map_eq_ok.mp heq
    obtain ⟨metas, hall, -⟩ := hinv.consistent.onAllOverlappedRegions region
    unfold evictRegion at hresult
    rw [hall] at hresult
    exact hinv.evictRegions hresult
  | splitRegion source regions =>
    obtain ⟨manager, hmanager, rfl⟩ := map_eq_ok.mp heq
    exact hinv.splitRegion hallowed.1 hallowed.2.1 hallowed.2.2 hmanager
  | onGcRegionFinished region =>
    obtain ⟨manager, hmanager, rfl⟩ := map_eq_ok.mp heq
    exact hinv.onGcRegionFinished hmanager
  | onDeleteRegions regions =>
    obtain ⟨result, hresult, rfl⟩ := map_eq_ok.mp heq
    obtain ⟨cbs, rm', heq', hinv'⟩ := hinv.onDeleteRegions hallowed
    obtain rfl := ok_unique heq' hresult
    exact hinv'

/-- The snapshots that are equal to a given one are counted in one place: the meta with the id and
the epoch of its region, or the historical region with its key. -/
def CountedOnce (c : Cache K) (s : SnapshotMeta K) : Prop :=
  (∃ self, c.manager.regionsMap.regions.lookup s.region.id = some self ∧
    self.region.epochVersion = s.region.epochVersion ∧
    self.regionSnapshotList.count s.snapshotTs = c.live.count s ∧
    c.manager.historicalRegions.lookup s.region.historicalKey = none) ∨
  ∃ h, c.manager.historicalRegions.lookup s.region.historicalKey = some h ∧
    h.regionSnapshotList.count s.snapshotTs = c.live.count s ∧
    ∀ self, c.manager.regionsMap.regions.lookup s.region.id = some self →
      self.region.epochVersion ≠ s.region.epochVersion

/-- Snapshots that are alive pin the regions they overlap, and nothing else does. -/
structure Pinned (c : Cache K) : Prop where
  /-- what overlaps a snapshot is in the cache -/
  overlapping : ∀ s ∈ c.live, ∀ id self, c.manager.regionsMap.regions.lookup id = some self →
    self.region.Overlaps s.region → self.state = .active ∨ self.state = .pendingEvict
  /-- no range of a snapshot is deleted -/
  not_deleted : ∀ s ∈ c.live, ∀ r ∈ c.scheduled, ¬r.Overlaps s.region
  countedOnce : ∀ s ∈ c.live, c.CountedOnce s
  /-- `remove_region_snapshot` does not panic -/
  removable : ∀ s ∈ c.live, ∃ result, c.manager.removeRegionSnapshot s = .ok result
  /-- `on_delete_regions` does not panic -/
  deletable : ∀ regions, regions.Subperm c.scheduled →
    ∃ result, c.manager.onDeleteRegions regions = .ok result
  /-- a region waits for a snapshot -/
  not_leaked : ∀ id self, c.manager.regionsMap.regions.lookup id = some self →
    self.state = .pendingEvict → ∃ s ∈ c.live, self.region.Overlaps s.region

section

variable (hinv : c.manager.Inv D c.live c.scheduled)
include hinv

/-- A snapshot that is alive is counted in one place. -/
theorem countedOnce_of_inv {s : SnapshotMeta K} (hs : s ∈ c.live) : c.CountedOnce s := by
  rcases hinv.placed s hs with ⟨id, self, hself, heq⟩ | ⟨key, h, hh, heq⟩
  · obtain rfl := hinv.consistent.id_eq hself
    rw [heq] at hself
    refine .inl ⟨self, hself, by rw [heq], by rw [(hinv.metas hself).counted, heq], ?_⟩
    cases hlookup : c.manager.historicalRegions.lookup s.region.historicalKey with
    | none => rfl
    | some h =>
      obtain ⟨hend, hepoch⟩ := historicalKey_inj (hinv.historical hlookup).key_eq
      have hlt := (hinv.metas hself).newer hlookup
        (overlaps_of_endKey_eq (by rw [heq, hend]))
      rw [heq, hepoch] at hlt
      exact absurd hlt (lt_irrefl _)
  · obtain rfl := (hinv.historical hh).key_eq
    refine .inr ⟨h, heq ▸ hh, by rw [(hinv.historical hh).counted, heq],
      fun self hself hepoch => ?_⟩
    refine hinv.region_ne hself hh ?_
    rw [heq]
    exact D.eq_of_epochVersion (hinv.live_known hs) (hinv.metas hself).known
      (hinv.consistent.id_eq hself).symm hepoch.symm

/-- What overlaps a snapshot that is alive is active or still to be evicted. -/
theorem active_or_pendingEvict_of_live {s : SnapshotMeta K} {id : ℕ} {self : CacheRegionMeta K}
    (hs : s ∈ c.live) (hself : c.manager.regionsMap.regions.lookup id = some self)
    (hoverlap : self.region.Overlaps s.region) :
    self.state = .active ∨ self.state = .pendingEvict := by
  rcases hinv.placed s hs with ⟨id', self', hself', heq⟩ | ⟨key, h, hh, heq⟩
  · obtain rfl := hinv.consistent.disjoint hself hself' (heq ▸ hoverlap)
    obtain rfl := mem_unique hself hself'
    by_contra hnot
    rw [not_or] at hnot
    have hzero := ((hinv.metas hself).quiet hnot.1 hnot.2).1 s.snapshotTs
    rw [(hinv.metas hself).counted, heq, List.count_eq_zero] at hzero
    exact hzero hs
  · exact hinv.active_or_pendingEvict hself hh (heq ▸ hoverlap.symm)

/-- A region that is still to be evicted overlaps a snapshot that is alive. -/
theorem exists_live_of_pendingEvict {id : ℕ} {self : CacheRegionMeta K}
    (hself : c.manager.regionsMap.regions.lookup id = some self)
    (hstate : self.state = .pendingEvict) : ∃ s ∈ c.live, self.region.Overlaps s.region := by
  rcases (hinv.metas hself).pinned hstate with ⟨ts, hts⟩ | ⟨key, h, hh, hoverlap⟩
  · rw [(hinv.metas hself).counted] at hts
    exact ⟨_, count_pos_iff.mp hts, self.region.overlaps_self⟩
  · obtain ⟨ts, hts⟩ := (hinv.historical hh).pos
    rw [(hinv.historical hh).counted] at hts
    exact ⟨_, count_pos_iff.mp hts, hoverlap.symm⟩

/-- Live snapshots pin the cached regions where the invariant holds. -/
theorem pinned_of_inv : c.Pinned := by
  refine ⟨fun s hs id self => active_or_pendingEvict_of_live hinv hs, ?_,
    fun s hs => countedOnce_of_inv hinv hs, ?_, ?_,
    fun id self => exists_live_of_pendingEvict hinv⟩
  · intro s hs r hr hoverlap
    obtain ⟨id, self, hself, rfl, hstate⟩ := (hinv.scheduled_iff r).mp hr
    rcases active_or_pendingEvict_of_live hinv hs hself hoverlap with hactive | hpending
    · exact nomatch hactive.symm.trans hstate
    · exact nomatch hpending.symm.trans hstate
  · intro s hs
    obtain ⟨regions, rm', heq, -⟩ := hinv.removeRegionSnapshot hs
    exact ⟨_, heq⟩
  · intro regions hregions
    obtain ⟨cbs, rm', heq, -⟩ := hinv.onDeleteRegions hregions
    exact ⟨_, heq⟩

end

/-! A region and the two regions it is split into. -/

def whole : CacheRegion ℕ := ⟨1, 5, 0, 10, by decide⟩

def lower : CacheRegion ℕ := ⟨1, 6, 0, 4, by decide⟩

def upper : CacheRegion ℕ := ⟨2, 6, 4, 10, by decide⟩

def splitDescriptors : Descriptors ℕ where
  regions := {r | r ∈ [whole, lower, upper]}
  eq_of_epochVersion := by
    have heq : ∀ r ∈ [whole, lower, upper], ∀ s ∈ [whole, lower, upper], r.id = s.id →
        r.epochVersion = s.epochVersion → r = s := by decide
    exact fun {r s} hr hs => heq r hr s hs

theorem isSplit_whole : RegionManager.IsSplit whole [lower, upper] := by
  refine ⟨by decide, fun key => ?_, by decide⟩
  simp only [CacheRegion.ContainsKey, mem_cons, not_mem_nil, or_false, exists_eq_or_imp,
    exists_eq_left, whole, lower, upper]
  omega

end Cache

end Tikv.InMemoryEngine
