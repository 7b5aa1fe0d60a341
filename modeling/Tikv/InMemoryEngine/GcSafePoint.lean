import Tikv.InMemoryEngine.Snapshots

/-!
# The safe point of a region and the live snapshots

`gc_region` takes two steps. It first asks for the least timestamp of the snapshots of historical
regions. Then, with the lock of the regions, it takes the least timestamp of the snapshots of the
region itself, and stores a safe point that is at most both.

In every run of the calls and of these steps, live snapshots pin the regions (`pinned_of_exec`). But
a split between the two steps moves the snapshots of the region from the second place to the first,
so that `gc_region` sees them in neither. Without such a split no safe point passes a snapshot that
is alive.
-/

namespace Tikv.InMemoryEngine

open AssocMap List RegionManager

variable {K : Type} [LinearOrder K]

/-- A call of `gc_region` between its two steps. -/
structure GcTask (K : Type) [LinearOrder K] where
  region : CacheRegion K
  safePoint : ℕ
  historicalSafePoint : Option ℕ
  deriving DecidableEq

/-- A timestamp that is at most another one; `none` is `u64::MAX`. -/
def atMost (ts : ℕ) : Option ℕ → ℕ
  | none => ts
  | some bound => min ts bound

theorem atMost_le_left (ts : ℕ) (bound : Option ℕ) : atMost ts bound ≤ ts := by
  cases bound with
  | none => exact le_rfl
  | some bound => exact min_le_left _ _

theorem atMost_le_of_eq_some {ts t : ℕ} {bound : Option ℕ} (h : ∃ v ≤ t, bound = some v) :
    atMost ts bound ≤ t := by
  obtain ⟨v, hv, rfl⟩ := h
  exact (min_le_right _ _).trans hv

namespace RegionManager

variable {rm rm' : RegionManager K} {task : GcTask K}

/-- The first step of `gc_region`. -/
def gcRead (rm : RegionManager K) (region : CacheRegion K) (safePoint : ℕ) : GcTask K :=
  ⟨region, safePoint, rm.getHistoryRegionsMinTs region⟩

/-- The second step of `gc_region`. -/
def gcStore (rm : RegionManager K) (task : GcTask K) : Except ImePanic (RegionManager K) :=
  match rm.regionsMap.regions.lookup task.region.id with
  | none => .ok rm
  | some self =>
    if self.state ≠ .active ∨ ¬task.region.ContainsRange self.region then .ok rm
    else
      let safePoint := atMost (atMost task.safePoint self.regionSnapshotList.minSnapshotTs)
        task.historicalSafePoint
      if safePoint ≤ self.safePoint then .ok rm
      else
        ((self.setSafePoint safePoint).bind (·.setInGc true)).map fun self =>
          { rm with regionsMap := rm.regionsMap.setMeta self }

/-- The answer of `get_history_regions_min_ts` is at most the timestamp of every snapshot of a
historical region that overlaps the range. -/
theorem getHistoryRegionsMinTs_le (hkey : ∀ {key h}, rm.historicalRegions.lookup key = some h →
    key = h.region.historicalKey) {region : CacheRegion K} {key : KeyAndVersion K}
    {h : CacheRegionMeta K} {ts : ℕ} (hh : rm.historicalRegions.lookup key = some h)
    (hoverlap : h.region.Overlaps region) (hts : 0 < h.regionSnapshotList.count ts) :
    ∃ v ≤ ts, rm.getHistoryRegionsMinTs region = some v := by
  obtain ⟨t, ht, hmin⟩ := SnapshotList.minSnapshotTs_le hts
  have hmem : t ∈ (rm.historicalAbove region).filterMap fun self =>
      if self.region.startKey < region.endKey then self.regionSnapshotList.minSnapshotTs
      else none := by
    refine mem_filterMap.mpr ⟨h,
      (mem_historicalAbove hkey region).mpr ⟨⟨key, hh⟩, hoverlap.2⟩, ?_⟩
    rw [if_pos hoverlap.1, hmin]
  obtain ⟨v, hv⟩ := Option.isSome_iff_exists.mp (isSome_min?_of_mem hmem)
  exact ⟨v, ((min?_eq_some_iff.mp hv).2 t hmem).trans ht, hv⟩

/-- What the second step of `gc_region` does: the safe point of one region is raised, to at most the
timestamps of its own snapshots and of those that the first step has seen. -/
theorem gcStore_eq_ok (heq : rm.gcStore task = .ok rm') : rm' = rm ∨
    ∃ old safePoint, rm.regionsMap.regions.lookup task.region.id = some old ∧ old.state = .active ∧
      task.region.ContainsRange old.region ∧
      (∀ {ts}, 0 < old.regionSnapshotList.count ts → safePoint ≤ ts) ∧
      (∀ {ts}, (∃ v ≤ ts, task.historicalSafePoint = some v) → safePoint ≤ ts) ∧
      rm' = { rm with
        regionsMap := rm.regionsMap.setMeta { old with safePoint, inGc := true } } := by
  unfold gcStore at heq
  cases hold : rm.regionsMap.regions.lookup task.region.id with rw [hold] at heq
  | none => exact .inl (Except.ok.inj heq).symm
  | some old =>
    dsimp only at heq
    split_ifs at heq with hskip hlow
    · exact .inl (Except.ok.inj heq).symm
    · exact .inl (Except.ok.inj heq).symm
    rw [not_or, not_ne_iff, not_not] at hskip
    obtain ⟨self, hself, rfl⟩ := map_eq_ok.mp heq
    obtain ⟨self', hself', hself⟩ := bind_eq_ok.mp hself
    unfold CacheRegionMeta.setSafePoint at hself'
    split_ifs at hself'
    obtain rfl := Except.ok.inj hself'
    unfold CacheRegionMeta.setInGc at hself
    split_ifs at hself
    obtain rfl := Except.ok.inj hself
    refine .inr ⟨old, _, rfl, hskip.1, hskip.2, fun {ts} hts => ?_, fun {ts} hts => ?_, rfl⟩
    · obtain ⟨t, ht, hmin⟩ := SnapshotList.minSnapshotTs_le hts
      exact (atMost_le_left _ _).trans (atMost_le_of_eq_some ⟨t, ht, hmin⟩)
    · exact atMost_le_of_eq_some hts

/-- The second step of `gc_region` concerns no snapshot. -/
theorem Inv.gcStore {D : Descriptors K} {live : Live K} {scheduled : List (CacheRegion K)}
    (hinv : Inv D rm live scheduled) (heq : rm.gcStore task = .ok rm') :
    Inv D rm' live scheduled := by
  rcases gcStore_eq_ok heq with rfl | ⟨old, safePoint, hold, hactive, -, -, -, rfl⟩
  · exact hinv
  · have hmeta := hinv.metas hold
    have hself : MetaInv D rm.historicalRegions live { old with safePoint, inGc := true } :=
      { hmeta with }
    simpa [hactive] using hinv.setMeta hold hself rfl (fun _ _ => rfl) (by rw [hactive]; nofun)

end RegionManager

/-! ### Runs -/

/-- The cache and the calls of `gc_region` that have taken one step. -/
structure GcCache (K : Type) [LinearOrder K] where
  cache : Cache K
  tasks : List (GcTask K)
  deriving DecidableEq

/-- The steps: a call of a method, and the two steps of `gc_region`. -/
inductive GcEvent (K : Type) [LinearOrder K]
  | call (e : CacheEvent K)
  | gcRead (region : CacheRegion K) (safePoint : ℕ)
  | gcStore (task : GcTask K)

namespace GcCache

def new : GcCache K := ⟨.new, []⟩

/-- The cache after a step. -/
def step (s : GcCache K) : GcEvent K → Except ImePanic (GcCache K)
  | .call e => (s.cache.step e).map fun cache => { s with cache }
  | .gcRead region safePoint =>
    .ok { s with tasks := s.cache.manager.gcRead region safePoint :: s.tasks }
  | .gcStore task => (s.cache.manager.gcStore task).map fun manager =>
      { cache := { s.cache with manager }, tasks := s.tasks.erase task }

/-- The steps that can happen. -/
def Allowed (D : Descriptors K) (s : GcCache K) : GcEvent K → Prop
  | .call e => e.Allowed D s.cache
  | .gcRead _ _ => True
  | .gcStore task => task ∈ s.tasks

/-- One step. -/
def Step (D : Descriptors K) (s : GcCache K) (e : GcEvent K) (s' : GcCache K) : Prop :=
  s.Allowed D e ∧ s.step e = .ok s'

section

variable {D : Descriptors K} {s s' : GcCache K} {e : GcEvent K} {events : List (GcEvent K)}

/-- Every step keeps the invariant of the manager. -/
theorem Step.cache_inv (h : Step D s e s')
    (hinv : s.cache.manager.Inv D s.cache.live s.cache.scheduled) :
    s'.cache.manager.Inv D s'.cache.live s'.cache.scheduled := by
  obtain ⟨hallowed, heq⟩ := h
  cases e with
  | call e =>
    obtain ⟨cache, hcache, rfl⟩ := map_eq_ok.mp heq
    exact Cache.Step.inv ⟨hallowed, hcache⟩ hinv
  | gcRead region safePoint =>
    obtain rfl := Except.ok.inj heq
    exact hinv
  | gcStore task =>
    obtain ⟨manager, hmanager, rfl⟩ := map_eq_ok.mp heq
    exact hinv.gcStore hmanager

/-- **Live snapshots pin the cached regions, and nothing else does**, in every run. -/
theorem pinned_of_exec (h : Exec (Step D) new events s) : s.cache.Pinned :=
  Cache.pinned_of_inv <| h.invariant
    (I := fun s => s.cache.manager.Inv D s.cache.live s.cache.scheduled)
    (fun _ _ _ hinv hstep => hstep.cache_inv hinv) (RegionManager.inv_new D)

end

/-! A region with a snapshot, and the two regions it is split into. -/

private def parent : CacheRegion ℕ := Cache.whole

private def leftChild : CacheRegion ℕ := Cache.lower

private def rightChild : CacheRegion ℕ := Cache.upper

private def familyDescriptors : Descriptors ℕ := Cache.splitDescriptors

private theorem mem_family : ∀ r ∈ [parent, leftChild, rightChild], r ∈ familyDescriptors.regions :=
  fun _ hr => hr

/-- The region is cached, and a snapshot at timestamp 50 is alive. -/
private def snapshotEvents : List (GcEvent ℕ) :=
  [.call (.loadRegion parent), .call (.prepareForApply parent false false),
    .call (.onSnapshotLoadFinished parent 3), .call (.regionSnapshot parent 50)]

/-- The region is split while it is collected, the collection ends, and one of the two regions is
evicted while the snapshot is alive. -/
theorem pinned_of_exec_split : ∃ s, Exec (Step familyDescriptors) new
    (snapshotEvents ++ [.gcRead parent 100, .gcStore ⟨parent, 100, none⟩,
      .call (.splitRegion parent [leftChild, rightChild]), .call (.onGcRegionFinished parent),
      .call (.evictRegion leftChild .merge none)]) s ∧
    s.cache.live = [⟨parent, 50⟩] ∧
    (s.cache.manager.regionsMap.regions.lookup 1).map (·.state) = some .pendingEvict ∧
    s.cache.Pinned := by
  have hrun : Exec (Step familyDescriptors) new
      (snapshotEvents ++ [.gcRead parent 100, .gcStore ⟨parent, 100, none⟩,
        .call (.splitRegion parent [leftChild, rightChild]), .call (.onGcRegionFinished parent),
        .call (.evictRegion leftChild .merge none)]) _ :=
    .cons ⟨mem_family parent (by decide), Eq.refl (Except.ok _)⟩ <|
    .cons ⟨mem_family parent (by decide), Eq.refl (Except.ok _)⟩ <|
    .cons ⟨trivial, Eq.refl (Except.ok _)⟩ <|
    .cons ⟨mem_family parent (by decide), Eq.refl (Except.ok _)⟩ <|
    .cons ⟨trivial, Eq.refl (Except.ok _)⟩ <|
    .cons ⟨mem_cons_self, Eq.refl (Except.ok _)⟩ <|
    .cons ⟨⟨mem_family parent (by decide), fun r hr => mem_family r (mem_cons_of_mem _ hr),
      Cache.isSplit_whole⟩, Eq.refl (Except.ok _)⟩ <|
    .cons ⟨trivial, Eq.refl (Except.ok _)⟩ <|
    .cons ⟨trivial, Eq.refl (Except.ok _)⟩ (.nil _)
  exact ⟨_, hrun, rfl, rfl, pinned_of_exec hrun⟩

/-! ### Safe points -/

/-- No split moves snapshots while `gc_region` of a range that overlaps is between its steps. -/
def Orderly (s : GcCache K) : GcEvent K → Prop
  | .call (.splitRegion source _) => ∀ old,
      s.cache.manager.regionsMap.regions.lookup source.id = some old → old.state.isEvict = false →
      (∃ ts, 0 < old.regionSnapshotList.count ts) →
      ∀ task ∈ s.tasks, ¬old.region.Overlaps task.region
  | _ => True

/-- No safe point of a region passes a snapshot that is alive and overlaps the region. -/
def SafePointsHold (s : GcCache K) : Prop :=
  ∀ snapshot ∈ s.cache.live, ∀ id self,
    s.cache.manager.regionsMap.regions.lookup id = some self →
    self.region.Overlaps snapshot.region → self.safePoint ≤ snapshot.snapshotTs

/-- The invariant of the orderly runs. -/
structure Inv (D : Descriptors K) (s : GcCache K) : Prop where
  cache : s.cache.manager.Inv D s.cache.live s.cache.scheduled
  safe : s.SafePointsHold
  /-- a call that has taken one step has seen all snapshots of historical regions -/
  seen : ∀ task ∈ s.tasks, ∀ {key h ts}, s.cache.manager.historicalRegions.lookup key = some h →
    h.region.Overlaps task.region → 0 < h.regionSnapshotList.count ts →
    ∃ v ≤ ts, task.historicalSafePoint = some v

variable {D : Descriptors K} {s s' : GcCache K} {e : GcEvent K} {events : List (GcEvent K)}

theorem inv_new (D : Descriptors K) : Inv D new where
  cache := RegionManager.inv_new D
  safe := nofun
  seen := nofun

/-- What overlaps a snapshot that is alive is not loading. -/
theorem Inv.state_ne_loading (hinv : Inv D s) {snapshot : SnapshotMeta K} {id : ℕ}
    {self : CacheRegionMeta K} (hs : snapshot ∈ s.cache.live)
    (hself : s.cache.manager.regionsMap.regions.lookup id = some self)
    (hoverlap : self.region.Overlaps snapshot.region) : self.state ≠ .loading :=
  RegionState.ne_of_eq_or (Cache.active_or_pendingEvict_of_live hinv.cache hs hself hoverlap) nofun
    nofun

/-- The calls of methods keep the safe points below the snapshots. -/
theorem Inv.safe_call (hinv : Inv D s) {e : CacheEvent K} {cache : Cache K}
    (hallowed : e.Allowed D s.cache) (hchange : Cache.Change s.cache cache e) :
    SafePointsHold { s with cache } := by
  intro snapshot hs id self hself hoverlap
  cases hchange with
  | shrink hchange _ hlive =>
    obtain ⟨old, hold, hregion, -, hsafe | hloading⟩ := hchange.origin hself
    · rw [hsafe]
      exact hinv.safe snapshot (hlive hs) id old hold (hregion ▸ hoverlap)
    · exact absurd hloading (hinv.state_ne_loading (hlive hs) hold (hregion ▸ hoverlap))
  | load _ hchange _ hlive =>
    obtain ⟨old, state, isWritten, rfl, ⟨hold, -⟩ | ⟨-, rfl, -⟩⟩ := hchange.origin hself
    · exact hinv.safe snapshot (hlive ▸ hs) id old hold hoverlap
    · exact Nat.zero_le _
  | @snapshot region readTs heq hlive =>
    obtain ⟨hchange, -⟩ := keeps_regionSnapshot hinv.cache.consistent heq
    obtain ⟨old, hold, hregion, -, hsafe⟩ := hchange.origin hself
    rw [hlive] at hs
    rcases mem_cons.mp hs with rfl | hs
    · -- The region of the snapshot is the only one that overlaps it.
      obtain ⟨old', hold', hactive, hepoch, hlt, -⟩ := regionSnapshot_eq_ok heq
      have heq' : old'.region = region :=
        D.eq_of_epochVersion (hinv.cache.metas hold').known hallowed
        (hinv.cache.consistent.id_eq hold') hepoch
      obtain rfl := hinv.cache.consistent.disjoint hold hold' (heq' ▸ hregion ▸ hoverlap)
      obtain rfl := Option.mem_unique hold hold'
      rcases hsafe with hsafe | hloading
      · exact hsafe ▸ hlt.le
      · exact nomatch hactive.symm.trans hloading
    · rcases hsafe with hsafe | hloading
      · rw [hsafe]
        exact hinv.safe snapshot hs id old hold (hregion ▸ hoverlap)
      · exact absurd hloading (hinv.state_ne_loading hs hold (hregion ▸ hoverlap))
  | split hchange hlive =>
    rcases hchange.origin hself with ⟨hself, -⟩ | ⟨old, r, -, -, hold, hcontains, rfl⟩
    · exact hinv.safe snapshot (hlive ▸ hs) id self hself hoverlap
    · exact hinv.safe snapshot (hlive ▸ hs) _ old hold (hoverlap.mono hcontains)

/-- **Orderly steps keep the invariant.** -/
theorem Inv.step (hinv : Inv D s) (h : Step D s e s') (horderly : s.Orderly e) : Inv D s' := by
  have hcache' := h.cache_inv hinv.cache
  obtain ⟨hallowed, heq⟩ := h
  cases e with
  | call e =>
    obtain ⟨cache, hcache, rfl⟩ := map_eq_ok.mp heq
    have hchange := Cache.change_of_step hinv.cache.consistent hcache
    refine ⟨hcache', hinv.safe_call hallowed hchange, ?_⟩
    intro task htask key h ts hh hoverlap hts
    have hsame : s.cache.manager.historicalRegions.lookup key = some h →
        ∃ v ≤ ts, task.historicalSafePoint = some v := fun hh =>
          hinv.seen task htask hh hoverlap hts
    cases hchange with
    | shrink _ hhist _ =>
      obtain ⟨h', hh', hregion, hcount⟩ := hhist hh
      exact hinv.seen task htask hh' (hregion ▸ hoverlap) (hcount ts hts)
    | load _ _ hhist _ => exact hsame (hhist ▸ hh)
    | snapshot hsnapshot _ =>
      obtain ⟨-, hhist⟩ := keeps_regionSnapshot hinv.cache.consistent hsnapshot
      exact hsame (hhist ▸ hh)
    | split hchange _ =>
      rcases hchange.historical hh with hh | ⟨hold, hevict, hpos⟩
      · exact hsame hh
      · exact absurd hoverlap (horderly h hold hevict hpos task htask)
  | gcRead region safePoint =>
    obtain rfl := Except.ok.inj heq
    refine ⟨hcache', hinv.safe, fun task htask key h ts hh hoverlap hts => ?_⟩
    rcases mem_cons.mp htask with rfl | htask
    · exact getHistoryRegionsMinTs_le (fun hh => (hinv.cache.historical hh).key_eq) hh
        hoverlap hts
    · exact hinv.seen task htask hh hoverlap hts
  | gcStore task =>
    obtain ⟨manager, hmanager, rfl⟩ := map_eq_ok.mp heq
    refine ⟨hcache', ?_, ?_⟩
    · intro snapshot hs id self hself hoverlap
      rcases gcStore_eq_ok hmanager with
        rfl | ⟨old, safePoint, hold, hactive, hcontains, hown, hhistorical, rfl⟩
      · exact hinv.safe snapshot hs id self hself hoverlap
      have hregion : ({ old with safePoint, inGc := true } : CacheRegionMeta K).region =
          old.region := rfl
      obtain ⟨-, hlookup⟩ := hinv.cache.consistent.setMeta hold hregion
      rw [hlookup] at hself
      split_ifs at hself with hid
      swap
      · exact hinv.safe snapshot hs id self hself hoverlap
      obtain rfl := Option.some.inj hself
      -- The snapshot is counted in the region, or was seen in a historical one.
      rcases hinv.cache.placed snapshot hs with ⟨id', self', hself', heq'⟩ | ⟨key, h, hh, heq'⟩
      · obtain rfl := hinv.cache.consistent.disjoint hold hself' (heq' ▸ hoverlap)
        obtain rfl := Option.mem_unique hold hself'
        refine hown ?_
        rw [(hinv.cache.metas hold).counted, heq']
        exact count_pos_iff.mpr hs
      · refine hhistorical (hinv.seen task hallowed hh ?_ ?_)
        · exact heq' ▸ (hoverlap.mono hcontains).symm
        · rw [(hinv.cache.historical hh).counted, heq']
          exact count_pos_iff.mpr hs
    · intro task' htask' key h ts hh hoverlap hts
      have hhist : manager.historicalRegions = s.cache.manager.historicalRegions := by
        rcases gcStore_eq_ok hmanager with rfl | ⟨old, safePoint, -, -, -, -, -, rfl⟩ <;> rfl
      exact hinv.seen task' (mem_of_mem_erase htask') (hhist ▸ hh) hoverlap hts

/-- **No safe point passes a live snapshot**, in every run in which no split moves snapshots between
the two steps of a garbage collection of their range. -/
theorem safePointsHold_of_orderly
    (h : Exec (fun s e s' => Step D s e s' ∧ s.Orderly e) new events s) : s.SafePointsHold :=
  (h.invariant (I := Inv D) (fun _ _ _ hinv hstep => hinv.step hstep.1 hstep.2) (inv_new D)).safe

/-- The split comes between the two steps: the safe point becomes 100. -/
theorem not_safePointsHold_split : ∃ s, Exec (Step familyDescriptors) new
    (snapshotEvents ++ [.gcRead parent 100, .call (.splitRegion parent [leftChild, rightChild]),
      .gcStore ⟨parent, 100, none⟩]) s ∧
    s.cache.live = [⟨parent, 50⟩] ∧
    (s.cache.manager.regionsMap.regions.lookup 1).map (·.safePoint) = some 100 ∧
    ¬s.SafePointsHold := by
  have hrun : Exec (Step familyDescriptors) new
      (snapshotEvents ++ [.gcRead parent 100, .call (.splitRegion parent [leftChild, rightChild]),
        .gcStore ⟨parent, 100, none⟩]) _ :=
    .cons ⟨mem_family parent (by decide), Eq.refl (Except.ok _)⟩ <|
    .cons ⟨mem_family parent (by decide), Eq.refl (Except.ok _)⟩ <|
    .cons ⟨trivial, Eq.refl (Except.ok _)⟩ <|
    .cons ⟨mem_family parent (by decide), Eq.refl (Except.ok _)⟩ <|
    .cons ⟨trivial, Eq.refl (Except.ok _)⟩ <|
    .cons ⟨⟨mem_family parent (by decide), fun r hr => mem_family r (mem_cons_of_mem _ hr),
      Cache.isSplit_whole⟩, Eq.refl (Except.ok _)⟩ <|
    .cons ⟨mem_cons_self, Eq.refl (Except.ok _)⟩ (.nil _)
  refine ⟨_, hrun, rfl, rfl, fun hold => ?_⟩
  have hle := hold ⟨parent, 50⟩ (mem_cons_self) 1 _ rfl (by decide)
  exact absurd hle (by decide)

/-- The split comes after the second step: the safe point is that of the snapshot. -/
theorem safePointsHold_splitAfter : ∃ s, Exec (fun s e s' => Step familyDescriptors s e s' ∧
    s.Orderly e) new
    (snapshotEvents ++ [.gcRead parent 100, .gcStore ⟨parent, 100, none⟩,
      .call (.splitRegion parent [leftChild, rightChild])]) s ∧
    s.cache.live = [⟨parent, 50⟩] ∧
    (s.cache.manager.regionsMap.regions.lookup 1).map (·.safePoint) = some 50 ∧
    s.SafePointsHold := by
  have hrun : Exec (fun s e s' => Step familyDescriptors s e s' ∧ s.Orderly e) new
      (snapshotEvents ++ [.gcRead parent 100, .gcStore ⟨parent, 100, none⟩,
        .call (.splitRegion parent [leftChild, rightChild])]) _ :=
    .cons ⟨⟨mem_family parent (by decide), Eq.refl (Except.ok _)⟩, trivial⟩ <|
    .cons ⟨⟨mem_family parent (by decide), Eq.refl (Except.ok _)⟩, trivial⟩ <|
    .cons ⟨⟨trivial, Eq.refl (Except.ok _)⟩, trivial⟩ <|
    .cons ⟨⟨mem_family parent (by decide), Eq.refl (Except.ok _)⟩, trivial⟩ <|
    .cons ⟨⟨trivial, Eq.refl (Except.ok _)⟩, trivial⟩ <|
    .cons ⟨⟨mem_cons_self, Eq.refl (Except.ok _)⟩, trivial⟩ <|
    .cons ⟨⟨⟨mem_family parent (by decide), fun r hr => mem_family r (mem_cons_of_mem _ hr),
      Cache.isSplit_whole⟩, Eq.refl (Except.ok _)⟩, fun _ _ _ _ => nofun⟩ (.nil _)
  exact ⟨_, hrun, rfl, rfl, safePointsHold_of_orderly hrun⟩

end GcCache

end Tikv.InMemoryEngine
