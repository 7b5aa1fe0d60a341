import Tikv.Foundation.Execution
import Tikv.ResolvedTs.Resolver

/-!
# What a resolver promises

The resolver of a region charges the keys it tracks to a memory quota that it shares with others. A
lock for which the quota has no room is not tracked. The runs here are the calls of one resolver
with locks of normal transactions; what `resolve` was called with and what it returned is recorded
on the side.

The result is **`resolved_below_commits`**.
-/

namespace Tikv.ResolvedTs

/-- `MemoryQuota`. Calls of one thread; the capacity has been adjusted. -/
structure MemoryQuota where
  inUse : ℤ
  capacity : ℕ
  deriving DecidableEq, Repr

namespace MemoryQuota

/-- `MAX_MEMORY_ALLOC_SIZE` -/
def maxMemoryAllocSize : ℕ := 2 ^ 48

/-- A cast of `isize` to `usize`. -/
def asUsize (i : ℤ) : ℕ := (i % 2 ^ 64).toNat

/-- `none` is `MemoryQuotaExceeded`. -/
def alloc (q : MemoryQuota) (bytes : ℕ) : Option MemoryQuota :=
  if bytes > asUsize (q.capacity - q.inUse) ∨ bytes > maxMemoryAllocSize then none
  else if bytes > q.capacity - q.inUse then none
  else some { q with inUse := q.inUse + bytes }

def free (q : MemoryQuota) (bytes : ℕ) : MemoryQuota :=
  if bytes > maxMemoryAllocSize then q
  else
    let newInUse := q.inUse - bytes
    if newInUse < 0 then { q with inUse := newInUse + min (-newInUse) bytes }
    else { q with inUse := newInUse }

variable {q q' : MemoryQuota} {bytes : ℕ}

theorem alloc_eq_some (h : q.alloc bytes = some q') :
    bytes ≤ maxMemoryAllocSize ∧ q' = { q with inUse := q.inUse + bytes } := by
  rw [alloc] at h
  split_ifs at h with hbytes
  exact ⟨not_lt.mp (not_or.mp hbytes).2, (Option.some.inj h).symm⟩

/-- What was charged can be freed, up to the largest size of an allocation. -/
theorem free_eq (hle : bytes ≤ q.inUse) (hmax : bytes ≤ maxMemoryAllocSize) :
    q.free bytes = { q with inUse := q.inUse - bytes } := by
  rw [free, if_neg hmax.not_gt]
  exact if_neg (by omega)

end MemoryQuota

open MemoryQuota Resolver

/-- A resolver with its quota, and what `resolve` was called with and returned, last first. -/
structure Tracking where
  resolver : Resolver (List UInt8) := {}
  quota : MemoryQuota
  minTss : List ℕ := []
  returned : List ℕ := []

/-- `Resolver::lock_heap_size`: the key and a timestamp. -/
def lockHeapSize (key : List UInt8) : ℕ := key.length + 8

namespace Tracking

/-- `Resolver::track_lock` with generation 0. -/
def trackLock (s : Tracking) (startTs : ℕ) (key : List UInt8) : Tracking :=
  match s.quota.alloc (lockHeapSize key) with
  | none => s
  | some quota =>
    match s.resolver.locksByKey.lookup key with
    | some _ => { s with quota := quota.free (lockHeapSize key) }
    | none => { s with resolver := s.resolver.trackLock startTs key 0, quota }

/-- `Resolver::untrack_lock`. -/
def untrackLock (s : Tracking) (key : List UInt8) : Tracking :=
  { s with
    resolver := s.resolver.untrackLock key
    quota := if (s.resolver.locksByKey.lookup key).isSome then s.quota.free (lockHeapSize key)
      else s.quota }

/-- The bytes of the tracked keys. -/
def charged (s : Tracking) : ℕ := (s.resolver.locksByKey.keys.map lockHeapSize).sum

/-- `Drop::drop`: the quota afterwards. -/
def drop (s : Tracking) : MemoryQuota := s.quota.free s.charged

end Tracking

inductive ResolverEvent
  | track (startTs : ℕ) (key : List UInt8)
  | untrack (key : List UInt8)
  | resolve (cache : ℕ → Option TxnState) (minTs : ℕ)

/-- A call of the resolver. `commitTs` says when the transaction with a start timestamp commits, if
it does. A key that is tracked already keeps its lock; a lock that comes to be tracked after a call
of `resolve` belongs to a transaction that commits above its `min_ts`. -/
inductive TrackStep (commitTs : ℕ → Option ℕ) : Tracking → ResolverEvent → Tracking → Prop
  | track {s : Tracking} {startTs : ℕ} {key : List UInt8}
      (hlate : (s.trackLock startTs key).resolver.tracked key ≠ s.resolver.tracked key →
        ∀ c, commitTs startTs = some c → ∀ minTs ∈ s.minTss, minTs < c) :
    TrackStep commitTs s (.track startTs key) (s.trackLock startTs key)
  | untrack {s : Tracking} {key : List UInt8} :
    TrackStep commitTs s (.untrack key) (s.untrackLock key)
  | resolve {s : Tracking} {cache : ℕ → Option TxnState} {minTs ts : ℕ}
      {resolver : Resolver (List UInt8)} (h : s.resolver.resolve cache minTs = .ok (ts, resolver)) :
    TrackStep commitTs s (.resolve cache minTs)
      { s with resolver, minTss := minTs :: s.minTss, returned := ts :: s.returned }

namespace Tracking

variable {commitTs : ℕ → Option ℕ} {s s' : Tracking} {e : ResolverEvent} {startTs : ℕ}
  {key : List UInt8} {base : ℤ}

theorem charged_eq_erase {t : ℕ} (h : s.resolver.locksByKey.lookup key = some t) :
    s.charged = lockHeapSize key +
      ((s.resolver.locksByKey.erase key).keys.map lockHeapSize).sum := by
  have hmem : key ∈ s.resolver.locksByKey.keys :=
    AList.mem_keys.mp (AList.lookup_isSome.mp (Option.isSome_of_eq_some h))
  rw [AList.keys_erase]
  exact (List.sum_map_erase _ hmem).symm

/-- The state of a resolver whose quota was used by others as far as `base`. -/
structure Inv (commitTs : ℕ → Option ℕ) (base : ℤ) (s : Tracking) : Prop where
  tracks : s.resolver.Tracks
  below : ∀ key t c, s.resolver.tracked key = some t → commitTs t = some c → t < c →
    s.resolver.resolvedTs < c
  bounded : s.resolver.resolvedTs = 0 ∨ ∃ minTs ∈ s.minTss, s.resolver.resolvedTs ≤ minTs
  returned : ∀ ts ∈ s.returned, ts ≤ s.resolver.resolvedTs
  quota : s.quota.inUse = base + s.charged
  fits : ∀ key t, s.resolver.tracked key = some t →
    lockHeapSize key ≤ maxMemoryAllocSize

/-- `track_lock` leaves everything as it was, or a key comes in and is charged. -/
theorem trackLock_spec (s : Tracking) (startTs : ℕ) (key : List UInt8)
    (hpos : 0 ≤ s.quota.inUse) :
    s.trackLock startTs key = s ∨
    s.resolver.tracked key = none ∧ lockHeapSize key ≤ maxMemoryAllocSize ∧
      s.trackLock startTs key =
        { s with
          resolver := s.resolver.trackLock startTs key 0
          quota := { s.quota with inUse := s.quota.inUse + lockHeapSize key } } := by
  rw [trackLock]
  cases halloc : s.quota.alloc (lockHeapSize key) with
  | none => exact .inl rfl
  | some quota =>
    obtain ⟨hfits, rfl⟩ := alloc_eq_some halloc
    cases hlookup : s.resolver.locksByKey.lookup key with
    | none => exact .inr ⟨hlookup, hfits, rfl⟩
    | some t =>
      -- the key is in the map: what was charged is freed again
      dsimp only
      rw [free_eq (by simp only; omega) hfits]
      simp

section

variable (h : Inv commitTs base s)
include h

/-- A lock that comes to be tracked commits above all timestamps passed. -/
theorem Inv.track (hbase : 0 ≤ base)
    (hlate : (s.trackLock startTs key).resolver.tracked key ≠ s.resolver.tracked key →
      ∀ c, commitTs startTs = some c → ∀ minTs ∈ s.minTss, minTs < c) :
    Inv commitTs base (s.trackLock startTs key) := by
  have hquota := h.quota
  rcases trackLock_spec s startTs key (by omega) with heq | ⟨hnone, hfits, heq⟩
  · rwa [heq]
  rw [heq] at hlate ⊢
  have hnew : (s.resolver.trackLock startTs key 0).tracked key ≠ s.resolver.tracked key := by
    rw [Resolver.tracked_trackLock, if_pos ⟨rfl, hnone⟩, hnone]
    nofun
  have htracked : ∀ {k t}, (s.resolver.trackLock startTs key 0).tracked k = some t →
      k = key ∧ startTs = t ∨ s.resolver.tracked k = some t := by
    intro k t hk
    rw [Resolver.tracked_trackLock] at hk
    split_ifs at hk with hnew
    · exact .inl ⟨hnew.1, Option.some.inj hk⟩
    · exact .inr hk
  have hresolved := Resolver.resolvedTs_trackLock s.resolver startTs key 0
  refine ⟨h.tracks.trackLock startTs key, fun k t c hk hc hlt => ?_, hresolved.symm ▸ h.bounded,
    hresolved.symm ▸ h.returned, ?_, fun k t hk => ?_⟩
  · rw [hresolved]
    rcases htracked hk with ⟨-, rfl⟩ | hk
    · rcases h.bounded with hzero | ⟨minTs, hmem, hle⟩
      · omega
      · exact hle.trans_lt (hlate hnew c hc minTs hmem)
    · exact h.below k t c hk hc hlt
  · have hkeys : (s.resolver.trackLock startTs key 0).locksByKey =
        s.resolver.locksByKey.insert key startTs := by
      rw [Resolver.trackLock, if_pos rfl, Resolver.trackNormalLock,
        show s.resolver.locksByKey.lookup key = none from hnone]
    have herase := congrArg AList.keys (AssocMap.erase_of_lookup hnone)
    rw [AList.keys_erase] at herase
    simp only [charged, hkeys, AList.keys_insert, herase, List.map_cons, List.sum_cons, hquota]
    omega
  · rcases htracked hk with ⟨rfl, -⟩ | hk
    · exact hfits
    · exact h.fits k t hk

/-- Untracking a lock gives its charge back. -/
theorem Inv.untrack (hbase : 0 ≤ base) (key : List UInt8) :
    Inv commitTs base (s.untrackLock key) := by
  have htracked : ∀ {k t}, (s.resolver.untrackLock key).tracked k = some t →
      s.resolver.tracked k = some t := by
    intro k t hk
    rw [h.tracks.tracked_untrackLock] at hk
    split_ifs at hk
    exact hk
  have hresolved := Resolver.resolvedTs_untrackLock s.resolver key
  refine ⟨h.tracks.untrackLock key, fun k t c hk => hresolved.symm ▸ h.below k t c (htracked hk),
    hresolved.symm ▸ h.bounded, hresolved.symm ▸ h.returned, ?_,
    fun k t hk => h.fits k t (htracked hk)⟩
  have hquota := h.quota
  simp only [untrackLock, charged, Resolver.untrackLock]
  cases hlookup : s.resolver.locksByKey.lookup key with
  | some t =>
    have hsum := charged_eq_erase hlookup
    rw [if_pos (show (some t).isSome = true from rfl),
      free_eq (by omega) (h.fits key t hlookup)]
    simp only
    omega
  | none =>
    have hnone : s.resolver.largeTxnKeyRepresentative.lookup key = none := by
      rw [h.tracks.noRepresentative, AList.lookup_empty]
    simp only [hnone]
    exact hquota

/-- `resolve` returns, and does not pass a tracked lock. -/
theorem Inv.resolve (cache : ℕ → Option TxnState) (minTs : ℕ) :
    ∃ ts resolver, s.resolver.resolve cache minTs = .ok (ts, resolver) ∧
      s.resolver.resolvedTs ≤ resolver.resolvedTs ∧
      Inv commitTs base
        { s with resolver, minTss := minTs :: s.minTss, returned := ts :: s.returned } := by
  obtain ⟨ts, m, heq, hle, hts⟩ := h.tracks.resolve_spec cache minTs
  refine ⟨ts, _, heq, hle, { h.tracks with }, fun key t c hk hc hlt => ?_, ?_, fun t ht => ?_,
    h.quota, h.fits⟩
  · rcases hts with rfl | ⟨-, hlock⟩
    · exact h.below key t c hk hc hlt
    · exact (hlock key t hk).trans_lt hlt
  · rcases hts with rfl | ⟨hmin, -⟩
    · exact h.bounded.imp_right fun ⟨m, hm, hle⟩ => ⟨m, List.mem_cons_of_mem _ hm, hle⟩
    · exact .inr ⟨minTs, List.mem_cons_self, hmin⟩
  · rcases List.mem_cons.mp ht with rfl | ht
    · exact le_rfl
    · exact (h.returned t ht).trans hle

theorem Inv.step (hbase : 0 ≤ base) (hstep : TrackStep commitTs s e s') :
    Inv commitTs base s' ∧ s.resolver.resolvedTs ≤ s'.resolver.resolvedTs := by
  have hquota := h.quota
  cases hstep with
  | @track startTs key hlate =>
    refine ⟨h.track hbase hlate, ?_⟩
    rcases trackLock_spec s startTs key (by omega) with heq | ⟨-, -, heq⟩ <;> rw [heq]
    exact (resolvedTs_trackLock ..).ge
  | untrack => exact ⟨h.untrack hbase _, (resolvedTs_untrackLock ..).ge⟩
  | resolve heq =>
    obtain ⟨ts, resolver, heq', hle, hinv⟩ := h.resolve _ _
    obtain ⟨rfl, rfl⟩ := Prod.mk.inj (ok_unique heq heq')
    exact ⟨hinv, hle⟩

end

theorem inv_new (quota : MemoryQuota) : Inv commitTs quota.inUse { quota } where
  tracks := .new
  below _ _ _ hk := absurd hk nofun
  bounded := .inl rfl
  returned := nofun
  quota := by simp [charged]
  fits _ _ hk := absurd hk nofun

/-- **A resolved timestamp is below every later commit.** After any calls: `resolve` returns, and no
call lowers the resolved timestamp; a tracked lock of a transaction commits above everything that
`resolve` has returned; the heap has the number of the keys tracked with each start timestamp, and
no entry where it is zero; and what the resolver has charged to its quota are the tracked keys, so
that nothing is left when it is dropped, unless they are more than the largest allocation. -/
theorem resolved_below_commits {commitTs : ℕ → Option ℕ} {quota : MemoryQuota}
    {events : List ResolverEvent} {s : Tracking} (hbase : 0 ≤ quota.inUse)
    (h : Exec (TrackStep commitTs) { quota } events s) :
    (∀ cache minTs, ∃ s', TrackStep commitTs s (.resolve cache minTs) s') ∧
    (∀ e s', TrackStep commitTs s e s' → s.resolver.resolvedTs ≤ s'.resolver.resolvedTs) ∧
    (∀ key startTs c, s.resolver.tracked key = some startTs → commitTs startTs = some c →
      startTs < c → ∀ ts ∈ s.returned, ts < c) ∧
    (∀ startTs, (s.resolver.lockTsHeap.lookup startTs).map (fun l => (l.lockCount : ℤ)) =
      if s.resolver.lockCountAt startTs = 0 then none
      else some (s.resolver.lockCountAt startTs : ℤ)) ∧
    s.quota.inUse = quota.inUse + s.charged ∧
    (s.charged ≤ maxMemoryAllocSize → s.drop.inUse = quota.inUse) := by
  have hinv : Inv commitTs quota.inUse s :=
    h.invariant (fun _ _ _ hs hstep => (hs.step hbase hstep).1) (inv_new quota)
  have hquota := hinv.quota
  refine ⟨fun cache minTs => ?_, fun e s' hstep => (hinv.step hbase hstep).2,
    fun key t c hk hc hlt ts hts => ?_, hinv.tracks.heap, hquota, fun hmax => ?_⟩
  · obtain ⟨ts, resolver, heq, -⟩ := hinv.resolve cache minTs
    exact ⟨_, .resolve heq⟩
  · exact (hinv.returned ts hts).trans_lt (hinv.below key t c hk hc hlt)
  · rw [drop, free_eq (by omega) hmax]
    simp only
    omega

/-- A key that is tracked already and a key that the quota has no room for are not tracked. Once the
first lock is gone, the second one holds back what `resolve` returns. -/
theorem resolved_below_commits_tracked : ∃ s : Tracking,
    Exec (TrackStep fun t => some (t + 20)) { quota := ⟨0, 30⟩ }
      [.track 5 [1], .track 7 [2, 2], .track 6 [1], .track 9 (List.replicate 12 3),
        .resolve (fun _ => none) 8, .untrack [1], .resolve (fun _ => none) 9] s ∧
    s.returned = [7, 5] ∧ (∀ ts ∈ s.returned, ts < 27) ∧ s.quota.inUse = s.charged ∧
    s.drop.inUse = 0 := by
  have hrun : Exec (TrackStep fun t => some (t + 20)) { quota := ⟨0, 30⟩ }
      [.track 5 [1], .track 7 [2, 2], .track 6 [1], .track 9 (List.replicate 12 3),
        .resolve (fun _ => none) 8, .untrack [1], .resolve (fun _ => none) 9] _ :=
    .cons (.track fun _ _ _ => nofun) (.cons (.track fun _ _ _ => nofun)
      (.cons (.track fun _ _ _ => nofun) (.cons (.track fun _ _ _ => nofun)
        (.cons (.resolve rfl) (.cons .untrack (.cons (.resolve rfl) (.nil _)))))))
  obtain ⟨-, -, hbelow, -, hquota, hdrop⟩ := resolved_below_commits le_rfl hrun
  exact ⟨_, hrun, rfl, hbelow [2, 2] 7 27 rfl rfl (by decide), hquota.trans (zero_add _),
    hdrop (by decide)⟩

end Tracking

end Tikv.ResolvedTs
