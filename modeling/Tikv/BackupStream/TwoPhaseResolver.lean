import Mathlib.Data.List.Infix
import Tikv.Foundation.Execution
import Tikv.ResolvedTs.Resolver

/-!
# The two-phase resolver of log backup

When log backup starts to observe a region, the region's locks are scanned, while the events of
locks that are taken and released keep coming in. The resolver has to end up with the locks that are
really there, although the scan shows the region at some point of the events, and its locks arrive
in between them.

In phase one the scanned locks go to the resolver, and the events are put aside; `phase_one_done`
then replays them on top, from the first one on. That does no harm: a lock on a key that has one is
ignored, an unlock of a key without a lock too, and where a replayed unlock removes a lock that was
taken later, that later lock is among the events as well (**`replayAll_liveAfter`**).
-/

namespace Tikv.BackupStream

open ResolvedTs List Option Function

variable {K : Type} [DecidableEq K]

/-- An event that comes while the scan is going on. -/
inductive FutureLock (K : Type)
  | lock (key : K) (ts generation : ℕ)
  | unlock (key : K)

structure TwoPhaseResolver (K : Type) where
  resolver : Resolver K := {}
  futureLocks : List (FutureLock K) := []
  /-- The start timestamp of the initial scan, as long as it is going on. -/
  stableTs : Option ℕ := none

namespace TwoPhaseResolver

variable (r : TwoPhaseResolver K)

def inPhaseOne : Bool := r.stableTs.isSome

def trackPhaseOneLock (startTs : ℕ) (key : K) (generation : ℕ) : TwoPhaseResolver K :=
  { r with resolver := r.resolver.trackLock startTs key generation }

def trackLock (startTs : ℕ) (key : K) (generation : ℕ) : TwoPhaseResolver K :=
  if r.inPhaseOne then { r with futureLocks := r.futureLocks ++ [.lock key startTs generation] }
  else { r with resolver := r.resolver.trackLock startTs key generation }

def untrackLock (key : K) : TwoPhaseResolver K :=
  if r.inPhaseOne then { r with futureLocks := r.futureLocks ++ [.unlock key] }
  else { r with resolver := r.resolver.untrackLock key }

def handleFutureLock (resolver : Resolver K) : FutureLock K → Resolver K
  | .lock key ts generation => resolver.trackLock ts key generation
  | .unlock key => resolver.untrackLock key

def resolve (cache : ℕ → Option TxnState) (minTs : ℕ) : Except Panic (ℕ × TwoPhaseResolver K) :=
  match r.stableTs with
  | some stableTs => return (min minTs stableTs, r)
  | none => do
    let (ts, resolver) ← r.resolver.resolve cache minTs
    return (ts, { r with resolver })

def new (stableTs : Option ℕ) : TwoPhaseResolver K := { stableTs }

def phaseOneDone (cache : ℕ → Option TxnState) : Except Panic (TwoPhaseResolver K) := do
  let resolver := r.futureLocks.foldl handleFutureLock r.resolver
  match r.stableTs with
  | some ts =>
    -- The start timestamp of the scan has been a resolved timestamp before.
    let (_, resolver) ← resolver.resolve cache ts
    return { resolver }
  | none => return { resolver }

end TwoPhaseResolver

open TwoPhaseResolver

/-! ### Histories of locks -/

/-- A lock is taken or released. -/
inductive LockEvent (K : Type)
  | lock (key : K) (startTs : ℕ)
  | unlock (key : K)
  deriving DecidableEq

namespace LockEvent

/-- The locks after the event. -/
def apply (live : K → Option ℕ) : LockEvent K → K → Option ℕ
  | .lock key startTs => update live key (some startTs)
  | .unlock key => update live key none

/-- A key with a lock is not locked by a second transaction. -/
def Admits (live : K → Option ℕ) : LockEvent K → Prop
  | .lock key startTs => live key = none ∨ live key = some startTs
  | .unlock _ => True

/-- What a resolver makes of the event: the lock that came first stays. -/
def replay (tracked : K → Option ℕ) : LockEvent K → K → Option ℕ
  | .lock key startTs =>
    if tracked key = none then update tracked key (some startTs) else tracked
  | .unlock key => update tracked key none

variable {live tracked : K → Option ℕ} {e : LockEvent K}

theorem replay_lock (tracked : K → Option ℕ) (key : K) (startTs : ℕ) (k : K) :
    (lock key startTs).replay tracked k =
      if k = key ∧ tracked key = none then some startTs else tracked k := by
  rw [replay]
  split_ifs with hnone hk hk
  · rw [hk.1, update_self]
  · exact update_of_ne (fun heq => hk ⟨heq, hnone⟩) _ _
  · exact absurd hk.2 hnone
  · rfl

theorem replay_of_admits (h : e.Admits live) : e.replay live = e.apply live := by
  cases e with
  | lock key startTs =>
    rw [replay, apply]
    split
    · rfl
    · rename_i hsome
      rw [← h.resolve_left hsome, update_eq_self]
  | unlock key => rfl

/-- On every key the replay leaves the lock as it was or has the same effect as the event. -/
theorem replay_eq_or (e : LockEvent K) (tracked live : K → Option ℕ) (k : K) :
    e.replay tracked k = tracked k ∨ e.replay tracked k = e.apply live k := by
  cases e with
  | lock key startTs =>
    rw [replay_lock]
    split_ifs with hk
    · rw [apply, hk.1, update_self]
      exact .inr rfl
    · exact .inl rfl
  | unlock key =>
    rw [replay, apply, update_apply, update_apply]
    split
    · exact .inr rfl
    · exact .inl rfl

theorem replay_congr {tracked' : K → Option ℕ} (e : LockEvent K) {k : K}
    (h : tracked k = tracked' k) : e.replay tracked k = e.replay tracked' k := by
  cases e with
  | lock key startTs =>
    rw [replay_lock, replay_lock, h]
    refine if_congr (and_congr_right fun hk => ?_) rfl rfl
    rw [← hk, h]
  | unlock key => rw [replay, replay, update_apply, update_apply, h]

end LockEvent

open LockEvent

/-- The locks after the events. -/
def liveAfter (live : K → Option ℕ) (events : List (LockEvent K)) : K → Option ℕ :=
  events.foldl apply live

def replayAll (tracked : K → Option ℕ) (events : List (LockEvent K)) : K → Option ℕ :=
  events.foldl replay tracked

/-- A key is locked by a second transaction only after an unlock of the first. -/
def Admissible (live : K → Option ℕ) : List (LockEvent K) → Prop
  | [] => True
  | e :: events => e.Admits live ∧ Admissible (e.apply live) events

section History

variable {live tracked tracked' : K → Option ℕ} {events events' : List (LockEvent K)} {k : K}

theorem Admissible.append : Admissible live (events ++ events') ↔
    Admissible live events ∧ Admissible (liveAfter live events) events' := by
  induction events generalizing live with
  | nil => exact ⟨fun h => ⟨trivial, h⟩, And.right⟩
  | cons e events ih => rw [cons_append, Admissible, ih, Admissible, and_assoc]; rfl

theorem replayAll_congr (h : tracked k = tracked' k) :
    replayAll tracked events k = replayAll tracked' events k := by
  induction events generalizing tracked tracked' with
  | nil => exact h
  | cons e events ih => exact ih (e.replay_congr h)

section

variable (h : Admissible live events)
include h

theorem replayAll_of_admissible :
    replayAll live events = liveAfter live events := by
  induction events generalizing live with
  | nil => rfl
  | cons e events ih =>
    have hstep : replayAll live (e :: events) = replayAll (e.replay live) events := rfl
    rw [hstep, replay_of_admits h.1, ih h.2]
    rfl

/-- To replay events on top of the locks they end with changes nothing. -/
theorem replayAll_liveAfter :
    replayAll (liveAfter live events) events = liveAfter live events := by
  funext k
  induction events generalizing live with
  | nil => rfl
  | cons e events ih =>
    rcases e.replay_eq_or (liveAfter (e.apply live) events) live k with hk | hk
    · exact (replayAll_congr hk).trans (ih h.2)
    -- From here on the replay does what the events did.
    · exact (replayAll_congr hk).trans (congrFun (replayAll_of_admissible h.2) k)

theorem replayAll_liveAfter_take (p : ℕ) :
    replayAll (liveAfter live (events.take p)) events = liveAfter live events := by
  rw [← take_append_drop p events, Admissible.append] at h
  have happend : replayAll (liveAfter live (events.take p)) events =
      replayAll (replayAll (liveAfter live (events.take p)) (events.take p)) (events.drop p) := by
    rw [replayAll, replayAll, replayAll, ← foldl_append, take_append_drop]
  rw [happend, replayAll_liveAfter h.1, replayAll_of_admissible h.2, liveAfter, liveAfter,
    ← foldl_append, take_append_drop, liveAfter]

end

/-- The scanned locks, tracked one after the other. -/
def scannedLocks (scanned : List (K × ℕ)) : K → Option ℕ :=
  replayAll (fun _ => none) (scanned.map fun l => .lock l.1 l.2)

theorem scannedLocks_concat (scanned : List (K × ℕ)) (l : K × ℕ) :
    scannedLocks (scanned ++ [l]) = (lock l.1 l.2).replay (scannedLocks scanned) := by
  rw [scannedLocks, replayAll, map_append, foldl_append]
  rfl

/-- A scan of a set of locks tracks this set. -/
theorem scannedLocks_eq {scanned : List (K × ℕ)} {locks : K → Option ℕ}
    (h : ∀ k t, (k, t) ∈ scanned ↔ locks k = some t) : scannedLocks scanned = locks := by
  -- A lock that is tracked was scanned, and a key with a scanned lock has a tracked one.
  have hmem : ∀ k, (∀ t, scannedLocks scanned k = some t → (k, t) ∈ scanned) ∧
      ∀ t, (k, t) ∈ scanned → scannedLocks scanned k ≠ none := by
    intro k
    clear h
    induction scanned using reverseRecOn with
    | nil => exact ⟨nofun, nofun⟩
    | append_singleton scanned l ih =>
      rw [scannedLocks_concat, replay_lock]
      obtain ⟨hsound, hcomplete⟩ := ih
      split_ifs with hk
      · obtain ⟨rfl, -⟩ := hk
        refine ⟨fun t ht => ?_, fun _ _ => nofun⟩
        cases ht
        exact mem_append_right _ mem_cons_self
      · refine ⟨fun t ht => mem_append_left _ (hsound t ht), fun t ht => ?_⟩
        rcases mem_append.mp ht with ht | ht
        · exact hcomplete t ht
        · obtain rfl := mem_singleton.mp ht
          exact fun hnone => hk ⟨rfl, hnone⟩
  funext k
  obtain ⟨hsound, hcomplete⟩ := hmem k
  cases hk : scannedLocks scanned k with
  | some t => exact ((h k t).mp (hsound t hk)).symm
  | none =>
    cases hlock : locks k with
    | none => rfl
    | some t => exact absurd hk (hcomplete t ((h k t).mpr hlock))

end History

/-! ### Runs -/

/-- A resolver with what it has been called with. -/
structure Observation (K : Type) where
  resolver : TwoPhaseResolver K
  /-- The events since observation started that have been delivered. -/
  events : List (LockEvent K) := []
  /-- The locks of the scan that have been delivered. -/
  scanned : List (K × ℕ) := []
  /-- The timestamps `resolve` was called with. -/
  passed : List ℕ := []
  /-- What it returned since phase one is done. -/
  answers : List ℕ := []

inductive Call (K : Type)
  | trackPhaseOneLock (startTs : ℕ) (key : K)
  | event (e : LockEvent K)
  | resolve (cache : ℕ → Option TxnState) (minTs : ℕ)
  | phaseOneDone (cache : ℕ → Option TxnState)

namespace TwoPhaseResolver

/-- An event of a transaction that is not pipelined. -/
def deliver (r : TwoPhaseResolver K) : LockEvent K → TwoPhaseResolver K
  | .lock key startTs => r.trackLock startTs key 0
  | .unlock key => r.untrackLock key

end TwoPhaseResolver

/-- The calls on the resolver of a region that has the locks `live` when observation starts. -/
inductive Step (live : K → Option ℕ) : Observation K → Call K → Observation K → Prop
  | trackPhaseOneLock {o : Observation K} {startTs : ℕ} {key : K}
      (hphase : o.resolver.inPhaseOne = true) :
    Step live o (.trackPhaseOneLock startTs key)
      { o with
        resolver := o.resolver.trackPhaseOneLock startTs key 0
        scanned := o.scanned ++ [(key, startTs)] }
  | event {o : Observation K} {e : LockEvent K} (hadmits : e.Admits (liveAfter live o.events)) :
    Step live o (.event e)
      { o with resolver := o.resolver.deliver e, events := o.events ++ [e] }
  | resolve {o : Observation K} {cache : ℕ → Option TxnState} {minTs ts : ℕ}
      {r : TwoPhaseResolver K} (h : o.resolver.resolve cache minTs = .ok (ts, r)) :
    Step live o (.resolve cache minTs)
      { o with
        resolver := r
        passed := minTs :: o.passed
        answers := if o.resolver.inPhaseOne then o.answers else ts :: o.answers }
  | phaseOneDone {o : Observation K} {cache : ℕ → Option TxnState} {r : TwoPhaseResolver K}
      (hphase : o.resolver.inPhaseOne = true) (h : o.resolver.phaseOneDone cache = .ok r) :
    Step live o (.phaseOneDone cache) { o with resolver := r }

/-- A lock that comes now has a start timestamp no smaller than those `resolve` was called
with. The start timestamp of the scan is one of them once `phase_one_done` has passed it on. -/
def MinTsOk (stableTs : ℕ) (o : Observation K) : Call K → Prop
  | .event (.lock _ startTs) => (∀ minTs ∈ o.passed, minTs ≤ startTs) ∧
    (o.resolver.inPhaseOne = false → stableTs ≤ startTs)
  | _ => True

/-- The locks of the scan are those after the first `p` of the delivered events. -/
def ScanReads (live : K → Option ℕ) (o : Observation K) : Prop :=
  ∃ p ≤ o.events.length, ∀ k t,
    (k, t) ∈ o.scanned ↔ liveAfter live (o.events.take p) k = some t

/-- What has come in when the scan starts. -/
def Observation.start (stableTs : ℕ) : Observation K := { resolver := .new (some stableTs) }

def LockEvent.toFutureLock : LockEvent K → FutureLock K
  | .lock key startTs => .lock key startTs 0
  | .unlock key => .unlock key

section Resolver

variable {r : Resolver K}

theorem handleFutureLock_spec (h : r.Tracks) (e : LockEvent K) :
    (handleFutureLock r e.toFutureLock).Tracks ∧
      (handleFutureLock r e.toFutureLock).tracked = e.replay r.tracked ∧
      (handleFutureLock r e.toFutureLock).resolvedTs = r.resolvedTs := by
  cases e with
  | lock key startTs =>
    refine ⟨h.trackLock startTs key, funext fun k => ?_, r.resolvedTs_trackLock startTs key 0⟩
    rw [toFutureLock, handleFutureLock, Resolver.tracked_trackLock,
      replay_lock]
  | unlock key =>
    refine ⟨h.untrackLock key, funext fun k => ?_, r.resolvedTs_untrackLock key⟩
    rw [toFutureLock, handleFutureLock, h.tracked_untrackLock,
      replay, update_apply]

theorem handleFutureLocks_spec (h : r.Tracks) (events : List (LockEvent K)) :
    ((events.map toFutureLock).foldl handleFutureLock r).Tracks ∧
      ((events.map toFutureLock).foldl handleFutureLock r).tracked =
        replayAll r.tracked events ∧
      ((events.map toFutureLock).foldl handleFutureLock r).resolvedTs =
        r.resolvedTs := by
  induction events generalizing r with
  | nil => exact ⟨h, rfl, rfl⟩
  | cons e events ih =>
    obtain ⟨htracks, htracked, hts⟩ := handleFutureLock_spec h e
    obtain ⟨hall, heq, hresolved⟩ := ih htracks
    refine ⟨hall, heq.trans ?_, hresolved.trans hts⟩
    rw [htracked]
    rfl

end Resolver

namespace TwoPhaseResolver

variable {r : TwoPhaseResolver K}

omit [DecidableEq K] in
theorem stableTs_of_phaseTwo (h : r.inPhaseOne = false) : r.stableTs = none :=
  isNone_iff_eq_none.mp (by rw [← not_isSome, ← inPhaseOne, h]; rfl)

theorem deliver_of_phaseOne (h : r.inPhaseOne = true) (e : LockEvent K) :
    r.deliver e = { r with futureLocks := r.futureLocks ++ [e.toFutureLock] } := by
  cases e with
  | lock key startTs => rw [deliver, trackLock, if_pos h]; rfl
  | unlock key => rw [deliver, untrackLock, if_pos h]; rfl

theorem deliver_of_phaseTwo (h : r.inPhaseOne = false) (e : LockEvent K) :
    r.deliver e = { r with resolver := handleFutureLock r.resolver e.toFutureLock } := by
  have hnot : ¬ r.inPhaseOne = true := by rw [h]; exact Bool.false_ne_true
  cases e with
  | lock key startTs => rw [deliver, trackLock, if_neg hnot]; rfl
  | unlock key => rw [deliver, untrackLock, if_neg hnot]; rfl

omit [DecidableEq K] in
theorem resolve_of_phaseOne {stableTs : ℕ} (h : r.stableTs = some stableTs)
    (cache : ℕ → Option TxnState) (minTs : ℕ) :
    r.resolve cache minTs = .ok (min minTs stableTs, r) := by
  rw [resolve, h]
  rfl

theorem resolve_of_phaseTwo (h : r.inPhaseOne = false) (htracks : r.resolver.Tracks)
    (cache : ℕ → Option TxnState) (minTs : ℕ) :
    ∃ ts m, r.resolve cache minTs =
        .ok (ts, { r with resolver := { r.resolver with resolvedTs := ts, minTs := m } }) ∧
      r.resolver.resolvedTs ≤ ts ∧ (ts = r.resolver.resolvedTs ∨
        ts ≤ minTs ∧ ∀ k t, r.resolver.tracked k = some t → ts ≤ t) := by
  obtain ⟨ts, m, heq, hspec⟩ := htracks.resolve_spec cache minTs
  refine ⟨ts, m, ?_, hspec⟩
  rw [resolve, stableTs_of_phaseTwo h]
  simp only [heq]
  rfl

end TwoPhaseResolver

/-- What is known after calls that keep to the history. -/
structure Observation.Inv (live : K → Option ℕ) (stableTs : ℕ) (o : Observation K) : Prop where
  admissible : Admissible live o.events
  tracks : o.resolver.resolver.Tracks
  stable : ∀ ts, o.resolver.stableTs = some ts → ts = stableTs
  future : o.resolver.inPhaseOne = true →
    o.resolver.futureLocks = o.events.map toFutureLock
  scanned : o.resolver.inPhaseOne = true →
    o.resolver.resolver.tracked = scannedLocks o.scanned
  tracked : o.resolver.inPhaseOne = false →
    o.resolver.resolver.tracked = replayAll (scannedLocks o.scanned) o.events
  unresolved : o.resolver.inPhaseOne = true →
    o.resolver.resolver.resolvedTs = 0 ∧ o.answers = []
  answers : ∀ a ∈ o.answers, a ≤ o.resolver.resolver.resolvedTs

namespace Observation

variable {live : K → Option ℕ} {stableTs : ℕ} {o o' : Observation K} {c : Call K}

theorem Inv.start (live : K → Option ℕ) (stableTs : ℕ) :
    (Observation.start stableTs : Observation K).Inv live stableTs where
  admissible := trivial
  tracks := .new
  stable := fun _ h => (some.inj h).symm
  future := fun _ => rfl
  scanned := fun _ => funext fun _ => AList.lookup_empty _
  tracked := nofun
  unresolved := fun _ => ⟨rfl, rfl⟩
  answers := nofun

section

variable (h : o.Inv live stableTs)
include h

/-- The scan may hand in its locks at any time of phase one. -/
theorem Inv.trackPhaseOneLock (hphase : o.resolver.inPhaseOne = true) (startTs : ℕ) (key : K) :
    Inv live stableTs { o with
      resolver := o.resolver.trackPhaseOneLock startTs key 0
      scanned := o.scanned ++ [(key, startTs)] } := by
  obtain ⟨htracks, htracked, hts⟩ := handleFutureLock_spec h.tracks (.lock key startTs)
  exact {
    h with
    tracks := htracks
    scanned := fun _ => by
      rw [scannedLocks_concat, ← h.scanned hphase]
      exact htracked
    tracked := fun htwo => nomatch hphase.symm.trans htwo
    unresolved := fun _ => ⟨hts.trans (h.unresolved hphase).1, (h.unresolved hphase).2⟩
    answers := fun a ha => (h.answers a ha).trans hts.ge }

/-- An event is kept for later in phase one, and tracked after it. -/
theorem Inv.event {e : LockEvent K} (hadmits : e.Admits (liveAfter live o.events)) :
    Inv live stableTs
      { o with resolver := o.resolver.deliver e, events := o.events ++ [e] } := by
  have hadmissible : Admissible live (o.events ++ [e]) :=
    Admissible.append.mpr ⟨h.admissible, hadmits, trivial⟩
  cases hphase : o.resolver.inPhaseOne with
  | true =>
    rw [deliver_of_phaseOne hphase]
    exact {
      h with
      admissible := hadmissible
      future := fun _ => by
        rw [map_append, ← h.future hphase]
        rfl
      tracked := fun htwo => nomatch hphase.symm.trans htwo }
  | false =>
    rw [deliver_of_phaseTwo hphase]
    obtain ⟨htracks, htracked, hts⟩ := handleFutureLock_spec h.tracks e
    exact {
      h with
      admissible := hadmissible
      tracks := htracks
      future := fun hone => nomatch hphase.symm.trans hone
      scanned := fun hone => nomatch hphase.symm.trans hone
      tracked := fun _ => by
        rw [replayAll, foldl_append]
        rw [h.tracked hphase] at htracked
        exact htracked
      unresolved := fun hone => nomatch hphase.symm.trans hone
      answers := fun a ha => (h.answers a ha).trans hts.ge }

variable {cache : ℕ → Option TxnState}

/-- `resolve` leaves the tracked locks, and its answers do not decrease. -/
theorem Inv.resolve {minTs ts : ℕ} {r : TwoPhaseResolver K}
    (hr : o.resolver.resolve cache minTs = .ok (ts, r)) :
    Inv live stableTs { o with
      resolver := r
      passed := minTs :: o.passed
      answers := if o.resolver.inPhaseOne then o.answers else ts :: o.answers } := by
  cases hphase : o.resolver.inPhaseOne with
  | true =>
    obtain ⟨stable, hstable⟩ := isSome_iff_exists.mp hphase
    cases (resolve_of_phaseOne hstable cache minTs).symm.trans hr
    exact { h with }
  | false =>
    obtain ⟨ts', m, heq, hle, -⟩ :=
      resolve_of_phaseTwo hphase h.tracks cache minTs
    cases heq.symm.trans hr
    exact {
      h with
      tracks := { h.tracks with }
      unresolved := fun hone => nomatch hphase.symm.trans hone
      answers := forall_mem_cons.mpr ⟨le_rfl, fun a ha => (h.answers a ha).trans hle⟩ }

/-- The end of phase one: the events are replayed, and the resolver starts to resolve. -/
theorem Inv.phaseOneDone_eq (hphase : o.resolver.inPhaseOne = true) (cache : ℕ → Option TxnState) :
    ∃ resolver, o.resolver.phaseOneDone cache = .ok { resolver } ∧ resolver.Tracks ∧
      resolver.tracked = replayAll (scannedLocks o.scanned) o.events ∧
      resolver.resolvedTs ≤ stableTs ∧
      ∀ k t, resolver.tracked k = some t → resolver.resolvedTs ≤ t := by
  obtain ⟨stable, hstable⟩ := isSome_iff_exists.mp hphase
  obtain rfl := h.stable _ hstable
  obtain ⟨htracks, htracked, hts⟩ := handleFutureLocks_spec h.tracks o.events
  rw [← h.future hphase] at htracks htracked hts
  obtain ⟨ts, m, heq, hle, hbound⟩ := htracks.resolve_spec cache stable
  refine ⟨{ o.resolver.futureLocks.foldl handleFutureLock o.resolver.resolver with
    resolvedTs := ts, minTs := m }, ?_, { htracks with }, ?_, ?_⟩
  · rw [phaseOneDone, hstable]
    simp only [heq]
    rfl
  · rw [← h.scanned hphase]
    exact htracked
  · -- Nothing has been resolved before.
    rw [hts, (h.unresolved hphase).1] at hbound
    rcases hbound with hzero | ⟨hmin, hlocks⟩
    · exact ⟨hzero ▸ Nat.zero_le _, fun _ _ _ => hzero ▸ Nat.zero_le _⟩
    · exact ⟨hmin, hlocks⟩

theorem Inv.phaseOneDone (hphase : o.resolver.inPhaseOne = true) {r : TwoPhaseResolver K}
    (hr : o.resolver.phaseOneDone cache = .ok r) :
    Inv live stableTs { o with resolver := r } := by
  obtain ⟨resolver, heq, htracks, htracked, -⟩ := h.phaseOneDone_eq hphase cache
  cases heq.symm.trans hr
  exact {
    admissible := h.admissible
    tracks := htracks
    stable := nofun
    future := nofun
    scanned := nofun
    tracked := fun _ => htracked
    unresolved := nofun
    answers := by
      rw [(h.unresolved hphase).2]
      nofun }

theorem Inv.step (hstep : Step live o c o') : o'.Inv live stableTs := by
  cases hstep with
  | trackPhaseOneLock hphase => exact h.trackPhaseOneLock hphase _ _
  | event hadmits => exact h.event hadmits
  | resolve hr => exact h.resolve hr
  | phaseOneDone hphase hr => exact h.phaseOneDone hphase hr

end

/-- The resolved timestamp is below every tracked lock, and below every lock to come. -/
def Resolved (stableTs : ℕ) (o : Observation K) : Prop :=
  o.resolver.inPhaseOne = false →
    (∀ k t, o.resolver.resolver.tracked k = some t → o.resolver.resolver.resolvedTs ≤ t) ∧
    (o.resolver.resolver.resolvedTs ≤ stableTs ∨
      ∃ minTs ∈ o.passed, o.resolver.resolver.resolvedTs ≤ minTs)

/-- A lock that starts above all timestamps passed does not start below the resolved one. -/
theorem Resolved.event {e : LockEvent K} (hinv : o.Inv live stableTs) (h : o.Resolved stableTs)
    (hok : MinTsOk stableTs o (.event e)) :
    Resolved stableTs
      { o with resolver := o.resolver.deliver e, events := o.events ++ [e] } := by
  intro htwo
  have hphase : o.resolver.inPhaseOne = false := by
    rw [← htwo]
    cases hphase : o.resolver.inPhaseOne with
    | true => rw [deliver_of_phaseOne hphase]; exact hphase.symm
    | false => rw [deliver_of_phaseTwo hphase]; exact hphase.symm
  obtain ⟨hlocks, hpassed⟩ := h hphase
  obtain ⟨-, htracked, hts⟩ := handleFutureLock_spec hinv.tracks e
  rw [deliver_of_phaseTwo hphase]
  rw [htracked, hts]
  refine ⟨fun k t hk => ?_, hpassed⟩
  rcases e.replay_eq_or o.resolver.resolver.tracked (fun _ => none) k with hsame | hnew
  · exact hlocks k t (hsame.symm.trans hk)
  rw [hnew] at hk
  cases e with rw [apply, update_apply] at hk
  | lock key startTs =>
    split at hk <;> cases hk
    rcases hpassed with hstable | ⟨minTs, hmem, hle⟩
    · exact hstable.trans (hok.2 hphase)
    · exact hle.trans (hok.1 minTs hmem)
  | unlock key => split at hk <;> cases hk

/-- Calls with timestamps below the locks to come keep the resolved timestamp below the locks. -/
theorem Resolved.step (hinv : o.Inv live stableTs) (h : o.Resolved stableTs)
    (hstep : Step live o c o') (hok : MinTsOk stableTs o c) : o'.Resolved stableTs := by
  cases hstep with
  | trackPhaseOneLock hphase =>
    intro htwo
    exact nomatch hphase.symm.trans htwo
  | event hadmits => exact h.event hinv hok
  | @resolve cache minTs ts r hr =>
    intro htwo
    cases hphase : o.resolver.inPhaseOne with
    | true =>
      obtain ⟨stable, hstable⟩ := isSome_iff_exists.mp hphase
      cases (resolve_of_phaseOne hstable cache minTs).symm.trans hr
      exact nomatch hphase.symm.trans htwo
    | false =>
      obtain ⟨hlocks, hpassed⟩ := h hphase
      obtain ⟨ts', m, heq, -, hbound⟩ :=
        resolve_of_phaseTwo hphase hinv.tracks cache minTs
      cases heq.symm.trans hr
      rcases hbound with rfl | ⟨hmin, hnew⟩
      · refine ⟨hlocks, hpassed.imp_right ?_⟩
        rintro ⟨minTs', hmem, hle⟩
        exact ⟨minTs', mem_cons_of_mem _ hmem, hle⟩
      · exact ⟨hnew, .inr ⟨minTs, mem_cons_self, hmin⟩⟩
  | phaseOneDone hphase hr =>
    obtain ⟨resolver, heq, -, -, hstable, hlocks⟩ := hinv.phaseOneDone_eq hphase _
    cases heq.symm.trans hr
    exact fun _ => ⟨hlocks, .inl hstable⟩

end Observation

open Observation

/-- For every history in which a key is locked by a second transaction only after an unlock of the
first, and every order of the calls: in phase one `resolve` stays below the start timestamp of the
scan, and after it `resolve` never decreases; once phase one is done and the events up to the point
that the scan read have been delivered, the tracked locks are those that are live after the
delivered events; and then `resolve` stays below all live locks, if no lock starts below a
timestamp that was passed before, the start timestamp of the scan among them. -/
theorem twoPhaseResolver_tracks_live {live : K → Option ℕ} {stableTs : ℕ} {calls : List (Call K)}
    {o : Observation K} (hrun : Exec (Step live) (.start stableTs) calls o) :
    (o.resolver.inPhaseOne = true → ∀ cache minTs, ∃ ts r,
      o.resolver.resolve cache minTs = .ok (ts, r) ∧ ts ≤ stableTs) ∧
    (o.resolver.inPhaseOne = false → ∀ cache minTs, ∃ ts r,
      o.resolver.resolve cache minTs = .ok (ts, r) ∧ ∀ a ∈ o.answers, a ≤ ts) ∧
    (o.resolver.inPhaseOne = false → ScanReads live o →
      o.resolver.resolver.tracked = liveAfter live o.events) ∧
    (Exec (fun o c o' => Step live o c o' ∧ MinTsOk stableTs o c) (.start stableTs) calls o →
      o.resolver.inPhaseOne = false → ScanReads live o → ∀ cache minTs, ∃ ts r,
        o.resolver.resolve cache minTs = .ok (ts, r) ∧
        ∀ k t, liveAfter live o.events k = some t → ts ≤ t) := by
  have hinv := hrun.invariant (fun _ _ _ h hstep => h.step hstep)
    (Observation.Inv.start live stableTs)
  have htracked : o.resolver.inPhaseOne = false → ScanReads live o →
      o.resolver.resolver.tracked = liveAfter live o.events := by
    rintro hphase ⟨p, -, hscan⟩
    rw [hinv.tracked hphase, scannedLocks_eq hscan, replayAll_liveAfter_take hinv.admissible]
  refine ⟨fun hphase cache minTs => ?_, fun hphase cache minTs => ?_, htracked,
    fun hok hphase hscan cache minTs => ?_⟩
  · obtain ⟨stable, hstable⟩ := isSome_iff_exists.mp hphase
    obtain rfl := hinv.stable _ hstable
    exact ⟨_, _, resolve_of_phaseOne hstable cache minTs, min_le_right _ _⟩
  · obtain ⟨ts, m, heq, hle, -⟩ := resolve_of_phaseTwo hphase hinv.tracks cache minTs
    exact ⟨ts, _, heq, fun a ha => (hinv.answers a ha).trans hle⟩
  · have hresolved := hok.invariant (I := fun o => o.Inv live stableTs ∧ o.Resolved stableTs)
      (fun _ _ _ h hstep => ⟨h.1.step hstep.1, h.2.step h.1 hstep.1 hstep.2⟩)
      ⟨.start live stableTs, nofun⟩
    obtain ⟨hlocks, -⟩ := hresolved.2 hphase
    obtain ⟨ts, m, heq, -, hbound⟩ := resolve_of_phaseTwo hphase hinv.tracks cache minTs
    refine ⟨ts, _, heq, ?_⟩
    rw [← htracked hphase hscan]
    intro k t hk
    rcases hbound with rfl | ⟨-, hnew⟩
    · exact hlocks k t hk
    · exact hnew k t hk

section Instance

/-- Observation starts with a lock on the key 1. -/
def lockedFirst : ℕ → Option ℕ := fun k => if k = 1 then some 5 else none

/-- The scan reads the lock that is taken after the first one is gone, and comes between the
events. -/
def scanCalls : List (Call ℕ) :=
  [.event (.unlock 1), .trackPhaseOneLock 20 1, .event (.lock 1 20),
    .phaseOneDone fun _ => none, .resolve (fun _ => none) 15, .event (.lock 2 30)]

/-- The run of `scanCalls`: the second lock of the key is tracked, and holds `resolve` back. -/
theorem twoPhaseResolver_tracks_live_scan : ∃ o,
    Exec (fun o c o' => Step lockedFirst o c o' ∧ MinTsOk 10 o c) (.start 10) scanCalls o ∧
      o.resolver.inPhaseOne = false ∧ ScanReads lockedFirst o ∧
      o.resolver.resolver.tracked = liveAfter lockedFirst o.events ∧
      liveAfter lockedFirst o.events 1 = some 20 ∧
      ∃ ts r, o.resolver.resolve (fun _ => none) 40 = .ok (ts, r) ∧ 15 ≤ ts ∧
        ∀ k t, liveAfter lockedFirst o.events k = some t → ts ≤ t := by
  have hrun : ∃ o, Exec (fun o c o' => Step lockedFirst o c o' ∧ MinTsOk 10 o c)
      (.start 10) scanCalls o ∧ o.resolver.inPhaseOne = false ∧
      o.events = [.unlock 1, .lock 1 20, .lock 2 30] ∧ o.scanned = [(1, 20)] ∧
      o.answers = [15] := by
    refine ⟨_, .cons ⟨.event trivial, trivial⟩ <| .cons ⟨.trackPhaseOneLock rfl, trivial⟩ <|
      .cons ⟨.event (.inl rfl), nofun, nofun⟩ <| .cons ⟨.phaseOneDone rfl rfl, trivial⟩ <|
      .cons ⟨.resolve rfl, trivial⟩ <| .cons ⟨.event (.inl rfl), ?_, fun _ => by decide⟩ <|
      .nil _, rfl, rfl, rfl, rfl⟩
    exact forall_mem_singleton.mpr (by decide)
  obtain ⟨o, hrun, hphase, hevents, hscanned, hanswers⟩ := hrun
  have hscan : ScanReads lockedFirst o := by
    refine ⟨2, by rw [hevents]; decide, fun k t => ?_⟩
    rw [hevents, hscanned]
    by_cases hk : k = 1
    · subst hk
      simp [liveAfter, apply, eq_comm]
    · simp [liveAfter, apply, hk, lockedFirst]
  obtain ⟨-, hmono, htracked, hresolve⟩ := twoPhaseResolver_tracks_live
    (hrun.mono fun _ _ _ h => h.1)
  obtain ⟨ts, r, heq, hlocks⟩ := hresolve hrun hphase hscan (fun _ => none) 40
  obtain ⟨ts', r', heq', hle⟩ := hmono hphase (fun _ => none) 40
  cases heq.symm.trans heq'
  exact ⟨o, hrun, hphase, hscan, htracked hphase hscan, by rw [hevents]; rfl, ts, r, heq,
    hle 15 (by rw [hanswers]; exact mem_cons_self), hlocks⟩

/-- A scan may be ahead of the delivered events: when phase one is done after the first of these
events and the scan has read the locks after all of them, the first lock is still live and the
last one is tracked. And `phase_one_done` resolves to the start timestamp of the scan, also if a
lock with a smaller start timestamp comes later. -/
theorem twoPhaseResolver_ahead_of_events :
    (∃ o : Observation ℕ, ∃ history : List (LockEvent ℕ),
      Exec (Step fun _ => none) (.start 5)
        [.event (.lock 1 10), .trackPhaseOneLock 20 1, .phaseOneDone fun _ => none] o ∧
      history = [.lock 1 10, .unlock 1, .lock 1 20] ∧ Admissible (fun _ => none) history ∧
      o.events = history.take 1 ∧
      (∀ k t, (k, t) ∈ o.scanned ↔ liveAfter (fun _ => none) history k = some t) ∧
      liveAfter (fun _ => none) o.events 1 = some 10 ∧ o.resolver.resolver.tracked 1 = some 20 ∧
      ∃ r, o.resolver.resolve (fun _ => none) 20 = .ok (20, r)) ∧
    ∃ o : Observation ℕ,
      Exec (Step fun _ => none) (.start 42)
        [.phaseOneDone fun _ => none, .event (.lock 1 30)] o ∧
      o.passed = [] ∧ ScanReads (fun _ => none) o ∧
      liveAfter (fun _ => none) o.events 1 = some 30 ∧
      ∃ r, o.resolver.resolve (fun _ => none) 30 = .ok (42, r) := by
  constructor
  · refine ⟨_, _, .cons (.event (.inl rfl)) <| .cons (.trackPhaseOneLock rfl) <|
      .cons (.phaseOneDone rfl rfl) <| .nil _, rfl, ⟨.inl rfl, trivial, .inl rfl, trivial⟩, rfl,
      fun k t => ?_, rfl, rfl, _, rfl⟩
    by_cases hk : k = 1
    · subst hk
      simp [liveAfter, apply, start, eq_comm]
    · simp [liveAfter, apply, start, hk]
  · refine ⟨_, .cons (.phaseOneDone rfl rfl) <| .cons (.event (.inl rfl)) <| .nil _, rfl,
      ⟨0, Nat.zero_le _, fun k t => ?_⟩, rfl, _, rfl⟩
    simp [liveAfter, start]

end Instance

end Tikv.BackupStream
