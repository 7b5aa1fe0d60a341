import Tikv.Foundation.AssocMap
import Tikv.Foundation.Execution
import Tikv.TxnTypes

/-!
# The cache of transaction statuses

The status of a transaction is cached in one of two caches, or in both. An ongoing transaction whose
`min_commit_ts` is above its start timestamp goes into the cache of large transactions, where it is
only ever raised. Everything else goes into the normal cache, and also replaces an ongoing entry of
the other one. `get` asks the cache of large transactions first.

The normal cache is not looked at on the way into the other one, so a late report of a
`min_commit_ts` hides that the transaction is committed or rolled back; and an ongoing state without
a `min_commit_ts` replaces one that has it. Without these two calls (`UpsertOk`) the status of a
transaction only advances (**`Advances`**), whatever else is upserted.

Nothing is evicted here, so slots and the order of use decide nothing and each cache is one map.
-/

namespace Tikv

open AssocMap

inductive TxnState
  | ongoing (minCommitTs : ℕ)
  | committed (commitTs : ℕ)
  | rolledBack
  deriving DecidableEq

namespace TxnState

def fromTs (startTs minCommitTs commitTs : ℕ) (rolledBack : Bool) : TxnState :=
  if rolledBack then .rolledBack
  else if commitTs = 0 then .ongoing (max startTs minCommitTs)
  else .committed commitTs

def isOngoing : TxnState → Bool
  | .ongoing _ => true
  | .committed _ | .rolledBack => false

/-- The state goes into the cache of large transactions. -/
def isLarge (startTs : ℕ) : TxnState → Bool
  | .ongoing minCommitTs => startTs < minCommitTs
  | .committed _ | .rolledBack => false

end TxnState

structure CacheEntry where
  state : TxnState
  /-- When the entry was inserted, in milliseconds. -/
  updateTime : ℕ

namespace CacheEntry

/-- A larger `min_commit_ts` replaces the one of an ongoing transaction. -/
def raise (existing entry : CacheEntry) : CacheEntry :=
  match existing.state, entry.state with
  | .ongoing existingMinCommitTs, .ongoing minCommitTs =>
    if existingMinCommitTs < minCommitTs then entry else existing
  | _, _ => existing

/-- The entry replaces that of an ongoing transaction. -/
def update (existing entry : CacheEntry) : Except Panic CacheEntry :=
  match existing.state with
  | .ongoing minCommitTs =>
    match entry.state with
    | .committed commitTs =>
      if minCommitTs ≤ commitTs then .ok entry else .error .assertion
    | .ongoing _ | .rolledBack => .ok entry
  -- Committed and rolled back transactions are not updated.
  | .committed _ | .rolledBack => .ok existing

end CacheEntry

abbrev TxnStatusCacheSlot := AssocMap.Map ℕ CacheEntry

structure TxnStatusCache where
  normalCache : TxnStatusCacheSlot := ∅
  largeTxnCache : TxnStatusCacheSlot := ∅
  isEnabled : Bool := true

namespace TxnStatusCache

def upsert (c : TxnStatusCache) (startTs : ℕ) (state : TxnState) (updateTime : ℕ) :
    Except Panic TxnStatusCache :=
  if !c.isEnabled then .ok c
  else
    let entry : CacheEntry := { state, updateTime }
    if state.isLarge startTs then
      match c.largeTxnCache.lookup startTs with
      | some existing =>
        .ok { c with largeTxnCache := c.largeTxnCache.insert startTs (existing.raise entry) }
      | none => .ok { c with largeTxnCache := c.largeTxnCache.insert startTs entry }
    else do
      let normal ← (match c.normalCache.lookup startTs with
        | some existing => existing.update entry
        | none => .ok entry)
      let normalCache := c.normalCache.insert startTs normal
      match c.largeTxnCache.lookup startTs with
      | some existing =>
        let large ← existing.update entry
        return { c with normalCache, largeTxnCache := c.largeTxnCache.insert startTs large }
      | none => return { c with normalCache }

def get (c : TxnStatusCache) (startTs : ℕ) : Option TxnState :=
  if !c.isEnabled then none
  else match c.largeTxnCache.lookup startTs with
    | some entry => some entry.state
    | none => (c.normalCache.lookup startTs).map (·.state)

/-! ### What a call does -/

variable (existing : Option CacheEntry) (entry : CacheEntry)

/-- An entry put over what a cache has: what is decided stays. -/
def putOver : CacheEntry :=
  match existing with
  | some existing => if existing.state.isOngoing then entry else existing
  | none => entry

/-- An entry put over one of the large transactions. -/
def raised : CacheEntry :=
  match existing with
  | some existing => existing.raise entry
  | none => entry

variable {c c' : TxnStatusCache} {startTs t updateTime : ℕ} {state : TxnState}

theorem update_eq {existing entry entry' : CacheEntry} (h : existing.update entry = .ok entry') :
    entry' = putOver (some existing) entry := by
  rw [CacheEntry.update] at h
  rw [putOver]
  cases hstate : existing.state with rw [hstate] at h
  | ongoing minCommitTs =>
    dsimp only at h
    split at h
    · split at h <;> cases h
      rfl
    all_goals
      cases h
      rfl
  | committed | rolledBack =>
    cases h
    rfl

/-- What `upsert` leaves in the two caches, if it is not disabled. -/
structure Upserted (c : TxnStatusCache) (startTs : ℕ) (entry : CacheEntry)
    (c' : TxnStatusCache) : Prop where
  isEnabled : c'.isEnabled = true
  normal : c'.normalCache = if entry.state.isLarge startTs then c.normalCache
    else c.normalCache.insert startTs (putOver (c.normalCache.lookup startTs) entry)
  large : c'.largeTxnCache =
    if entry.state.isLarge startTs then
      c.largeTxnCache.insert startTs (raised (c.largeTxnCache.lookup startTs) entry)
    else if (c.largeTxnCache.lookup startTs).isSome then
      c.largeTxnCache.insert startTs (putOver (c.largeTxnCache.lookup startTs) entry)
    else c.largeTxnCache

/-- `upsert` puts a state into the cache that its kind belongs to. -/
theorem upsert_spec (henabled : c.isEnabled = true)
    (h : c.upsert startTs state updateTime = .ok c') :
    Upserted c startTs { state, updateTime } c' := by
  rw [upsert, henabled] at h
  cases hlarge : state.isLarge startTs with
  | true =>
    rw [hlarge] at h
    cases hlookup : c.largeTxnCache.lookup startTs with
    | none | some existing =>
      rw [hlookup] at h
      cases h
      exact ⟨rfl, by rw [if_pos hlarge], by rw [if_pos hlarge, hlookup]; rfl⟩
  | false =>
    have hneg : ¬ state.isLarge startTs = true := by rw [hlarge]; decide
    rw [hlarge] at h
    obtain ⟨normal, hnormal, h⟩ := bind_eq_ok.mp h
    have hover : normal = putOver (c.normalCache.lookup startTs) { state, updateTime } := by
      cases hlookup : c.normalCache.lookup startTs with rw [hlookup] at hnormal
      | none =>
        cases hnormal
        rfl
      | some existing => exact update_eq hnormal
    cases hlookup : c.largeTxnCache.lookup startTs with rw [hlookup] at h
    | none =>
      cases h
      exact ⟨rfl, by rw [if_neg hneg, ← hover], by rw [if_neg hneg, hlookup]; rfl⟩
    | some existing =>
      obtain ⟨large, hlarge', h⟩ := bind_eq_ok.mp h
      cases h
      refine ⟨rfl, by rw [if_neg hneg, ← hover], ?_⟩
      rw [if_neg hneg, hlookup, update_eq hlarge']
      rfl

theorem upsert_of_disabled (h : c.isEnabled = false) :
    c.upsert startTs state updateTime = .ok c := by
  rw [upsert, h]
  rfl

theorem get_of_enabled (h : c.isEnabled = true) (t : ℕ) :
    c.get t = match c.largeTxnCache.lookup t with
      | some entry => some entry.state
      | none => (c.normalCache.lookup t).map (·.state) := by
  rw [get, h]
  rfl

/-- The other transactions are left alone. -/
theorem Upserted.lookup_of_ne {entry : CacheEntry} (h : Upserted c startTs entry c')
    (ht : t ≠ startTs) :
    c'.normalCache.lookup t = c.normalCache.lookup t ∧
      c'.largeTxnCache.lookup t = c.largeTxnCache.lookup t := by
  have hinsert : ∀ (m : TxnStatusCacheSlot) e, (m.insert startTs e).lookup t = m.lookup t :=
    fun m e => by rw [lookup_insert, if_neg ht]
  rw [h.normal, h.large]
  constructor
  · split
    · rfl
    · rw [hinsert]
  · split
    · rw [hinsert]
    · split
      · rw [hinsert]
      · rfl

/-! ### Statuses advance -/

/-- What is decided stays decided, and the `min_commit_ts` of an ongoing transaction does not
become smaller. -/
def Advances (s s' : Option TxnState) : Prop :=
  ∀ state, s = some state → ∃ state', s' = some state' ∧
    (state'.isOngoing = true →
      ∃ m m', state = .ongoing m ∧ state' = .ongoing m' ∧ m ≤ m')

theorem Advances.refl (s : Option TxnState) : Advances s s := by
  intro state hs
  refine ⟨state, hs, fun hongoing => ?_⟩
  cases state with
  | ongoing m => exact ⟨m, m, rfl, rfl, le_rfl⟩
  | committed | rolledBack => cases hongoing

theorem Advances.trans {s s' s'' : Option TxnState} (h : Advances s s') (h' : Advances s' s'') :
    Advances s s'' := by
  intro state hs
  obtain ⟨state', hs', hongoing⟩ := h state hs
  obtain ⟨state'', hs'', hongoing'⟩ := h' state' hs'
  refine ⟨state'', hs'', fun hfin => ?_⟩
  obtain ⟨m', m'', rfl, rfl, hle'⟩ := hongoing' hfin
  obtain ⟨m, m₁, rfl, heq, hle⟩ := hongoing rfl
  cases heq
  exact ⟨m, m'', rfl, rfl, hle.trans hle'⟩

/-- A state that is put over another one advances it. -/
theorem Advances.putOver {existing : Option CacheEntry} {entry : CacheEntry}
    (h : ∀ m m', existing.map (·.state) = some (.ongoing m) → entry.state = .ongoing m' →
      m ≤ m') :
    Advances (existing.map (·.state)) (some (putOver existing entry).state) := by
  cases existing with
  | none => exact fun _ hs => nomatch hs
  | some existing =>
    intro state hs
    cases hs
    rw [TxnStatusCache.putOver]
    cases hstate : existing.state with
    | ongoing m =>
      refine ⟨entry.state, rfl, fun hongoing => ?_⟩
      cases hentry : entry.state with
      | ongoing m' =>
        exact ⟨m, m', hstate, rfl, h m m' (by rw [Option.map_some, hstate]) hentry⟩
      | committed | rolledBack => rw [hentry] at hongoing; cases hongoing
    | committed commitTs => exact ⟨.committed commitTs, congrArg some hstate, nofun⟩
    | rolledBack => exact ⟨.rolledBack, congrArg some hstate, nofun⟩

theorem Advances.raise (existing : CacheEntry) {entry : CacheEntry} :
    Advances (some existing.state) (some (existing.raise entry).state) := by
  rw [CacheEntry.raise]
  split
  · rename_i m m' hexisting hentry
    split
    · rename_i hlt
      rw [hexisting, hentry]
      intro state hs
      cases hs
      exact ⟨_, rfl, fun _ => ⟨m, m', rfl, rfl, hlt.le⟩⟩
    · exact .refl _
  · exact .refl _

/-- A `min_commit_ts` above the start timestamp is not reported for a transaction that is decided in
the normal cache and not in the other one; and an ongoing state without one does not come after a
larger one. -/
def UpsertOk (c : TxnStatusCache) (startTs : ℕ) : TxnState → Prop
  | .ongoing minCommitTs =>
    if startTs < minCommitTs then
      c.largeTxnCache.lookup startTs = none → ∀ entry, c.normalCache.lookup startTs = some entry →
        entry.state.isOngoing = true
    else ∀ m, c.get startTs = some (.ongoing m) → m ≤ minCommitTs
  | .committed _ | .rolledBack => True

/-- The normal cache has no `min_commit_ts` above a start timestamp. -/
def NormalOk (c : TxnStatusCache) : Prop :=
  ∀ t entry, c.normalCache.lookup t = some entry → entry.state.isLarge t = false

theorem NormalOk.upserted {entry : CacheEntry} (h : c.NormalOk)
    (hupserted : Upserted c startTs entry c') : c'.NormalOk := by
  intro t e he
  by_cases ht : t = startTs
  · subst ht
    rw [hupserted.normal] at he
    split at he
    · exact h t e he
    · rename_i hlarge
      rw [lookup_insert, if_pos rfl] at he
      cases he
      unfold putOver
      split
      · rename_i existing hlookup
        split
        · exact Bool.eq_false_iff.mpr hlarge
        · exact h t existing hlookup
      · exact Bool.eq_false_iff.mpr hlarge
  · rw [(hupserted.lookup_of_ne ht).1] at he
    exact h t e he

/-- An update that is in order takes no answer back. -/
theorem Upserted.advances {entry : CacheEntry} (hupserted : Upserted c startTs entry c')
    (henabled : c.isEnabled = true) (h : c.NormalOk) (hok : c.UpsertOk startTs entry.state)
    (t : ℕ) : Advances (c.get t) (c'.get t) := by
  rw [get_of_enabled henabled, get_of_enabled hupserted.isEnabled]
  by_cases ht : t = startTs
  swap
  · obtain ⟨hnormal, hlarge⟩ := hupserted.lookup_of_ne ht
    rw [hnormal, hlarge]
    exact .refl _
  subst ht
  cases hlarge : entry.state.isLarge t with
  | true =>
    have hnew : c'.largeTxnCache.lookup t = some (raised (c.largeTxnCache.lookup t) entry) := by
      rw [hupserted.large, if_pos hlarge, lookup_insert, if_pos rfl]
    rw [hnew]
    cases hlookup : c.largeTxnCache.lookup t with
    | some existing => exact .raise existing
    | none =>
      -- The transaction moves to the cache of large transactions.
      intro state hs
      obtain ⟨existing, hexisting, rfl⟩ := Option.map_eq_some_iff.mp hs
      have hnormal := h t existing hexisting
      cases hentry : entry.state with
      | committed | rolledBack => rw [hentry] at hlarge; cases hlarge
      | ongoing m' =>
        rw [hentry] at hok hlarge
        have hlt : t < m' := of_decide_eq_true hlarge
        rw [UpsertOk, if_pos hlt] at hok
        have hongoing := hok hlookup existing hexisting
        refine ⟨_, congrArg some hentry, fun _ => ?_⟩
        cases hstate : existing.state with
        | ongoing m =>
          rw [hstate] at hnormal
          have hle : ¬ t < m := of_decide_eq_false hnormal
          exact ⟨m, m', rfl, rfl, by omega⟩
        | committed | rolledBack => rw [hstate] at hongoing; cases hongoing
  | false =>
    have hneg : ¬ entry.state.isLarge t = true := by rw [hlarge]; decide
    have hle : ∀ m m', c.get t = some (.ongoing m) → entry.state = .ongoing m' → m ≤ m' := by
      intro m m' hget hentry
      rw [hentry] at hok hneg
      rw [UpsertOk, if_neg (fun hlt => hneg (decide_eq_true hlt))] at hok
      exact hok m hget
    rw [get_of_enabled henabled] at hle
    have hnew := hupserted.large
    rw [if_neg hneg] at hnew
    cases hlookup : c.largeTxnCache.lookup t with rw [hlookup] at hnew hle
    | some existing =>
      rw [hnew, Option.isSome_some, if_pos rfl, lookup_insert, if_pos rfl]
      exact @Advances.putOver (some existing) _ hle
    | none =>
      rw [hnew, if_neg (by decide), hlookup, hupserted.normal, if_neg hneg, lookup_insert,
        if_pos rfl]
      exact .putOver hle

/-! ### Runs -/

/-- A call of `upsert`. -/
structure Upsert where
  startTs : ℕ
  state : TxnState
  now : ℕ := 0

/-- The cache, with the states that have been upserted. -/
structure Run where
  cache : TxnStatusCache := {}
  upserted : List (ℕ × TxnState) := []

/-- A transaction is not committed below a `min_commit_ts` that was reported of it. -/
def CommitOk (s : Run) (e : Upsert) : Prop :=
  ∀ commitTs, e.state = .committed commitTs → ∀ m, (e.startTs, .ongoing m) ∈ s.upserted →
    m ≤ commitTs

inductive Step : Run → Upsert → Run → Prop
  | upsert {s : Run} {e : Upsert} {cache : TxnStatusCache} (hcommit : CommitOk s e)
      (h : s.cache.upsert e.startTs e.state e.now = .ok cache) :
    Step s e { cache, upserted := (e.startTs, e.state) :: s.upserted }

/-- What is in the caches has been upserted. -/
structure Run.Inv (s : Run) : Prop where
  normalOk : s.cache.NormalOk
  normal : ∀ t entry, s.cache.normalCache.lookup t = some entry → (t, entry.state) ∈ s.upserted
  large : ∀ t entry, s.cache.largeTxnCache.lookup t = some entry → (t, entry.state) ∈ s.upserted

theorem Run.Inv.new (isEnabled : Bool) : ({ cache := { isEnabled } } : Run).Inv :=
  ⟨nofun, nofun, nofun⟩

theorem over_cases : putOver existing entry = entry ∨ existing = some (putOver existing entry) := by
  cases existing with
  | none => exact .inl rfl
  | some existing =>
    rw [putOver]
    split
    · exact .inl rfl
    · exact .inr rfl

theorem raised_cases : raised existing entry = entry ∨ existing = some (raised existing entry) := by
  cases existing with
  | none => exact .inl rfl
  | some existing =>
    rw [raised, CacheEntry.raise]
    split
    · split
      · exact .inl rfl
      · exact .inr rfl
    · exact .inr rfl

/-- **Every update keeps the invariant.** -/
theorem Run.Inv.step {s s' : Run} {e : Upsert} (h : s.Inv) (hstep : Step s e s') : s'.Inv := by
  obtain ⟨-, heq⟩ := hstep
  cases henabled : s.cache.isEnabled with
  | false =>
    cases (upsert_of_disabled henabled).symm.trans heq
    exact ⟨h.normalOk, fun t entry ht => List.mem_cons_of_mem _ (h.normal t entry ht),
      fun t entry ht => List.mem_cons_of_mem _ (h.large t entry ht)⟩
  | true =>
    have hupserted := upsert_spec henabled heq
    -- An entry is the new one, or was there before.
    have hentry : ∀ {m : TxnStatusCacheSlot} {t entry new},
        (∀ t entry, m.lookup t = some entry → (t, entry.state) ∈ s.upserted) →
        (new = ⟨e.state, e.now⟩ ∨ m.lookup e.startTs = some new) →
        (m.insert e.startTs new).lookup t = some entry →
          (t, entry.state) ∈ (e.startTs, e.state) :: s.upserted := by
      intro m t entry new hm hnew ht
      rw [lookup_insert] at ht
      split at ht
      · rename_i heq
        cases ht
        subst heq
        rcases hnew with rfl | hnew
        · exact List.mem_cons_self
        · exact List.mem_cons_of_mem _ (hm _ _ hnew)
      · exact List.mem_cons_of_mem _ (hm t entry ht)
    refine ⟨h.normalOk.upserted hupserted, fun t entry ht => ?_, fun t entry ht => ?_⟩
    · rw [hupserted.normal] at ht
      split at ht
      · exact List.mem_cons_of_mem _ (h.normal t entry ht)
      · exact hentry h.normal (over_cases _ _) ht
    · rw [hupserted.large] at ht
      split at ht
      · exact hentry h.large (raised_cases _ _) ht
      · split at ht
        · exact hentry h.large (over_cases _ _) ht
        · exact List.mem_cons_of_mem _ (h.large t entry ht)

theorem exists_update {existing entry : CacheEntry}
    (h : ∀ m commitTs, existing.state = .ongoing m → entry.state = .committed commitTs →
      m ≤ commitTs) : ∃ entry', existing.update entry = .ok entry' := by
  rw [CacheEntry.update]
  split
  · rename_i m hm
    split
    · rename_i commitTs hcommit
      rw [if_pos (h m commitTs hm hcommit)]
      exact ⟨_, rfl⟩
    all_goals exact ⟨_, rfl⟩
  all_goals exact ⟨_, rfl⟩

/-- The assertions of `upsert` hold. -/
theorem Run.Inv.exists_upsert {s : Run} (h : s.Inv) {e : Upsert} (hcommit : CommitOk s e) :
    ∃ cache, s.cache.upsert e.startTs e.state e.now = .ok cache := by
  have hupdate : ∀ {m : TxnStatusCacheSlot} {existing},
      (∀ t entry, m.lookup t = some entry → (t, entry.state) ∈ s.upserted) →
      m.lookup e.startTs = some existing →
        ∃ entry', existing.update ⟨e.state, e.now⟩ = .ok entry' := by
    intro m existing hm hexisting
    refine exists_update fun m' commitTs hongoing hstate => ?_
    exact hcommit commitTs hstate m' (hongoing ▸ hm _ _ hexisting)
  rw [upsert]
  split
  · exact ⟨_, rfl⟩
  dsimp only
  split
  · split <;> exact ⟨_, rfl⟩
  have hnormal : ∃ normal, (match s.cache.normalCache.lookup e.startTs with
      | some existing => existing.update ⟨e.state, e.now⟩
      | none => .ok ⟨e.state, e.now⟩) = Except.ok normal := by
    split
    · rename_i existing hexisting
      exact hupdate h.normal hexisting
    · exact ⟨_, rfl⟩
  obtain ⟨normal, hnormal⟩ := hnormal
  rw [hnormal]
  split
  · rename_i existing hexisting
    obtain ⟨large, hlarge⟩ := hupdate h.large hexisting
    rw [hlarge]
    exact ⟨_, rfl⟩
  · exact ⟨_, rfl⟩

theorem Run.Inv.advances {s s' : Run} {e : Upsert} (h : s.Inv) (hstep : Step s e s')
    (hok : s.cache.UpsertOk e.startTs e.state) (t : ℕ) :
    Advances (s.cache.get t) (s'.cache.get t) := by
  obtain ⟨-, heq⟩ := hstep
  cases henabled : s.cache.isEnabled with
  | false =>
    cases (upsert_of_disabled henabled).symm.trans heq
    exact .refl _
  | true => exact (upsert_spec henabled heq).advances henabled h.normalOk hok t

/-- A run of calls that all keep to `UpsertOk`: the assertions hold, and from any point on the
status of a transaction only advances. -/
theorem get_advances {isEnabled : Bool} {es es' : List Upsert} {s s' : Run}
    (h : Exec (fun s e s' => Step s e s' ∧ s.cache.UpsertOk e.startTs e.state)
      { cache := { isEnabled } } es s)
    (h' : Exec (fun s e s' => Step s e s' ∧ s.cache.UpsertOk e.startTs e.state) s es' s') :
    (∀ startTs, Advances (s.cache.get startTs) (s'.cache.get startTs)) ∧
      ∀ e, CommitOk s' e → ∃ cache, s'.cache.upsert e.startTs e.state e.now = .ok cache := by
  have hinv : s.Inv :=
    h.invariant (I := Run.Inv) (fun _ _ _ hs hstep => hs.step hstep.1) (.new isEnabled)
  have hinv' := h'.invariant
    (I := fun s' => s'.Inv ∧ ∀ startTs, Advances (s.cache.get startTs) (s'.cache.get startTs))
    (fun s₁ e s₂ hs hstep => ⟨hs.1.step hstep.1, fun startTs =>
      (hs.2 startTs).trans (hs.1.advances hstep.1 hstep.2 startTs)⟩)
    ⟨hinv, fun _ => .refl _⟩
  exact ⟨hinv'.2, fun e he => hinv'.1.exists_upsert he⟩

/-- The transaction `5` gets a `min_commit_ts`, which is raised before it commits. -/
theorem get_advances_to_committed : ∃ s s' : Run,
    Exec (fun s e s' => Step s e s' ∧ s.cache.UpsertOk e.startTs e.state) {}
      [⟨5, .fromTs 5 0 0 false, 1⟩, ⟨5, .fromTs 5 8 0 false, 2⟩] s ∧
    Exec (fun s e s' => Step s e s' ∧ s.cache.UpsertOk e.startTs e.state) s
      [⟨5, .fromTs 5 9 0 false, 3⟩, ⟨5, .fromTs 5 0 10 false, 4⟩] s' ∧
    s.cache.get 5 = some (.ongoing 8) ∧ s'.cache.get 5 = some (.committed 10) ∧
    Advances (s.cache.get 5) (s'.cache.get 5) := by
  have hrun : ∃ s s' : Run,
      Exec (fun s e s' => Step s e s' ∧ s.cache.UpsertOk e.startTs e.state) {}
        [⟨5, .fromTs 5 0 0 false, 1⟩, ⟨5, .fromTs 5 8 0 false, 2⟩] s ∧
      Exec (fun s e s' => Step s e s' ∧ s.cache.UpsertOk e.startTs e.state) s
        [⟨5, .fromTs 5 9 0 false, 3⟩, ⟨5, .fromTs 5 0 10 false, 4⟩] s' ∧
      s.cache.get 5 = some (.ongoing 8) ∧ s'.cache.get 5 = some (.committed 10) := by
    refine ⟨_, _, .cons ⟨.upsert nofun rfl, nofun⟩ <|
      .cons ⟨.upsert nofun rfl, fun _ entry hentry => ?_⟩ <| .nil _,
      .cons ⟨.upsert nofun rfl, nofun⟩ <| .cons ⟨.upsert ?_ rfl, trivial⟩ <| .nil _, rfl, rfl⟩
    · cases hentry
      rfl
    · rintro commitTs heq m hm
      cases heq
      have hm : m = 9 ∨ m = 8 ∨ m = 5 := by simpa [TxnState.fromTs] using hm
      omega
  obtain ⟨s, s', hrun, hrun', hget, hget'⟩ := hrun
  exact ⟨s, s', hrun, hrun', hget, hget', (get_advances hrun hrun').1 5⟩

/-- A `min_commit_ts` that is reported late hides that the transaction is committed; and an ongoing
state without one takes back the one that was there. -/
theorem get_regresses :
    (∃ s s' : Run, Exec Step {} [⟨5, .fromTs 5 0 10 false, 1⟩] s ∧
      Exec Step s [⟨5, .fromTs 5 7 0 false, 2⟩] s' ∧
      s.cache.get 5 = some (.committed 10) ∧ s'.cache.get 5 = some (.ongoing 7)) ∧
    ∃ s s' : Run, Exec Step {} [⟨5, .fromTs 5 7 0 false, 1⟩] s ∧
      Exec Step s [⟨5, .fromTs 5 0 0 false, 2⟩] s' ∧
      s.cache.get 5 = some (.ongoing 7) ∧ s'.cache.get 5 = some (.ongoing 5) := by
  constructor
  · exact ⟨_, _, .cons (.upsert (fun _ _ _ hm => nomatch hm) rfl) <| .nil _,
      .cons (.upsert nofun rfl) <| .nil _, rfl, rfl⟩
  · exact ⟨_, _, .cons (.upsert nofun rfl) <| .nil _,
      .cons (.upsert nofun rfl) <| .nil _, rfl, rfl⟩

end TxnStatusCache

end Tikv
