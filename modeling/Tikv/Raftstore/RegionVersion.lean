import Tikv.Foundation.Fallible
import Tikv.Foundation.VersionedPartition
import Tikv.Raftstore.Region

/-!
# The version of a region is a clock for its keys

The live regions partition the key space, and each command replaces some of them by regions that
cover the same keys with larger versions: a split replaces a region by the pieces between the split
keys, a commit of a merge replaces two neighbours by one region, and the other two commands only
change the epoch. So the commands are steps of a versioned partition (`Step.supersedes`).
-/

namespace Tikv.Raftstore

open VersionedPartition Option RegionLocalState
open List hiding Disjoint

universe u

variable {K : Type u} [LinearOrder K] [OrderBot K]

namespace Region

variable {r : Region K} {key : K}

/-- The keys of the region. -/
def range (r : Region K) : Set K := keysIn r.startKey r.encEndKey

/-- The ends of the range. -/
def span (r : Region K) : K × WithTop K := (r.startKey, r.encEndKey)

theorem encEndKey_of_ne (h : r.endKey ≠ ⊥) : r.encEndKey = r.endKey := if_neg h

theorem lt_encEndKey_of_check (h : r.checkKeyInRegionExclusive key) :
    (key : WithTop K) < r.encEndKey := by
  rw [checkKeyInRegionExclusive, Bool.and_eq_true, Bool.or_eq_true] at h
  unfold encEndKey
  split_ifs with hend
  · exact WithTop.coe_lt_top key
  · rcases h.2 with hlt | hbot
    · exact WithTop.coe_lt_coe.mpr (of_decide_eq_true hlt)
    · exact absurd (eq_of_beq hbot) hend

theorem startKey_lt_encEndKey (h : r.range.Nonempty) : (r.startKey : WithTop K) < r.encEndKey := by
  obtain ⟨k, hk, hlt⟩ := h
  exact (WithTop.coe_le_coe.mpr hk).trans_lt hlt

@[simp]
theorem encEndKey_setVersion (r : Region K) (version : ℕ) :
    (r.setVersion version).encEndKey = r.encEndKey := rfl

theorem takeOver_id_version (r source : Region K) : (r.takeOver source).id = r.id ∧
    (r.takeOver source).regionEpoch.version =
      max source.regionEpoch.version r.regionEpoch.version + 1 := by
  unfold takeOver
  dsimp only
  split_ifs <;> exact ⟨rfl, rfl⟩

/-- Merging neighbours joins their ranges. -/
theorem mem_range_takeOver {source : Region K} (hr : r.range.Nonempty)
    (hs : source.range.Nonempty)
    (hnext : r.encEndKey = source.encStartKey ∨ source.encEndKey = r.encStartKey) (x : K) :
    x ∈ (r.takeOver source).range ↔ x ∈ r.range ∨ x ∈ source.range := by
  have hrlt := startKey_lt_encEndKey hr
  have hslt := startKey_lt_encEndKey hs
  by_cases hend : r.encEndKey = source.encStartKey
  · have hcut := mem_keysIn_cut (WithTop.coe_lt_coe.mp (hend ▸ hrlt)) hslt x
    have htake : (r.takeOver source).range = keysIn r.startKey source.encEndKey := by
      rw [takeOver, encEndKey_setVersion, if_pos hend]
      rfl
    rw [htake, hcut, range, hend]
    rfl
  · have hstart : source.encEndKey = r.encStartKey := hnext.resolve_left hend
    have hcut := mem_keysIn_cut (WithTop.coe_lt_coe.mp (hstart ▸ hslt)) hrlt x
    have htake : (r.takeOver source).range = keysIn source.startKey r.encEndKey := by
      rw [takeOver, encEndKey_setVersion, if_neg hend]
      rfl
    rw [htake, hcut, or_comm, range, range, hstart]
    rfl

end Region

/-! ### The regions of a split -/

section Split

variable {storeId : ℕ} {region d : Region K} {requests reqs : List (SplitRequest K)}
  {rs : List (Region K)} {keys rest : List K} {a b lastKey : K} {top : WithTop K}

theorem cuts_of_validateSplitKeys (h : validateSplitKeys region requests a reqs = .ok lastKey)
    (htop : (lastKey : WithTop K) < top) :
    Cuts a (reqs.map (·.splitKey)) top ∧ ∀ req ∈ reqs, req.splitKey ≠ ⊥ := by
  induction reqs generalizing a with
  | nil =>
    obtain rfl : a = lastKey := by simpa [validateSplitKeys] using h
    exact ⟨htop, by simp⟩
  | cons req reqs ih =>
    rw [validateSplitKeys] at h
    split_ifs at h with hbot hle hlen
    obtain ⟨hcuts, hne⟩ := ih h
    exact ⟨⟨not_le.mp hle, hcuts⟩, forall_mem_cons.mpr ⟨hbot, hne⟩⟩

theorem cuts_of_validateBatchSplit (h : validateBatchSplit reqs region = .ok ()) :
    reqs ≠ [] ∧ Cuts region.startKey (reqs.map (·.splitKey)) region.encEndKey ∧
      ∀ req ∈ reqs, req.splitKey ≠ ⊥ := by
  rw [validateBatchSplit] at h
  split_ifs at h with hempty
  refine ⟨by simpa using hempty, ?_⟩
  cases hkeys : validateSplitKeys region reqs region.startKey reqs with
  | error e => simp [hkeys] at h
  | ok lastKey =>
    simp only [hkeys] at h
    split_ifs at h with hcheck
    exact cuts_of_validateSplitKeys hkeys (Region.lt_encEndKey_of_check hcheck)

omit [LinearOrder K] [OrderBot K] in
theorem splitRegions_cons_ok {req : SplitRequest K}
    (h : splitRegions storeId d (req :: reqs) (a :: b :: keys) = .ok (rs, rest)) :
    ∃ rs', rs = newRegion d req a b :: rs' ∧
      splitRegions storeId d reqs (b :: keys) = .ok (rs', rest) := by
  rw [splitRegions] at h
  split_ifs at h with hpeer
  cases hrec : splitRegions storeId d reqs (b :: keys) with
  | error e => simp [hrec] at h
  | ok p =>
    simp only [hrec, Except.ok.injEq, Prod.mk.injEq] at h
    exact ⟨p.1, h.1.symm, by rw [← h.2]⟩

omit [LinearOrder K] [OrderBot K] in
/-- The new regions have the requested ids and the epoch of the region that is split. -/
theorem splitRegions_ids (h : splitRegions storeId d reqs keys = .ok (rs, rest)) :
    rs.map (·.id) = reqs.map (·.newRegionId) ∧ ∀ r ∈ rs, r.regionEpoch = d.regionEpoch := by
  induction reqs generalizing keys rs with
  | nil =>
    obtain ⟨rfl, -⟩ : rs = [] ∧ keys = rest := by simpa [splitRegions, eq_comm] using h
    simp
  | cons req reqs ih =>
    match keys with
    | a :: b :: keys =>
      obtain ⟨rs', rfl, hrec⟩ := splitRegions_cons_ok h
      obtain ⟨hids, hepoch⟩ := ih hrec
      simpa [newRegion, hids] using hepoch

/-- The region that is split keeps the right end: the new regions are the pieces before it. -/
theorem splitRegions_right
    (h : splitRegions storeId d reqs (a :: reqs.map (·.splitKey)) = .ok (rs, b :: rest))
    (hne : ∀ req ∈ reqs, req.splitKey ≠ ⊥) :
    rs.map Region.span ++ [(b, top)] = pieces a (reqs.map (·.splitKey)) top := by
  induction reqs generalizing a rs with
  | nil =>
    obtain ⟨rfl, rfl, -⟩ : rs = [] ∧ a = b ∧ rest = [] := by
      simpa [splitRegions] using h
    rfl
  | cons req reqs ih =>
    obtain ⟨rs', rfl, hrec⟩ := splitRegions_cons_ok h
    have hspan : (newRegion d req a req.splitKey).span = (a, (req.splitKey : WithTop K)) :=
      Prod.ext rfl (Region.encEndKey_of_ne (hne req mem_cons_self))
    have htail := ih hrec fun q hq => hne q (mem_cons_of_mem _ hq)
    simp only [map_cons, cons_append, pieces, hspan, htail]

/-- It keeps the left end: the new regions are the pieces after it. -/
theorem splitRegions_left {e : K}
    (h : splitRegions storeId d reqs (a :: (keys ++ [e])) = .ok (rs, rest))
    (hlen : reqs.length = keys.length + 1) (hne : ∀ k ∈ keys, k ≠ ⊥) :
    rs.map Region.span = pieces a keys (if e = ⊥ then ⊤ else e) := by
  induction keys generalizing a reqs rs with
  | nil =>
    obtain ⟨req, rfl⟩ := length_eq_one_iff.mp hlen
    obtain ⟨rs', rfl, hrec⟩ := splitRegions_cons_ok h
    obtain ⟨rfl, -⟩ : rs' = [] ∧ [e] = rest := by simpa [splitRegions, eq_comm] using hrec
    rfl
  | cons k keys ih =>
    match reqs with
    | req :: reqs =>
      obtain ⟨rs', rfl, hrec⟩ := splitRegions_cons_ok h
      have hspan : (newRegion d req a k).span = (a, (k : WithTop K)) :=
        Prod.ext rfl (Region.encEndKey_of_ne (hne k mem_cons_self))
      have htail := ih hrec (by simpa using hlen) fun q hq => hne q (mem_cons_of_mem _ hq)
      simp only [map_cons, pieces, hspan, htail]

/-- What a split makes of a region. -/
structure SplitOf (region : Region K) (reqs : List (SplitRequest K)) (rs : List (Region K)) :
    Prop where
  spans : ∃ keys, Cuts region.startKey keys region.encEndKey ∧
    rs.map Region.span = pieces region.startKey keys region.encEndKey
  version : ∀ r ∈ rs, region.regionEpoch.version < r.regionEpoch.version
  ids : (rs.map (·.id)).Perm (region.id :: reqs.map (·.newRegionId))

/-- A split that goes through cuts the region at the requested keys. -/
theorem splitOf_of_execBatchSplit {splits : BatchSplitRequest K}
    (h : execBatchSplit storeId region splits = .ok (d, rs)) :
    SplitOf region splits.requests rs := by
  rw [execBatchSplit] at h
  cases hvalid : validateBatchSplit splits.requests region with
  | error e => simp [hvalid] at h
  | ok _ =>
    obtain ⟨hnonempty, hcuts, hne⟩ := cuts_of_validateBatchSplit hvalid
    have hpos : 0 < splits.requests.length := length_pos_iff.mpr hnonempty
    simp only [hvalid] at h
    split_ifs at h with hright
    · split at h
      · rename_i new startKey rest hsplit
        obtain ⟨-, rfl⟩ := Prod.ext_iff.mp (Except.ok.inj h)
        obtain ⟨hids, hepoch⟩ := splitRegions_ids hsplit
        refine ⟨⟨_, hcuts, ?_⟩, ?_, ?_⟩
        · rw [map_append]
          exact splitRegions_right hsplit hne
        · refine forall_mem_append.mpr
            ⟨fun r hr => ?_, forall_mem_singleton.mpr (Nat.lt_add_of_pos_right hpos)⟩
          rw [hepoch r hr]
          exact Nat.lt_add_of_pos_right hpos
        · rw [map_append, hids]
          exact perm_append_singleton _ _
      · cases h
      · cases h
    · split at h
      · cases h
      · rename_i endKey keys hkeys
        split at h
        · rename_i new rest hsplit
          obtain ⟨-, rfl⟩ := Prod.ext_iff.mp (Except.ok.inj h)
          obtain ⟨hids, hepoch⟩ := splitRegions_ids hsplit
          -- The queue is the split keys and then the old end key.
          obtain ⟨req, reqs, hreqs⟩ := exists_cons_of_ne_nil hnonempty
          rw [hreqs, map_cons, cons_append] at hkeys
          obtain ⟨rfl, rfl⟩ := hkeys
          have hsplitKey : req.splitKey ≠ ⊥ := hne req (hreqs ▸ mem_cons_self)
          have htail : ∀ k ∈ reqs.map (·.splitKey), k ≠ ⊥ := by
            intro k hk
            obtain ⟨q, hq, rfl⟩ := List.mem_map.mp hk
            exact hne q (hreqs ▸ mem_cons_of_mem _ hq)
          have hspans := splitRegions_left hsplit (by simp [hreqs]) htail
          refine ⟨⟨_, hcuts, ?_⟩, ?_, ?_⟩
          · rw [hreqs, map_cons, map_cons, hspans]
            exact congrArg (· :: _) (Prod.ext rfl (Region.encEndKey_of_ne hsplitKey))
          · refine forall_mem_cons.mpr ⟨Nat.lt_add_of_pos_right hpos, fun r hr => ?_⟩
            rw [hepoch r hr]
            exact Nat.lt_add_of_pos_right hpos
          · rw [map_cons, hids]
            exact List.Perm.refl _
        · cases h

section

variable (h : SplitOf region reqs rs)
include h

theorem SplitOf.mem_range_iff (x : K) :
    (∃ r ∈ rs, x ∈ r.range) ↔ x ∈ region.range := by
  obtain ⟨keys, hcuts, hspans⟩ := h.spans
  rw [Region.range, ← mem_pieces_iff hcuts x, ← hspans]
  simp [Region.span, Region.range]

theorem SplitOf.nonempty : ∀ r ∈ rs, r.range.Nonempty := by
  obtain ⟨keys, hcuts, hspans⟩ := h.spans
  intro r hr
  exact pieces_nonempty hcuts r.span (hspans ▸ mem_map_of_mem hr)

theorem SplitOf.disjoint :
    rs.Pairwise fun r r' => Disjoint r.range r'.range := by
  obtain ⟨keys, hcuts, hspans⟩ := h.spans
  have hpieces := pieces_disjoint hcuts
  rw [← hspans, pairwise_map] at hpieces
  exact hpieces

end

end Split

/-! ### The states that a command writes -/

namespace RegionLocalState

/-- The keys of the region. -/
def range (l : RegionLocalState K) : Set K := l.region.range

/-- The version of the region. -/
def version (l : RegionLocalState K) : ℕ := l.region.regionEpoch.version

end RegionLocalState

namespace Cluster

variable {c c' : Cluster K} {states : List (RegionLocalState K)} {l : RegionLocalState K}
  {region : Region K} {id : ℕ}

/-- The states of the regions that were not merged. -/
def live (c : Cluster K) : Set (RegionLocalState K) :=
  {l | l.isLive ∧ c.lookup l.region.id = some l}

/-- Each state is kept under the id of its region, and the live regions partition the keys. -/
structure Inv (c : Cluster K) : Prop where
  ids : ∀ id l, c.lookup id = some l → l.region.id = id
  partition : IsPartition range c.live

omit [LinearOrder K] [OrderBot K] in
theorem exists_of_delegate (h : c.delegate id = some region) :
    ∃ l, c.lookup id = some l ∧ l.isLive ∧ l.region = region := by
  rw [delegate] at h
  cases hl : c.lookup id with
  | none => simp [hl] at h
  | some l =>
    simp only [hl] at h
    split_ifs at h with hlive
    exact ⟨l, rfl, hlive, some.inj h⟩

omit [LinearOrder K] [OrderBot K] in
/-- What is found after some states were written. -/
theorem lookup_writePeerStates (hids : (states.map (·.region.id)).Nodup) :
    (c.writePeerStates states).lookup id = some l ↔
      (l ∈ states ∧ l.region.id = id) ∨
        id ∉ states.map (·.region.id) ∧ c.lookup id = some l := by
  induction states generalizing c with
  | nil => simp [writePeerStates]
  | cons m states ih =>
    obtain ⟨hm, hids⟩ := nodup_cons.mp hids
    have htail := ih (c := c.insert m.region.id m) hids
    rw [AssocMap.lookup_insert] at htail
    change (writePeerStates (c.insert m.region.id m) states).lookup id = some l ↔ _
    rw [htail]
    by_cases hid : id = m.region.id
    · subst hid
      have hne : ∀ l ∈ states, l.region.id ≠ m.region.id := by
        intro l hl heq
        exact hm (List.mem_map.mpr ⟨l, hl, heq⟩)
      constructor
      · rintro (⟨hl, heq⟩ | ⟨-, heq⟩)
        · exact absurd heq (hne l hl)
        · rw [if_pos rfl, some.injEq] at heq
          exact .inl ⟨heq ▸ mem_cons_self, heq ▸ rfl⟩
      · rintro (⟨hl, heq⟩ | ⟨hnot, -⟩)
        · rcases mem_cons.mp hl with rfl | hl
          · exact .inr ⟨hm, if_pos rfl⟩
          · exact absurd heq (hne l hl)
        · exact absurd mem_cons_self hnot
    · rw [if_neg hid]
      simp only [mem_cons, map_cons, not_or]
      constructor
      · rintro (⟨hl, heq⟩ | ⟨hnot, heq⟩)
        · exact .inl ⟨.inr hl, heq⟩
        · exact .inr ⟨⟨hid, hnot⟩, heq⟩
      · rintro (⟨rfl | hl, heq⟩ | ⟨⟨-, hnot⟩, heq⟩)
        · exact absurd heq.symm hid
        · exact .inl ⟨hl, heq⟩
        · exact .inr ⟨hnot, heq⟩

/-- The live states that a command replaces: those of the regions it writes. -/
def replaced (c : Cluster K) (states : List (RegionLocalState K)) : Set (RegionLocalState K) :=
  {l | l ∈ c.live ∧ l.region.id ∈ states.map (·.region.id)}

omit [OrderBot K] in
theorem live_writePeerStates (hids : (states.map (·.region.id)).Nodup) :
    (c.writePeerStates states).live =
      {l | l ∈ states ∧ l.isLive} ∪ c.live \ c.replaced states := by
  ext l
  simp only [live, replaced, Set.mem_ofPred_eq, Set.mem_union, Set.mem_sdiff,
    lookup_writePeerStates hids, and_true]
  tauto

theorem Inv.ids_writePeerStates (h : c.Inv) (hids : (states.map (·.region.id)).Nodup) :
    ∀ id l, (c.writePeerStates states).lookup id = some l → l.region.id = id := by
  intro id l hl
  rcases (lookup_writePeerStates hids).mp hl with ⟨-, heq⟩ | ⟨-, hl⟩
  · exact heq
  · exact h.ids id l hl

/-- What a command writes: new states of the regions `old`, which are all the live regions among
those it writes. -/
structure Rewrites (c : Cluster K) (states old : List (RegionLocalState K)) : Prop where
  ids : (states.map (·.region.id)).Nodup
  mem_old : ∀ l, l ∈ old ↔ l ∈ c.replaced states
  nonempty : ∀ l ∈ states, l.isLive → l.range.Nonempty
  disjoint : {l | l ∈ states ∧ l.isLive}.PairwiseDisjoint range
  cover : ∀ x, (∃ l ∈ states, l.isLive ∧ x ∈ l.range) ↔ ∃ l ∈ old, x ∈ l.range
  version : ∀ o ∈ old, ∀ l ∈ states, l.isLive → o.version < l.version

theorem Rewrites.supersedes {old : List (RegionLocalState K)} (h : c.Rewrites states old) :
    Supersedes RegionLocalState.range RegionLocalState.version c.live
      (c.writePeerStates states).live (c.replaced states) {l | l ∈ states ∧ l.isLive} where
  before := fun _ hl => hl.1
  after := live_writePeerStates h.ids
  nonempty := fun l hl => h.nonempty l hl.1 hl.2
  disjoint := h.disjoint
  cover := by
    intro x
    simp only [← h.mem_old, Set.mem_ofPred_eq, and_assoc]
    exact h.cover x
  version := fun o ho l hl => h.version o ((h.mem_old o).mpr ho) l hl.1 hl.2

/-- One region gets another epoch. -/
theorem Inv.rewrites_singleton {l' : RegionLocalState K} (h : c.Inv) (hl : l ∈ c.live)
    (hlive : l'.isLive) (hid : l'.region.id = l.region.id) (hrange : l'.range = l.range)
    (hversion : l.version < l'.version) : c.Rewrites [l'] [l] where
  ids := by simp
  mem_old := by
    intro m
    simp only [mem_singleton, replaced, map_cons, map_nil, hid]
    constructor
    · rintro rfl
      exact ⟨hl, rfl⟩
    · rintro ⟨hm, heq⟩
      exact mem_unique hm.2 (heq ▸ hl.2)
  nonempty := by
    intro m hm _
    obtain rfl := mem_singleton.mp hm
    exact hrange ▸ h.partition.nonempty l hl
  disjoint := by
    intro m hm n hn hne
    exact absurd ((mem_singleton.mp hm.1).trans (mem_singleton.mp hn.1).symm) hne
  cover := by simp [hlive, hrange]
  version := by simpa using fun _ => hversion

/-- A region is split. -/
theorem rewrites_split {reqs : List (SplitRequest K)} {rs : List (Region K)}
    (hl : l ∈ c.live) (hsplit : SplitOf l.region reqs rs)
    (hnodup : (reqs.map (·.newRegionId)).Nodup) (hfresh : ∀ req ∈ reqs, req.newRegionId ∉ c) :
    c.Rewrites (rs.map ({ region := ·, state := .normal })) [l] := by
  have hids : (rs.map fun r => (⟨r, .normal⟩ : RegionLocalState K)).map (·.region.id) =
      rs.map (·.id) := by
    rw [List.map_map]
    rfl
  have hnew : ∀ id ∈ reqs.map (·.newRegionId), c.lookup id = none := by
    intro id hid
    obtain ⟨req, hreq, rfl⟩ := List.mem_map.mp hid
    exact AList.lookup_eq_none.mpr (hfresh req hreq)
  have hmem : ∀ m ∈ c.live, m.region.id ∈ rs.map (·.id) → m = l := by
    intro m hm hid
    rcases mem_cons.mp (hsplit.ids.mem_iff.mp hid) with heq | hid
    · exact mem_unique hm.2 (heq ▸ hl.2)
    · exact absurd (hm.2.symm.trans (hnew _ hid)) (by simp)
  refine ⟨?_, ?_, ?_, ?_, ?_, ?_⟩
  · rw [hids, hsplit.ids.nodup_iff, nodup_cons]
    refine ⟨?_, hnodup⟩
    intro hid
    exact absurd (hl.2.symm.trans (hnew _ hid)) (by simp)
  · intro m
    rw [mem_singleton, replaced, hids]
    constructor
    · rintro rfl
      exact ⟨hl, hsplit.ids.mem_iff.mpr mem_cons_self⟩
    · rintro ⟨hm, hid⟩
      exact hmem m hm hid
  · intro m hm _
    obtain ⟨r, hr, rfl⟩ := List.mem_map.mp hm
    exact hsplit.nonempty r hr
  · rintro m ⟨hm, -⟩ n ⟨hn, -⟩ hne
    obtain ⟨r, hr, rfl⟩ := List.mem_map.mp hm
    obtain ⟨r', hr', rfl⟩ := List.mem_map.mp hn
    exact hsplit.disjoint.forall hr hr' fun heq => hne (heq ▸ rfl)
  · intro x
    have hcover := hsplit.mem_range_iff x
    simpa [RegionLocalState.range, RegionLocalState.isLive] using hcover
  · intro o ho m hm _
    obtain rfl := mem_singleton.mp ho
    obtain ⟨r, hr, rfl⟩ := List.mem_map.mp hm
    exact hsplit.version r hr

/-- A region takes over a neighbour. -/
theorem Inv.rewrites_commitMerge {source : Region K} {m : RegionLocalState K} (h : c.Inv)
    (hl : l ∈ c.live) (hm : c.lookup source.id = some m)
    (hok : execCommitMerge l.region source (some m) = .ok states)
    (hnext : l.region.encEndKey = source.encStartKey ∨
      source.encEndKey = l.region.encStartKey) : c.Rewrites states [l, m] := by
  obtain ⟨existRegion, state⟩ := m
  cases state with
  | normal | tombstone target => simp [execCommitMerge] at hok
  | merging state =>
    simp only [execCommitMerge] at hok
    split_ifs at hok with hsource hpeers
    obtain rfl := not_ne_iff.mp hsource
    have hmlive : (⟨source, .merging state⟩ : RegionLocalState K) ∈ c.live := ⟨rfl, hm⟩
    have hrange := h.partition.nonempty _ hl
    have hsrange : source.range.Nonempty := h.partition.nonempty _ hmlive
    have hcover := Region.mem_range_takeOver hrange hsrange hnext
    obtain ⟨hid, hversion⟩ := Region.takeOver_id_version l.region source
    have honly : ∀ n ∈ states, n.isLive → n = ⟨l.region.takeOver source, .normal⟩ := by
      rw [← Except.ok.inj hok]
      intro n hn hnlive
      rcases mem_pair.mp hn with rfl | rfl
      · rfl
      · cases hnlive
    obtain rfl := Except.ok.inj hok
    -- A region is not its own neighbour.
    have hne : l.region.id ≠ source.id := by
      intro heq
      have hlm : l = ⟨source, .merging state⟩ := mem_unique hl.2 (heq ▸ hm)
      have hlt := Region.startKey_lt_encEndKey hsrange
      subst hlm
      rcases hnext with hend | hend <;> exact absurd hend hlt.ne'
    refine ⟨?_, ?_, ?_, ?_, ?_, ?_⟩
    · simpa [hid] using hne
    · intro n
      simp only [mem_cons, not_mem_nil, or_false, replaced, Set.mem_ofPred_eq,
        map_cons, map_nil, hid]
      constructor
      · rintro (rfl | rfl)
        · exact ⟨hl, .inl rfl⟩
        · exact ⟨hmlive, .inr rfl⟩
      · rintro ⟨hn, heq | heq⟩
        · exact .inl (mem_unique hn.2 (heq ▸ hl.2))
        · exact .inr (mem_unique hn.2 (heq ▸ hm))
    · intro n hn hnlive
      obtain rfl := honly n hn hnlive
      obtain ⟨x, hx⟩ := hrange
      exact ⟨x, (hcover x).mpr (.inl hx)⟩
    · rintro n ⟨hn, hnlive⟩ n' ⟨hn', hnlive'⟩ hnn
      exact absurd ((honly n hn hnlive).trans (honly n' hn' hnlive').symm) hnn
    · intro x
      have hx := hcover x
      simpa [RegionLocalState.range, RegionLocalState.isLive] using hx
    · intro o ho n hn hnlive
      obtain rfl := honly n hn hnlive
      rcases mem_pair.mp ho with rfl | rfl
      · simp only [RegionLocalState.version]
        omega
      · simp only [RegionLocalState.version]
        omega

/-- What a valid command writes is a rewriting of live regions. -/
theorem Inv.rewrites {e : Command K} (h : c.Inv) (hvalid : c.Valid e)
    (hok : c.written e = some (.ok states)) : ∃ old, c.Rewrites states old := by
  have hlive : ∀ {id} {f : Region K → Except (Failure K) (List (RegionLocalState K))},
      (c.delegate id).map f = some (.ok states) → ∃ l ∈ c.live,
        c.delegate id = some l.region ∧ f l.region = .ok states := by
    intro id f hok
    obtain ⟨region, hregion, hok⟩ := map_eq_some_iff.mp hok
    obtain ⟨l, hl, hlive, rfl⟩ := exists_of_delegate hregion
    exact ⟨l, ⟨hlive, (h.ids id l hl).symm ▸ hl⟩, hregion, hok⟩
  cases e with
  | batchSplit id storeId splits =>
    obtain ⟨l, hl, -, hok⟩ := hlive hok
    obtain ⟨rs, hexec, rfl⟩ := map_eq_ok.mp hok
    exact ⟨_, rewrites_split hl (splitOf_of_execBatchSplit hexec) hvalid.1 hvalid.2⟩
  | prepareMerge id firstIndex execLogIndex target minIndex =>
    obtain ⟨l, hl, -, hok⟩ := hlive hok
    obtain ⟨l', hexec, rfl⟩ := map_eq_ok.mp hok
    rw [execPrepareMerge] at hexec
    split_ifs at hexec
    obtain rfl := Except.ok.inj hexec
    exact ⟨_, h.rewrites_singleton hl rfl rfl rfl (Nat.lt_succ_self _)⟩
  | commitMerge id source =>
    obtain ⟨l, hl, hregion, hok⟩ := hlive hok
    cases hm : c.lookup source.id with
    | none => simp [hm, execCommitMerge] at hok
    | some m => exact ⟨_, h.rewrites_commitMerge hl hm (hm ▸ hok) (hvalid _ hregion)⟩
  | rollbackMerge id commit =>
    obtain ⟨l, hl, -, hok⟩ := hlive hok
    obtain ⟨l', hexec, rfl⟩ := map_eq_ok.mp hok
    unfold execRollbackMerge at hexec
    split at hexec
    · split_ifs at hexec
      obtain rfl := Except.ok.inj hexec
      exact ⟨_, h.rewrites_singleton hl rfl rfl rfl (Nat.lt_succ_self _)⟩
    · cases hexec

theorem Inv.supersedes {e : Command K} (h : c.Inv) (hstep : c.Step e c') :
    ∃ old new, Supersedes RegionLocalState.range RegionLocalState.version c.live c'.live
      old new := by
  obtain ⟨hvalid, states, hok, rfl⟩ := hstep
  obtain ⟨old, hold⟩ := h.rewrites hvalid hok
  exact ⟨_, _, hold.supersedes⟩

theorem Inv.step {e : Command K} (h : c.Inv) (hstep : c.Step e c') : c'.Inv := by
  obtain ⟨hvalid, states, hok, rfl⟩ := hstep
  obtain ⟨old, hold⟩ := h.rewrites hvalid hok
  exact ⟨h.ids_writePeerStates hold.ids, h.partition.supersede hold.supersedes⟩

/-- One region has all keys. -/
theorem initial_inv (hstart : region.startKey = ⊥) (hend : region.endKey = ⊥) :
    (initial region).Inv := by
  have hlookup : ∀ id l, (initial region).lookup id = some l ↔
      id = region.id ∧ l = ⟨region, .normal⟩ := by
    intro id l
    rw [AssocMap.lookup_eq_some_iff]
    simp [initial]
  have hrange : ∀ x, x ∈ region.range := by
    intro x
    refine ⟨hstart ▸ bot_le, ?_⟩
    rw [Region.encEndKey, if_pos hend]
    exact WithTop.coe_lt_top x
  have hlive : (initial region).live = {⟨region, .normal⟩} := by
    ext l
    rw [live, Set.mem_ofPred_eq, hlookup]
    constructor
    · rintro ⟨-, -, heq⟩
      exact heq
    · rintro rfl
      exact ⟨rfl, rfl, rfl⟩
  refine ⟨?_, ?_, ?_, ?_⟩
  · intro id l hl
    obtain ⟨rfl, rfl⟩ := (hlookup id l).mp hl
    rfl
  · rw [hlive]
    rintro _ rfl
    exact ⟨⊥, hrange ⊥⟩
  · rw [hlive]
    exact Set.pairwiseDisjoint_singleton _ _
  · intro x
    rw [hlive]
    exact ⟨_, rfl, hrange x⟩

/-- Along a run the region that holds a key is the same one, or its version grows. -/
theorem Inv.version_lt {es : List (Command K)} (h : c.Inv) (hrun : Exec Step c es c')
    {l l' : RegionLocalState K} (hl : l ∈ c.live) (hl' : l' ∈ c'.live) {x : K}
    (hx : x ∈ l.range) (hx' : x ∈ l'.range) : l = l' ∨ l.version < l'.version :=
  version_lt_of_exec (R := Step) (I := Inv) live (fun _ _ _ => Inv.step)
    (fun _ => Inv.partition) (fun _ _ _ => Inv.supersedes) h hrun hl hl' hx hx'

end Cluster

end Tikv.Raftstore
