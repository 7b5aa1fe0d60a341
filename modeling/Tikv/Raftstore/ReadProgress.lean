import Mathlib.Order.MinMax
import Tikv.Foundation.Execution
import Tikv.TxnTypes

/-!
# The safe timestamp of a replica

A leader publishes items `(idx, ts)`: a replica that has applied the log up to `idx` may serve stale
reads up to `ts`. `RegionReadProgress` keeps the largest such timestamp. An item for an index that
is not applied yet is queued. When the region takes over another one by a merge, its timestamp falls
to the smaller of the two, and items that were published before the merge must not raise it again.

The delivered items and the merges are recorded beside the fields of the code. The invariant
attributes the current timestamp, and each queued one, to a delivered item (`JustifiedBy`).
-/

namespace Tikv.Raftstore

open List

/-- `ReadState`. -/
structure ReadState where
  idx : ℕ
  ts : ℕ
deriving DecidableEq

/-- `RegionReadProgressCore`, without what it knows about the leader. -/
structure RegionReadProgressCore where
  appliedIndex : ℕ
  readState : ReadState
  pendingItems : List ReadState
  lastMergeIndex : ℕ
  pause : Bool
  discard : Bool
deriving DecidableEq

namespace RegionReadProgressCore

/-- `RegionReadProgressCore::new`. -/
def new (appliedIndex : ℕ) (isWitness : Bool) : RegionReadProgressCore where
  appliedIndex
  readState := { idx := 0, ts := 0 }
  pendingItems := []
  lastMergeIndex := 0
  pause := isWitness
  discard := isWitness

/-- The loop of `update_applied`: the best item so far and the items left. -/
def consume (appliedIndex : ℕ) (toUpdate : ReadState) :
    List ReadState → ReadState × List ReadState
  | [] => (toUpdate, [])
  | item :: items =>
    if appliedIndex < item.idx then (toUpdate, item :: items)
    else consume appliedIndex (if toUpdate.ts < item.ts then item else toUpdate) items

/-- `update_applied`: the timestamp if it is updated. -/
def updateApplied (c : RegionReadProgressCore) (applied : ℕ) :
    Except Panic (Option ℕ × RegionReadProgressCore) :=
  if applied < c.appliedIndex then .error .assertion
  else
    let (toUpdate, pendingItems) := consume applied c.readState c.pendingItems
    let c := { c with appliedIndex := applied, pendingItems }
    if c.readState.ts < toUpdate.ts then .ok (some toUpdate.ts, { c with readState := toUpdate })
    else .ok (none, c)

/-- `merge_safe_ts`: the timestamp if it is updated. -/
def mergeSafeTs (c : RegionReadProgressCore) (sourceSafeTs mergeIndex : ℕ) :
    Except Panic (Option ℕ × RegionReadProgressCore) :=
  match c.updateApplied mergeIndex with
  | .error e => .error e
  | .ok (_, c) =>
    let targetSafeTs := c.readState.ts
    let ts := min sourceSafeTs targetSafeTs
    .ok (if ts ≠ targetSafeTs then some ts else none,
      { c with lastMergeIndex := mergeIndex, readState := { c.readState with ts } })

/-- Every second item, from the first on. -/
def retainHalf : List ReadState → List ReadState
  | [] => []
  | [item] => [item]
  | item :: _ :: items => item :: retainHalf items

/-- `push_back` into a queue of some capacity. -/
def pushBack (capacity : ℕ) (items : List ReadState) (item : ReadState) : List ReadState :=
  (if capacity ≤ items.length then retainHalf items else items) ++ [item]

/-- `update_safe_ts`: the timestamp if it is updated. -/
def updateSafeTs (c : RegionReadProgressCore) (capacity idx ts : ℕ) :
    Option ℕ × RegionReadProgressCore :=
  if idx < c.lastMergeIndex then (none, c)
  else if idx ≤ c.appliedIndex then
    if c.readState.ts < ts then (some ts, { c with readState := { idx, ts } }) else (none, c)
  else
    match c.pendingItems.getLast? with
    | some prevItem =>
      if ts ≤ prevItem.ts then (none, c)
      else if idx ≤ prevItem.idx then
        -- The last item keeps its index and gets the larger timestamp.
        (none, { c with pendingItems := c.pendingItems.dropLast ++ [{ prevItem with ts }] })
      else (none, { c with pendingItems := pushBack capacity c.pendingItems { idx, ts } })
    | none => (none, { c with pendingItems := pushBack capacity c.pendingItems { idx, ts } })

variable {c c' : RegionReadProgressCore} {applied capacity : ℕ} {best : ReadState}
  {items : List ReadState} {updated : Option ℕ}

/-- The loop keeps the best item so far or takes one whose index is applied. -/
theorem consume_fst (applied : ℕ) (best : ReadState) (items : List ReadState) :
    (consume applied best items).1 = best ∨
      (consume applied best items).1 ∈ items ∧ (consume applied best items).1.idx ≤ applied := by
  induction items generalizing best with
  | nil => exact .inl rfl
  | cons item items ih =>
    rw [consume]
    split_ifs with hidx hts
    · exact .inl rfl
    · rcases ih item with heq | ⟨hmem, hle⟩
      · rw [heq]
        exact .inr ⟨mem_cons_self, not_lt.mp hidx⟩
      · exact .inr ⟨mem_cons_of_mem _ hmem, hle⟩
    · rcases ih best with heq | ⟨hmem, hle⟩
      · exact .inl heq
      · exact .inr ⟨mem_cons_of_mem _ hmem, hle⟩

theorem consume_snd_suffix (applied : ℕ) (best : ReadState) (items : List ReadState) :
    (consume applied best items).2 <:+ items := by
  induction items generalizing best with
  | nil => exact suffix_refl _
  | cons item items ih =>
    rw [consume]
    split_ifs
    · exact suffix_refl _
    · exact (ih item).trans (suffix_cons _ _)
    · exact (ih best).trans (suffix_cons _ _)

theorem lt_of_mem_consume_snd (h : items.Pairwise (·.idx < ·.idx)) :
    ∀ p ∈ (consume applied best items).2, applied < p.idx := by
  induction items generalizing best with
  | nil => exact nofun
  | cons item items ih =>
    obtain ⟨hitem, hitems⟩ := pairwise_cons.mp h
    rw [consume]
    split_ifs with hidx
    · exact forall_mem_cons.mpr ⟨hidx, fun p hp => hidx.trans (hitem p hp)⟩
    · exact ih hitems
    · exact ih hitems

/-- What `update_applied` does. -/
structure Applied (c : RegionReadProgressCore) (applied : ℕ) (updated : Option ℕ)
    (c' : RegionReadProgressCore) : Prop where
  le : c.appliedIndex ≤ applied
  appliedIndex : c'.appliedIndex = applied
  readState : c'.readState = c.readState ∨
    c'.readState ∈ c.pendingItems ∧ c'.readState.idx ≤ applied
  readState_le : c.readState.ts ≤ c'.readState.ts
  ts : c'.readState.ts = max c.readState.ts (consume applied c.readState c.pendingItems).1.ts
  pendingItems : c'.pendingItems = (consume applied c.readState c.pendingItems).2
  lastMergeIndex : c'.lastMergeIndex = c.lastMergeIndex
  pause : c'.pause = c.pause
  discard : c'.discard = c.discard
  updated : updated = some c'.readState.ts ∨ updated = none ∧ c'.readState = c.readState

/-- What `update_applied` does when it does not fail. -/
theorem applied_of_updateApplied (h : c.updateApplied applied = .ok (updated, c')) :
    Applied c applied updated c' := by
  unfold updateApplied at h
  by_cases hlt : applied < c.appliedIndex
  · exact absurd ((if_pos hlt).symm.trans h) (by simp)
  dsimp only at h
  split_ifs at h with hts
  · obtain ⟨rfl, rfl⟩ := Prod.ext_iff.mp (Except.ok.inj h)
    refine ⟨not_lt.mp hlt, rfl, consume_fst _ _ _, hts.le, (max_eq_right hts.le).symm, rfl,
      rfl, rfl, rfl,
      .inl rfl⟩
  · obtain ⟨rfl, rfl⟩ := Prod.ext_iff.mp (Except.ok.inj h)
    exact ⟨not_lt.mp hlt, rfl, .inl rfl, le_rfl, (max_eq_left (not_lt.mp hts)).symm, rfl, rfl, rfl,
      rfl, .inr ⟨rfl, rfl⟩⟩

theorem retainHalf_sublist (items : List ReadState) : (retainHalf items).Sublist items := by
  induction items using retainHalf.induct with
  | case1 | case2 item => exact List.Sublist.refl _
  | case3 item other items ih => exact (ih.cons other).cons_cons item

theorem exists_pushBack (capacity : ℕ) (items : List ReadState) (item : ReadState) :
    ∃ kept, kept.Sublist items ∧ pushBack capacity items item = kept ++ [item] := by
  refine ⟨_, ?_, rfl⟩
  split_ifs
  · exact retainHalf_sublist items
  · exact List.Sublist.refl _

end RegionReadProgressCore

/-- `RegionReadProgress`. -/
structure RegionReadProgress where
  core : RegionReadProgressCore
  safeTs : ℕ
  readIndexSafeTs : ℕ
deriving DecidableEq

namespace RegionReadProgress

/-- `RegionReadProgress::new`. -/
def new (appliedIndex : ℕ) (isWitness : Bool) : RegionReadProgress where
  core := .new appliedIndex isWitness
  safeTs := 0
  readIndexSafeTs := 0

variable (p : RegionReadProgress)

/-- Store an updated timestamp, unless the progress is paused. -/
def store (updated : Option ℕ × RegionReadProgressCore) : RegionReadProgress :=
  { p with
    core := updated.2
    safeTs := if updated.2.pause then p.safeTs else updated.1.getD p.safeTs }

/-- `update_applied`. -/
def updateApplied (applied : ℕ) : Except Panic RegionReadProgress :=
  (p.core.updateApplied applied).map p.store

/-- `update_safe_ts`. -/
def updateSafeTs (capacity applyIndex ts : ℕ) : RegionReadProgress :=
  if applyIndex = 0 ∨ ts = 0 then p
  else if p.core.discard then p
  else p.store (p.core.updateSafeTs capacity applyIndex ts)

/-- `merge_safe_ts`. -/
def mergeSafeTs (sourceSafeTs mergeIndex : ℕ) : Except Panic RegionReadProgress :=
  (p.core.mergeSafeTs sourceSafeTs mergeIndex).map fun updated =>
    { p.store updated with readIndexSafeTs := 0 }

/-- `pause`. -/
def pause : RegionReadProgress :=
  { core := { p.core with pause := true }, safeTs := 0, readIndexSafeTs := 0 }

/-- `discard`. -/
def discard : RegionReadProgress :=
  { p with core := { p.core with pause := true, discard := true }, readIndexSafeTs := 0 }

/-- `resume`. -/
def resume : RegionReadProgress where
  core := { p.core with pause := false, discard := false }
  safeTs := p.core.readState.ts
  readIndexSafeTs := 0

/-- `update_read_index_safe_ts`, where the largest number stands for no timestamp. -/
def updateReadIndexSafeTs (startTs : ℕ) : RegionReadProgress :=
  if startTs = 2 ^ 64 - 1 ∨ p.core.pause ∨ p.core.discard then p
  else { p with readIndexSafeTs := max p.readIndexSafeTs startTs }

end RegionReadProgress

/-- What is called on the progress of a replica. The capacity is that of the queue when an item is
pushed. -/
inductive ReadProgressEvent
  | updateSafeTs (capacity idx ts : ℕ)
  | updateApplied (applied : ℕ)
  | mergeSafeTs (sourceSafeTs mergeIndex : ℕ)
  | pause
  | resume
  | discard
  | updateReadIndexSafeTs (startTs : ℕ)
deriving DecidableEq

/-- A merge: the timestamps of the two regions and the index at which it was applied. -/
structure Merge where
  sourceSafeTs : ℕ
  targetSafeTs : ℕ
  mergeIndex : ℕ
deriving DecidableEq

/-- A replica with the items that were delivered to it and the merges it has applied. -/
structure Replica where
  progress : RegionReadProgress
  delivered : List ReadState
  merges : List Merge
deriving DecidableEq

namespace Replica

/-- A new replica. -/
def new (appliedIndex : ℕ) (isWitness : Bool) : Replica where
  progress := .new appliedIndex isWitness
  delivered := []
  merges := []

variable (s : Replica)

/-- The timestamp of the target region when the merge is applied: all items before it count. -/
def targetSafeTs (mergeIndex : ℕ) : ℕ :=
  let c := s.progress.core
  max c.readState.ts (RegionReadProgressCore.consume mergeIndex c.readState c.pendingItems).1.ts

/-- One call. -/
def step : ReadProgressEvent → Except Panic Replica
  | .updateSafeTs capacity idx ts => .ok { s with
      progress := s.progress.updateSafeTs capacity idx ts
      delivered := { idx, ts } :: s.delivered }
  | .updateApplied applied => (s.progress.updateApplied applied).map ({ s with progress := · })
  | .mergeSafeTs sourceSafeTs mergeIndex =>
    (s.progress.mergeSafeTs sourceSafeTs mergeIndex).map fun progress =>
      { s with
        progress
        merges := { sourceSafeTs, targetSafeTs := s.targetSafeTs mergeIndex, mergeIndex } ::
          s.merges }
  | .pause => .ok { s with progress := s.progress.pause }
  | .resume => .ok { s with progress := s.progress.resume }
  | .discard => .ok { s with progress := s.progress.discard }
  | .updateReadIndexSafeTs startTs =>
    .ok { s with progress := s.progress.updateReadIndexSafeTs startTs }

/-- A timestamp is justified at an index: a delivered item for that index or an earlier one has it
or a larger one, and it is within the limit of every merge after that item. -/
def JustifiedBy (limit : Merge → ℕ) (ts index : ℕ) : Prop :=
  ∃ item ∈ s.delivered, ts ≤ item.ts ∧ item.idx ≤ index ∧
    ∀ merge ∈ s.merges, item.idx < merge.mergeIndex → ts ≤ limit merge

instance (s : Replica) (limit : Merge → ℕ) (ts index : ℕ) :
    Decidable (s.JustifiedBy limit ts index) :=
  inferInstanceAs (Decidable (∃ item ∈ s.delivered, _))

/-- The safe timestamp is justified at the applied index. -/
def SafeTsJustified (limit : Merge → ℕ) : Prop :=
  0 < s.progress.safeTs → s.JustifiedBy limit s.progress.safeTs s.progress.core.appliedIndex

instance (s : Replica) (limit : Merge → ℕ) : Decidable (s.SafeTsJustified limit) :=
  inferInstanceAs (Decidable (_ → _))

/-- No item that was published before a merge is hidden behind the merge: when a merge is applied,
the timestamp of each item queued for a later index was published for that index or one not before
the merge, and the progress is not discarding. -/
def MergeSafe : ReadProgressEvent → Prop
  | .mergeSafeTs _ mergeIndex => s.progress.core.discard = false ∧
    ∀ p ∈ s.progress.core.pendingItems, mergeIndex < p.idx →
      ∃ item ∈ s.delivered, p.ts ≤ item.ts ∧ mergeIndex ≤ item.idx ∧ item.idx ≤ p.idx
  | _ => True

instance (s : Replica) : (e : ReadProgressEvent) → Decidable (s.MergeSafe e)
  | .mergeSafeTs .. => inferInstanceAs (Decidable (_ ∧ _))
  | .updateSafeTs .. | .updateApplied _ | .pause | .resume | .discard
  | .updateReadIndexSafeTs _ => .isTrue trivial

/-- The calls that return. -/
def Step (e : ReadProgressEvent) (t : Replica) : Prop := s.step e = .ok t

/-- The replica after some calls, as far as they return. -/
def run (s : Replica) : List ReadProgressEvent → Replica
  | [] => s
  | e :: es =>
    match s.step e with
    | .ok t => run t es
    | .error _ => s

/-- An item published for index 8 arrives late, is put into the queued item for index 10, and counts
again after the merge at index 9. -/
def lateItem : List ReadProgressEvent :=
  [.updateSafeTs 10 10 5, .updateSafeTs 10 8 7, .mergeSafeTs 4 9, .updateApplied 10]

theorem not_safeTsJustified_lateItem :
    Exec Step (new 0 false) lateItem ((new 0 false).run lateItem) ∧
      ((new 0 false).run lateItem).progress.safeTs = 7 ∧
      ¬((new 0 false).run lateItem).SafeTsJustified (·.sourceSafeTs) :=
  ⟨.cons rfl (.cons rfl (.cons rfl (.cons rfl (.nil _)))), by decide, by decide⟩

/-! ### The invariant -/

variable {s t : Replica} {limit : Merge → ℕ} {ts ts' index index' : ℕ}

section

variable (h : s.JustifiedBy limit ts index)
include h

theorem JustifiedBy.mono (hts : ts' ≤ ts) (hindex : index ≤ index') :
    s.JustifiedBy limit ts' index' := by
  obtain ⟨item, hitem, hle, hidx, hmerges⟩ := h
  exact ⟨item, hitem, hts.trans hle, hidx.trans hindex,
    fun merge hmerge hlt => hts.trans (hmerges merge hmerge hlt)⟩

theorem JustifiedBy.deliver (hsub : s.delivered ⊆ t.delivered) (hmerges : t.merges = s.merges) :
    t.JustifiedBy limit ts index := by
  obtain ⟨item, hitem, hle, hidx, hlimit⟩ := h
  exact ⟨item, hsub hitem, hle, hidx, hmerges ▸ hlimit⟩

/-- A merge keeps what is within its limit. -/
theorem JustifiedBy.merge {merge : Merge} (hdelivered : t.delivered = s.delivered)
    (hmerges : t.merges = merge :: s.merges) (hlimit : ts ≤ limit merge) :
    t.JustifiedBy limit ts index := by
  obtain ⟨item, hitem, hle, hidx, hall⟩ := h
  refine ⟨item, hdelivered ▸ hitem, hle, hidx, ?_⟩
  intro m hm hlt
  rw [hmerges] at hm
  rcases mem_cons.mp hm with rfl | hm
  · exact hlimit
  · exact hall m hm hlt

end

/-- An item published for an index that is not before the last merge. -/
theorem justifiedBy_of_le {idx : ℕ} (hitem : ⟨idx, ts⟩ ∈ s.delivered) (hindex : idx ≤ index)
    (hmerges : ∀ merge ∈ s.merges, merge.mergeIndex ≤ idx) : s.JustifiedBy limit ts index :=
  ⟨_, hitem, le_rfl, hindex, fun merge hmerge hlt => absurd (hmerges merge hmerge) (not_le.mpr hlt)⟩

/-- What holds of a replica. -/
structure Inv (limit : Merge → ℕ) (s : Replica) : Prop where
  sorted : s.progress.core.pendingItems.Pairwise (·.idx < ·.idx)
  merges : ∀ merge ∈ s.merges, merge.mergeIndex ≤ s.progress.core.lastMergeIndex
  lastMergeIndex : s.progress.core.lastMergeIndex ≤ s.progress.core.appliedIndex
  pending : ∀ p ∈ s.progress.core.pendingItems, s.JustifiedBy limit p.ts p.idx
  readState : 0 < s.progress.core.readState.ts →
    s.JustifiedBy limit s.progress.core.readState.ts s.progress.core.appliedIndex
  safeTs : s.SafeTsJustified limit
  safeTs_le : s.progress.core.pause = false → s.progress.safeTs ≤ s.progress.core.readState.ts
  paused : s.progress.core.pause = true → s.progress.core.discard = true ∨ s.progress.safeTs = 0

theorem inv_new (appliedIndex : ℕ) (isWitness : Bool) : Inv limit (new appliedIndex isWitness) where
  sorted := .nil
  merges := nofun
  lastMergeIndex := Nat.zero_le _
  pending := nofun
  readState := nofun
  safeTs := nofun
  safeTs_le := fun _ => le_rfl
  paused := fun _ => .inr rfl

section

variable (h : Inv limit s)
include h

/-- Nothing but delivered items is new. -/
theorem Inv.deliver (hprogress : t.progress = s.progress) (hsub : s.delivered ⊆ t.delivered)
    (hmerges : t.merges = s.merges) : Inv limit t where
  sorted := hprogress ▸ h.sorted
  merges := hmerges ▸ hprogress ▸ h.merges
  lastMergeIndex := hprogress ▸ h.lastMergeIndex
  pending := by
    rw [hprogress]
    exact fun p hp => (h.pending p hp).deliver hsub hmerges
  readState := by
    rw [hprogress]
    exact fun hpos => (h.readState hpos).deliver hsub hmerges
  safeTs := by
    rw [SafeTsJustified, hprogress]
    exact fun hpos => (h.safeTs hpos).deliver hsub hmerges
  safeTs_le := hprogress ▸ h.safeTs_le
  paused := hprogress ▸ h.paused

variable {c : RegionReadProgressCore}

open RegionReadProgressCore in
/-- The core is replaced by one whose timestamp is not smaller, and the new timestamp is stored. -/
theorem Inv.store {updated : Option ℕ} (hsorted : c.pendingItems.Pairwise (·.idx < ·.idx))
    (hlast : c.lastMergeIndex = s.progress.core.lastMergeIndex)
    (happlied : s.progress.core.appliedIndex ≤ c.appliedIndex)
    (hpause : c.pause = s.progress.core.pause) (hdiscard : c.discard = s.progress.core.discard)
    (hpending : ∀ p ∈ c.pendingItems, s.JustifiedBy limit p.ts p.idx)
    (hread : 0 < c.readState.ts → s.JustifiedBy limit c.readState.ts c.appliedIndex)
    (hle : s.progress.core.readState.ts ≤ c.readState.ts)
    (hupdated : updated = some c.readState.ts ∨ updated = none) :
    Inv limit { s with progress := s.progress.store (updated, c) } where
  sorted := hsorted
  merges := fun merge hmerge => hlast ▸ h.merges merge hmerge
  lastMergeIndex := by
    change c.lastMergeIndex ≤ c.appliedIndex
    rw [hlast]
    exact h.lastMergeIndex.trans happlied
  pending := hpending
  readState := hread
  safeTs := by
    have hold : 0 < s.progress.safeTs →
        s.JustifiedBy limit s.progress.safeTs c.appliedIndex :=
      fun hpos => (h.safeTs hpos).mono le_rfl happlied
    intro hpos
    simp only [RegionReadProgress.store] at hpos ⊢
    split_ifs at hpos ⊢
    · exact hold hpos
    · rcases hupdated with rfl | rfl
      · exact hread hpos
      · exact hold hpos
  safeTs_le := by
    intro hnot
    change c.pause = false at hnot
    simp only [RegionReadProgress.store, hnot]
    rcases hupdated with rfl | rfl
    · exact le_rfl
    · exact (h.safeTs_le (hpause ▸ hnot)).trans hle
  paused := by
    intro hpaused
    change c.pause = true at hpaused
    simp only [RegionReadProgress.store, hpaused, hdiscard]
    exact h.paused (hpause ▸ hpaused)

/-- A delivered item is taken at once, or waits until its index is applied. -/
theorem Inv.updateSafeTs {capacity idx : ℕ} (hitem : ⟨idx, ts⟩ ∈ s.delivered) :
    Inv limit { s with progress := s.progress.updateSafeTs capacity idx ts } := by
  unfold RegionReadProgress.updateSafeTs
  split_ifs
  · exact h
  · exact h
  set c := s.progress.core with hc
  have hsame : Inv limit { s with progress := s.progress.store (none, c) } :=
    h.store h.sorted rfl le_rfl rfl rfl h.pending h.readState le_rfl (.inr rfl)
  unfold RegionReadProgressCore.updateSafeTs
  by_cases hmerge : idx < c.lastMergeIndex
  · rw [if_pos hmerge]
    exact hsame
  have hmerges : ∀ merge ∈ s.merges, merge.mergeIndex ≤ idx :=
    fun merge hm => (h.merges merge hm).trans (not_lt.mp hmerge)
  split_ifs with happlied hts
  · exact h.store h.sorted rfl le_rfl rfl rfl h.pending
      (fun _ => justifiedBy_of_le hitem happlied hmerges) hts.le (.inl rfl)
  · exact hsame
  -- The item goes to the end of the queue, and the items before it were there.
  have hput : ∀ kept last, kept.Sublist c.pendingItems → last.ts = ts → idx ≤ last.idx →
      (∀ p ∈ kept, p.idx < last.idx) → Inv limit { s with
        progress := s.progress.store (none, { c with pendingItems := kept ++ [last] }) } := by
    rintro kept last hkept rfl hle hlt
    refine h.store ?_ rfl le_rfl rfl rfl ?_ h.readState le_rfl (.inr rfl)
    · exact pairwise_append.mpr ⟨h.sorted.sublist hkept, pairwise_singleton _ _,
        fun p hp => forall_mem_singleton.mpr (hlt p hp)⟩
    · exact forall_mem_append.mpr ⟨fun p hp => h.pending p (hkept.subset hp),
        forall_mem_singleton.mpr (justifiedBy_of_le hitem hle hmerges)⟩
  have hpush : (∀ p ∈ c.pendingItems, p.idx < idx) → Inv limit { s with
      progress := s.progress.store (none, { c with
        pendingItems := RegionReadProgressCore.pushBack capacity c.pendingItems ⟨idx, ts⟩ }) } := by
    intro hlt
    obtain ⟨kept, hkept, hpush⟩ :=
      RegionReadProgressCore.exists_pushBack capacity c.pendingItems ⟨idx, ts⟩
    rw [hpush]
    exact hput kept _ hkept rfl le_rfl fun p hp => hlt p (hkept.subset hp)
  cases hlast : c.pendingItems.getLast? with
  | none =>
    rw [getLast?_eq_none_iff] at hlast
    exact hpush (by simp [hlast])
  | some prevItem =>
    dsimp only
    obtain ⟨front, hfront⟩ := getLast?_eq_some_iff.mp hlast
    have hsorted := h.sorted
    rw [hfront] at hsorted
    obtain ⟨-, -, hcross⟩ := pairwise_append.mp hsorted
    have hcross := fun p hp => forall_mem_singleton.mp (hcross p hp)
    split_ifs with hprevTs hprevIdx
    · exact hsame
    · refine hput _ _ (dropLast_sublist _) rfl hprevIdx ?_
      rwa [hfront, dropLast_concat]
    · refine hpush ?_
      have hlt := not_le.mp hprevIdx
      rw [hfront]
      exact forall_mem_append.mpr
        ⟨fun p hp => (hcross p hp).trans hlt, forall_mem_singleton.mpr hlt⟩

open RegionReadProgressCore in
/-- The justification of the timestamp after `update_applied`. -/
theorem Inv.justifiedBy_applied {applied : ℕ} {updated : Option ℕ}
    (hc : Applied s.progress.core applied updated c) (hpos : 0 < c.readState.ts) :
    s.JustifiedBy limit c.readState.ts applied := by
  rcases hc.readState with heq | ⟨hmem, hidx⟩
  · rw [heq] at hpos ⊢
    exact (h.readState hpos).mono le_rfl hc.le
  · exact (h.pending _ hmem).mono le_rfl hidx

open RegionReadProgressCore in
/-- The items up to the applied index are taken. -/
theorem Inv.updateApplied {applied : ℕ} {p : RegionReadProgress}
    (hp : s.progress.updateApplied applied = .ok p) : Inv limit { s with progress := p } := by
  obtain ⟨⟨updated, c⟩, hc, rfl⟩ := map_eq_ok.mp hp
  have hc := applied_of_updateApplied hc
  have hsuffix := consume_snd_suffix applied s.progress.core.readState
    s.progress.core.pendingItems
  rw [← hc.pendingItems] at hsuffix
  refine h.store (h.sorted.sublist hsuffix.sublist) hc.lastMergeIndex (hc.appliedIndex ▸ hc.le)
    hc.pause hc.discard (fun p hp => h.pending p (hsuffix.subset hp)) ?_ hc.readState_le
    (hc.updated.imp_right And.left)
  intro hpos
  rw [hc.appliedIndex]
  exact h.justifiedBy_applied hc hpos

open RegionReadProgressCore in
/-- A merge that no queued item is hidden behind. -/
theorem Inv.mergeSafeTs {sourceSafeTs mergeIndex : ℕ}
    (hlimit : ∀ merge, min merge.sourceSafeTs merge.targetSafeTs ≤ limit merge)
    (hsafe : s.MergeSafe (.mergeSafeTs sourceSafeTs mergeIndex))
    (ht : s.step (.mergeSafeTs sourceSafeTs mergeIndex) = .ok t) : Inv limit t := by
  obtain ⟨p, hp, rfl⟩ := map_eq_ok.mp ht
  obtain ⟨⟨updated, c'⟩, hc', rfl⟩ := map_eq_ok.mp hp
  obtain ⟨hdiscard, hqueued⟩ := hsafe
  unfold RegionReadProgressCore.mergeSafeTs at hc'
  cases happlied : s.progress.core.updateApplied mergeIndex with
  | error e => simp [happlied] at hc'
  | ok result =>
    obtain ⟨updated', c⟩ := result
    simp only [happlied, Except.ok.injEq, Prod.mk.injEq] at hc'
    obtain ⟨hupdated, rfl⟩ := hc'
    have hc := applied_of_updateApplied happlied
    have hsuffix := consume_snd_suffix mergeIndex s.progress.core.readState
      s.progress.core.pendingItems
    rw [← hc.pendingItems] at hsuffix
    set merge : Merge := ⟨sourceSafeTs, s.targetSafeTs mergeIndex, mergeIndex⟩ with hmerge
    have htarget : merge.targetSafeTs = c.readState.ts := hc.ts.symm
    have hmin : min sourceSafeTs c.readState.ts ≤ limit merge := htarget ▸ hlimit merge
    have hmerges : ∀ m ∈ merge :: s.merges, m.mergeIndex ≤ mergeIndex := forall_mem_cons.mpr
      ⟨le_rfl, fun m hm => (h.merges m hm).trans (h.lastMergeIndex.trans hc.le)⟩
    have hread : ∀ progress, 0 < min sourceSafeTs c.readState.ts →
        JustifiedBy ⟨progress, s.delivered, merge :: s.merges⟩ limit
          (min sourceSafeTs c.readState.ts) c.appliedIndex := by
      intro progress hpos
      have hc' := h.justifiedBy_applied hc (hpos.trans_le (min_le_right _ _))
      rw [hc.appliedIndex]
      exact (hc'.mono (min_le_right _ _) le_rfl).merge rfl rfl hmin
    have hstore : c.pause = false → (if min sourceSafeTs c.readState.ts ≠ c.readState.ts
        then some (min sourceSafeTs c.readState.ts) else none).getD s.progress.safeTs ≤
          min sourceSafeTs c.readState.ts := by
      intro hpause
      split_ifs with hne
      · exact le_rfl
      · have heq := not_ne_iff.mp hne
        rw [heq]
        exact (h.safeTs_le (hc.pause ▸ hpause)).trans hc.readState_le
    have hzero : c.pause = true → s.progress.safeTs = 0 := by
      intro hpause
      rcases h.paused (hc.pause ▸ hpause) with htrue | hzero
      · exact absurd (hdiscard.symm.trans htrue) (by simp)
      · exact hzero
    subst hupdated
    refine ⟨h.sorted.sublist hsuffix.sublist, hmerges, hc.appliedIndex ▸ le_rfl, ?_, hread _, ?_,
      ?_, ?_⟩
    · intro p hp
      -- What is left in the queue was published after the merge.
      have hidx : mergeIndex < p.idx := by
        rw [hc.pendingItems] at hp
        exact lt_of_mem_consume_snd h.sorted p hp
      obtain ⟨item, hitem, hle, hge, hidx'⟩ := hqueued p (hsuffix.subset hp) hidx
      exact ⟨item, hitem, hle, hidx',
        fun m hm hlt => absurd ((hmerges m hm).trans hge) (not_le.mpr hlt)⟩
    · intro hpos
      cases hpause : c.pause with
      | true =>
        simp only [hpause] at hpos
        exact absurd (hzero hpause) hpos.ne'
      | false =>
        have hle := hstore hpause
        simp only [hpause] at hpos ⊢
        exact (hread _ (hpos.trans_le hle)).mono hle le_rfl
    · intro hpause
      change c.pause = false at hpause
      simp only [hpause]
      exact hstore hpause
    · intro hpause
      change c.pause = true at hpause
      simp only [hpause]
      exact .inr (hzero hpause)

/-- **Every step keeps the invariant.** -/
theorem Inv.step {e : ReadProgressEvent}
    (hlimit : ∀ merge, min merge.sourceSafeTs merge.targetSafeTs ≤ limit merge)
    (hsafe : s.MergeSafe e) (hstep : s.Step e t) : Inv limit t := by
  cases e with
  | updateSafeTs capacity idx ts =>
    obtain rfl := Except.ok.inj hstep
    have hdeliver : Inv limit { s with delivered := ⟨idx, ts⟩ :: s.delivered } :=
      h.deliver rfl (subset_cons_self _ _) rfl
    exact hdeliver.updateSafeTs mem_cons_self
  | updateApplied applied =>
    obtain ⟨p, hp, rfl⟩ := map_eq_ok.mp hstep
    exact h.updateApplied hp
  | mergeSafeTs sourceSafeTs mergeIndex => exact h.mergeSafeTs hlimit hsafe hstep
  | pause =>
    obtain rfl := Except.ok.inj hstep
    exact { h with safeTs := nofun, safeTs_le := nofun, paused := fun _ => .inr rfl }
  | resume =>
    obtain rfl := Except.ok.inj hstep
    exact { h with safeTs := h.readState, safeTs_le := fun _ => le_rfl, paused := nofun }
  | discard =>
    obtain rfl := Except.ok.inj hstep
    exact { h with safeTs_le := nofun, paused := fun _ => .inl rfl }
  | updateReadIndexSafeTs startTs =>
    obtain rfl := Except.ok.inj hstep
    unfold RegionReadProgress.updateReadIndexSafeTs
    split_ifs
    · exact h
    · exact { h with }

end

/-- **The safe timestamp of a replica is justified.** If no merge hides an item that was published
before it, then in every state of a run some delivered item for an index that is applied has the
safe timestamp or a larger one, and the safe timestamp is at most that of the source of every merge
after that item, and at most the smaller one of source and target. -/
theorem safeTs_justified (appliedIndex : ℕ) (isWitness : Bool) (events : List ReadProgressEvent)
    (s : Replica)
    (hrun : Exec (fun s e t => Step s e t ∧ s.MergeSafe e) (new appliedIndex isWitness) events s) :
    s.SafeTsJustified (·.sourceSafeTs) ∧
      s.SafeTsJustified fun merge => min merge.sourceSafeTs merge.targetSafeTs := by
  have hinv : ∀ limit : Merge → ℕ,
      (∀ merge, min merge.sourceSafeTs merge.targetSafeTs ≤ limit merge) → Inv limit s :=
    fun limit hlimit => hrun.invariant (I := Inv limit)
      (fun _ _ _ h hstep => h.step hlimit hstep.2 hstep.1) (inv_new _ _)
  exact ⟨(hinv _ fun merge => min_le_left _ _).safeTs, (hinv _ fun merge => le_rfl).safeTs⟩

/-- An item is queued, and counts after the merge at its index. -/
theorem safeTs_justified_queuedItem :
    let s := (new 0 false).run [.updateSafeTs 10 8 7, .updateSafeTs 10 9 8, .mergeSafeTs 4 8,
      .updateApplied 9]
    s.progress.safeTs = 8 ∧ s.SafeTsJustified (·.sourceSafeTs) :=
  ⟨by decide, (safeTs_justified 0 false
    [.updateSafeTs 10 8 7, .updateSafeTs 10 9 8, .mergeSafeTs 4 8, .updateApplied 9] _
    (.cons ⟨Eq.refl (Except.ok _), by decide⟩ (.cons ⟨Eq.refl (Except.ok _), by decide⟩
      (.cons ⟨Eq.refl (Except.ok _), by decide⟩ (.cons ⟨Eq.refl (Except.ok _), by decide⟩
        (.nil _)))))).1⟩

end Replica

end Tikv.Raftstore
