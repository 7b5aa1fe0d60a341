import Mathlib.Algebra.Order.Ring.Nat
import Tikv.Foundation.AssocMap
import Tikv.Foundation.Tally
import Tikv.TxnTypes

/-!
# The resolver of a region

A `Resolver` follows the locks of a region. The resolved timestamp it gives out does not pass the
start timestamp of a tracked lock, nor the `min_ts` a call of `resolve` brings with it, so it stays
below every commit that is still to come.

The locks of a normal transaction are tracked by key, and counted by start timestamp in
`lock_ts_heap`. Of a pipelined transaction (its locks have a generation) only one key is tracked,
and its `min_commit_ts` comes from a cache of transaction states, whose answer is given to a call.

The heap is the tally of the locks (**`Resolver.Tracks`**), which `track_lock` and `untrack_lock`
keep, so that `resolve` sees the oldest lock (`Resolver.resolve_spec`).
-/

namespace Tikv.ResolvedTs

open AssocMap

/-- The locks of one transaction. -/
structure TxnLocks (K : Type) where
  lockCount : ℕ := 0
  sampleLock : Option K := none

/-- What the cache of transaction states knows about a transaction. -/
inductive TxnState
  | ongoing (minCommitTs : ℕ)
  | committed (commitTs : ℕ)
  | rolledBack

structure Resolver (K : Type) where
  /-- The start timestamps of the locks of normal transactions. -/
  locksByKey : AssocMap.Map K ℕ := ∅
  lockTsHeap : OrderedMap ℕ (TxnLocks K) := .empty
  largeTxns : AssocMap.Map ℕ (TxnLocks K) := ∅
  /-- For each large transaction the one key that stands for it. -/
  largeTxnKeyRepresentative : AssocMap.Map K ℕ := ∅
  resolvedTs : ℕ := 0
  minTs : ℕ := 0
  stopped : Bool := false

/-- `Iterator::min_by_key` on the timestamp: the first one of the smallest. -/
def minByTs {α : Type} (l : List (ℕ × α)) : Option (ℕ × α) :=
  l.foldl (fun best x => match best with
    | none => some x
    | some y => if x.1 < y.1 then some x else some y) none

namespace Resolver

variable {K : Type} [DecidableEq K] (r : Resolver K)

def trackNormalLock (startTs : ℕ) (key : K) : Resolver K :=
  match r.locksByKey.lookup key with
  | some _ => r
  | none =>
    let txnLocks := (r.lockTsHeap.lookup startTs).getD { sampleLock := some key }
    { r with
      lockTsHeap := r.lockTsHeap.insert startTs
        { txnLocks with lockCount := txnLocks.lockCount + 1 }
      locksByKey := r.locksByKey.insert key startTs }

def trackLargeTxnLock (startTs : ℕ) (key : K) : Resolver K :=
  match r.largeTxns.lookup startTs with
  | some entry =>
    { r with
      largeTxns := r.largeTxns.insert startTs { entry with lockCount := entry.lockCount + 1 } }
  | none =>
    { r with
      largeTxnKeyRepresentative := r.largeTxnKeyRepresentative.insert key startTs
      largeTxns := r.largeTxns.insert startTs { lockCount := 1, sampleLock := some key } }

def trackLock (startTs : ℕ) (key : K) (generation : ℕ) : Resolver K :=
  if generation = 0 then r.trackNormalLock startTs key else r.trackLargeTxnLock startTs key

def untrackLock (key : K) : Resolver K :=
  match r.locksByKey.lookup key with
  | some startTs =>
    { r with
      locksByKey := r.locksByKey.erase key
      lockTsHeap := match r.lockTsHeap.lookup startTs with
        | some txnLocks =>
          let lockCount := txnLocks.lockCount - 1
          if lockCount = 0 then r.lockTsHeap.erase startTs
          else r.lockTsHeap.insert startTs { txnLocks with lockCount }
        | none => r.lockTsHeap }
  | none =>
    match r.largeTxnKeyRepresentative.lookup key with
    | some startTs =>
      { r with
        largeTxnKeyRepresentative := r.largeTxnKeyRepresentative.erase key
        largeTxns := r.largeTxns.erase startTs }
    | none => r

variable (cache : ℕ → Option TxnState)

/-- The least timestamp the transaction can still commit at, if it has not ended. -/
def lookupMinCommitTs (startTs : ℕ) : Option ℕ :=
  match cache startTs with
  | none => some startTs
  | some (.ongoing minCommitTs) => some minCommitTs
  | some (.committed _) | some .rolledBack => none

/-- The bound that the tracked locks put on the resolved timestamp. -/
def oldestTransaction : Except Panic (Option (ℕ × TxnLocks K)) := do
  let oldestNormalTxn := r.lockTsHeap.entries.head?
  let largeTxns ← (r.largeTxns.entries.filterMap fun e =>
    (lookupMinCommitTs cache e.1).map fun ts => (ts, e.2)).mapM fun txn => do
      return (← TimeStamp.prev txn.1, txn.2)
  match oldestNormalTxn, minByTs largeTxns with
  | some (ts₁, txnLocks₁), some (ts₂, txnLocks₂) =>
    return if ts₁ < ts₂ then some (ts₁, txnLocks₁) else some (ts₂, txnLocks₂)
  | some txn, none => return some txn
  | none, some txn => return some txn
  | none, none => return none

/-- The new resolved timestamp. -/
def resolve (minTs : ℕ) : Except Panic (ℕ × Resolver K) := do
  if r.stopped then return (r.resolvedTs, r)
  let minLock ← r.oldestTransaction cache
  let minTxnTs := (minLock.map Prod.fst).getD minTs
  let newResolvedTs := min minTxnTs minTs
  let newMinTs := if minLock.isSome then newResolvedTs else minTs
  let resolvedTs := max r.resolvedTs newResolvedTs
  return (resolvedTs, { r with resolvedTs, minTs := max r.minTs newMinTs })

/-! ### The locks the resolver tracks -/

/-- The start timestamp of the lock tracked on a key. -/
def tracked (key : K) : Option ℕ := r.locksByKey.lookup key

/-- The number of the locks that are tracked with the start timestamp. -/
def lockCountAt (ts : ℕ) : ℕ :=
  count r.locksByKey fun _ startTs => startTs = ts

/-- A resolver that is at work and has seen locks of normal transactions only. -/
structure Tracks : Prop where
  heap : Tallies r.lockTsHeap (fun txnLocks => (txnLocks.lockCount : ℤ)) r.lockCountAt
  noLargeTxns : r.largeTxns = ∅
  noRepresentative : r.largeTxnKeyRepresentative = ∅
  running : r.stopped = false

variable {r : Resolver K} {startTs minTs : ℕ} {key : K}

omit [DecidableEq K] in
theorem Tracks.new : ({} : Resolver K).Tracks where
  heap := .empty fun _ => count_empty
  noLargeTxns := rfl
  noRepresentative := rfl
  running := rfl

theorem lockCountAt_insert (h : r.locksByKey.lookup key = none) (ts : ℕ) :
    count (r.locksByKey.insert key startTs) (fun _ startTs => startTs = ts) =
      r.lockCountAt ts + if startTs = ts then 1 else 0 := by
  rw [count_insert, erase_of_lookup h, lockCountAt]
  simp only [decide_eq_true_eq]

theorem lockCountAt_erase (h : r.locksByKey.lookup key = some startTs) (ts : ℕ) :
    r.lockCountAt ts =
      count (r.locksByKey.erase key) (fun _ startTs => startTs = ts) +
        if startTs = ts then 1 else 0 := by
  rw [lockCountAt, count_erase h]
  simp only [decide_eq_true_eq]

/-- A key that is tracked already keeps its lock. -/
theorem tracked_trackLock (r : Resolver K) (startTs : ℕ) (key k : K) :
    (r.trackLock startTs key 0).tracked k =
      if k = key ∧ r.tracked key = none then some startTs else r.tracked k := by
  rw [trackLock, if_pos rfl, trackNormalLock]
  split
  · rename_i hlookup
    rw [if_neg]
    rintro ⟨-, hnone⟩
    exact nomatch hnone.symm.trans hlookup
  · rename_i hlookup
    rw [tracked, lookup_insert]
    by_cases hk : k = key
    · rw [if_pos hk, if_pos ⟨hk, hlookup⟩]
    · rw [if_neg hk, if_neg fun h => hk h.1, tracked]

theorem resolvedTs_trackLock (r : Resolver K) (startTs : ℕ) (key : K) (generation : ℕ) :
    (r.trackLock startTs key generation).resolvedTs = r.resolvedTs := by
  rw [trackLock, trackNormalLock, trackLargeTxnLock]
  split <;> split <;> rfl

theorem resolvedTs_untrackLock (r : Resolver K) (key : K) :
    (r.untrackLock key).resolvedTs = r.resolvedTs := by
  rw [untrackLock]
  split
  · rfl
  · split <;> rfl

/-- Tracking a lock counts it, unless the key is tracked already. -/
theorem Tracks.trackLock (h : r.Tracks) (startTs : ℕ) (key : K) :
    (r.trackLock startTs key 0).Tracks := by
  rw [Resolver.trackLock, if_pos rfl, trackNormalLock]
  split
  · exact h
  · rename_i hlookup
    refine { h with heap := h.heap.insert ?_ ?_ ?_ }
    · intro ts hts
      exact (lockCountAt_insert hlookup ts).trans (by rw [if_neg hts.symm, add_zero])
    · rw [lockCountAt, lockCountAt_insert hlookup, if_pos rfl]
      exact Nat.succ_ne_zero _
    · rw [lockCountAt, lockCountAt_insert hlookup, if_pos rfl]
      -- The count so far is that of the entry, or zero.
      cases hheap : r.lockTsHeap.lookup startTs with
      | none =>
        rw [h.heap.eq_zero hheap]
        rfl
      | some txnLocks =>
        have hnum := (h.heap.num_eq hheap).2
        simp only [Option.getD_some]
        push_cast
        rw [hnum]

theorem Tracks.tracked_untrackLock (h : r.Tracks) (key k : K) :
    (r.untrackLock key).tracked k = if k = key then none else r.tracked k := by
  rw [untrackLock]
  split
  · rw [tracked, lookup_erase, tracked]
  · rename_i hlookup
    have hnone : r.largeTxnKeyRepresentative.lookup key = none := by
      rw [h.noRepresentative, AList.lookup_empty]
    rw [hnone]
    by_cases hk : k = key
    · rw [if_pos hk, hk]
      exact hlookup
    · rw [if_neg hk]

/-- Untracking a lock takes it off the count of its start timestamp. -/
theorem Tracks.untrackLock (h : r.Tracks) (key : K) : (r.untrackLock key).Tracks := by
  rw [Resolver.untrackLock]
  split
  · rename_i startTs hlookup
    refine { h with heap := ?_ }
    have hcount := lockCountAt_erase hlookup
    have hother : ∀ ts, ts ≠ startTs →
        count (r.locksByKey.erase key) (fun _ startTs => startTs = ts) =
          r.lockCountAt ts := by
      intro ts hts
      rw [hcount ts, if_neg hts.symm, add_zero]
    have hat := hcount startTs
    rw [if_pos rfl] at hat
    split
    · rename_i txnLocks hheap
      have hnum := (h.heap.num_eq hheap).2
      have hrest : count (r.locksByKey.erase key) (fun _ ts => ts = startTs) =
          txnLocks.lockCount - 1 := by omega
      dsimp only
      split
      · rename_i hzero
        exact h.heap.erase hother (hrest.trans hzero)
      · rename_i hpos
        exact h.heap.insert hother (fun h => hpos (hrest.symm.trans h))
          (congrArg Nat.cast hrest.symm)
    · rename_i hheap
      exact absurd (h.heap.eq_zero hheap) (by omega)
  · have hnone : r.largeTxnKeyRepresentative.lookup key = none := by
      rw [h.noRepresentative, AList.lookup_empty]
    rw [hnone]
    exact h

theorem lockCountAt_ne_zero (hk : r.tracked key = some startTs) :
    r.lockCountAt startTs ≠ 0 :=
  (count_pos hk (decide_eq_true rfl)).ne'

omit [DecidableEq K] in
theorem Tracks.oldestTransaction (h : r.Tracks) (cache : ℕ → Option TxnState) :
    r.oldestTransaction cache = .ok r.lockTsHeap.entries.head? := by
  rw [Resolver.oldestTransaction, h.noLargeTxns]
  cases r.lockTsHeap.entries.head? <;> rfl

/-- The resolved timestamp grows, up to `min_ts` and no further than a tracked lock. -/
theorem Tracks.resolve_spec (h : r.Tracks) (cache : ℕ → Option TxnState) (minTs : ℕ) :
    ∃ ts m, r.resolve cache minTs = .ok (ts, { r with resolvedTs := ts, minTs := m }) ∧
      r.resolvedTs ≤ ts ∧
      (ts = r.resolvedTs ∨ ts ≤ minTs ∧ ∀ k t, r.tracked k = some t → ts ≤ t) := by
  rw [resolve, h.running, h.oldestTransaction]
  refine ⟨_, _, rfl, le_max_left _ _, ?_⟩
  rcases max_choice r.resolvedTs
    (min ((r.lockTsHeap.entries.head?.map Prod.fst).getD minTs) minTs) with hmax | hmax
  · exact .inl hmax
  refine .inr ⟨hmax.trans_le (min_le_right _ _), fun k t hk => ?_⟩
  rw [hmax]
  apply (min_le_left _ _).trans
  have hpos := lockCountAt_ne_zero hk
  cases hhead : r.lockTsHeap.entries.head? with
  | none => exact absurd (h.heap.eq_zero_of_head? hhead t) hpos
  | some e => exact h.heap.le_of_head? hhead hpos

end Resolver

end Tikv.ResolvedTs
