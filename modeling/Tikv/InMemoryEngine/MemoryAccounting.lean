import Mathlib.Data.List.Lex
import Mathlib.Order.Fin.Basic
import Tikv.Foundation.Execution
import Tikv.Foundation.Fallible
import Tikv.InMemoryEngine.RegionManager

/-!
# Memory accounting of the in-memory engine

`MemoryController::allocated` is meant to count the entries of the three skiplists and the entries
that write batches still buffer. A batch acquires the memory of an entry when it buffers the entry.
The memory is released when key and value are dropped. A node that is unlinked from a skiplist is
dropped later, when no reader can see it any more (`MemoryState.reclaim`), and the entries that
`rollback_to_save_point` and `clear` drop from a batch have no controller and are never released
(`MemoryState.lost`).

`MemoryState.ends_step` is the account of one step: what is allocated and belongs to no entry and no
unlinked node grows by what the step lost. So nothing ever underflows, and along runs that lose
nothing the counter is exact up to the unlinked nodes.
-/

namespace Tikv.InMemoryEngine

open List OrderedMap Option

/-- The user key of an entry, as bytes. -/
abbrev UserKey := List (Fin 256)

/-- `InternalBytes` of a key, ordered as `cmp` does: the user key ascending, then the number of the
suffix descending. -/
abbrev InternalKey := UserKey ×ₗ ℕᵒᵈ

/-- `ValueType`. -/
inductive ValueType
  | deletion
  | value
  deriving DecidableEq

/-- The byte of the suffix. -/
def ValueType.toNat : ValueType → ℕ
  | deletion => 0
  | value => 1

/-- The column families, `cf_to_id`. -/
inductive Cf
  | default
  | lock
  | write
  deriving DecidableEq

/-- How a call fails. -/
inductive MemoryFault
  /-- a `fetch_sub` below zero -/
  | underflow
  /-- a failed assertion or `unwrap`, or a batch that is not there -/
  | panic

/-- `ENC_KEY_SEQ_LENGTH`. -/
def encKeySeqLength : ℕ := 8

/-- `MEM_CONTROLLER_OVERHEAD`. -/
def memControllerOverhead : ℕ := 8

/-- `NODE_OVERHEAD_SIZE_EXPECTATION`. -/
def nodeOverheadSizeExpectation : ℕ := 96

/-- `encode_internal_bytes`. -/
def encodeKey (key : UserKey) (seq : ℕ) (vType : ValueType) : Except MemoryFault InternalKey :=
  if seq = 2 ^ 64 - 1 ∨ seq >>> ((encKeySeqLength - 1) * 8) = 0 then
    .ok (toLex (key, OrderDual.toDual (seq <<< 8 % 2 ^ 64 ||| vType.toNat)))
  else
    .error .panic

/-- `InternalBytes::memory_size_required`. -/
def memorySizeRequired (bytesSize : ℕ) : ℕ := bytesSize + memControllerOverhead

/-- `memory_size_required_for_key_value`: a key gets a suffix when it is written. -/
def memorySizeRequiredForKeyValue (key : UserKey) (value : List (Fin 256)) : ℕ :=
  memorySizeRequired (key.length + encKeySeqLength) + memorySizeRequired value.length

/-- What dropping the key and the value of a node of a skiplist releases. -/
def entrySize (key : InternalKey) (value : List (Fin 256)) : ℕ :=
  memorySizeRequiredForKeyValue (ofLex key).1 value

/-- `WriteBatchEntryInternal`. -/
inductive EntryInner
  | putValue (value : List (Fin 256))
  | deletion

/-- `RegionCacheWriteBatchEntry`. -/
structure BatchEntry where
  cf : Cf
  key : UserKey
  inner : EntryInner

namespace BatchEntry

/-- The value that is written; that of a deletion is `DELETE_ENTRY_VAL`. -/
def value (e : BatchEntry) : List (Fin 256) :=
  match e.inner with
  | .putValue v => v
  | .deletion => []

/-- The type that is written. -/
def valueType (e : BatchEntry) : ValueType :=
  match e.inner with
  | .putValue _ => .value
  | .deletion => .deletion

/-- `calc_put_entry_size` and `calc_delete_entry_size`. -/
def size (e : BatchEntry) : ℕ := memorySizeRequiredForKeyValue e.key e.value

end BatchEntry

/-- `RegionCacheWriteBatch`; regions are ids. -/
structure WriteBatch where
  regionCacheStatus : RegionCacheStatus := .notInCache
  buffer : List BatchEntry := []
  savePoints : List ℕ := []
  sequenceNumber : Option ℕ := none
  currentRegionEvicted : Bool := false
  currentRegion : Option ℕ := none
  preparedRegions : List ℕ := []

namespace WriteBatch

variable (b : WriteBatch)

/-- What was acquired for the entries of the buffer. -/
def bytes : ℕ := (b.buffer.map BatchEntry.size).sum

/-- `record_last_written_region`. -/
def recordLastWrittenRegion : Except MemoryFault WriteBatch :=
  if b.regionCacheStatus = .notInCache then .ok b
  else if b.currentRegion.isNone then .error .panic
  else .ok { b with currentRegion := none }

/-- `prepare_for_region`, with the answer of `prepare_for_apply`. -/
def prepareForRegion (region : ℕ) (answer : RegionCacheStatus) (b : WriteBatch) :
    Except MemoryFault WriteBatch :=
  if b.currentRegion = some region then .ok b
  else if region ∈ b.preparedRegions then .error .panic
  else do
    let b ← { b with preparedRegions := b.preparedRegions ++ [region] }.recordLastWrittenRegion
    return { b with
      regionCacheStatus := answer
      currentRegion := some region
      currentRegionEvicted := false }

/-- `evict_current_region`; the eviction itself is a background task. -/
def evictCurrentRegion : Except MemoryFault WriteBatch :=
  if b.currentRegionEvicted then .ok b
  else if b.currentRegion.isNone then .error .panic
  else .ok { b with currentRegionEvicted := true }

/-- `set_sequence_number`, which refuses a second number. -/
def setSequenceNumber (seq : ℕ) (b : WriteBatch) : Except MemoryFault WriteBatch :=
  .ok { b with sequenceNumber := b.sequenceNumber.or (some seq) }

/-- `set_save_point`. -/
def setSavePoint : Except MemoryFault WriteBatch :=
  .ok { b with savePoints := b.buffer.length :: b.savePoints }

/-- `pop_save_point`. -/
def popSavePoint : Except MemoryFault WriteBatch :=
  .ok { b with savePoints := b.savePoints.tail }

/-- `rollback_to_save_point`; without a save point it is an error and changes nothing. -/
def rollbackToSavePoint : WriteBatch :=
  match b.savePoints with
  | [] => b
  | sp :: rest => { b with savePoints := rest, buffer := b.buffer.take sp }

/-- `clear`. -/
def clear (_ : WriteBatch) : WriteBatch := {}

end WriteBatch

open WriteBatch

/-- The limits in the configuration, which may change between two calls. -/
structure Limits where
  capacity : ℕ
  enabled : Bool

/-- The controller, the skiplists, the nodes that were unlinked from them and are not dropped yet,
and the live write batches. -/
structure MemoryState where
  allocated : ℕ := 0
  data : Cf → OrderedMap InternalKey (List (Fin 256)) := fun _ => .empty
  retired : List (InternalKey × List (Fin 256)) := []
  batches : OrderedMap ℕ WriteBatch := .empty

namespace MemoryState

/-- `node_count`. -/
def nodeCount (s : MemoryState) : ℕ :=
  (s.data .default).entries.length + (s.data .lock).entries.length + (s.data .write).entries.length

/-- `MemoryController::acquire`; `none` is `CapacityReached`. -/
def acquire (l : Limits) (n : ℕ) (s : MemoryState) : Option MemoryState :=
  if l.capacity ≤ s.allocated + n + s.nodeCount * nodeOverheadSizeExpectation then none
  else some { s with allocated := s.allocated + n }

/-- `MemoryController::release`. -/
def release (n : ℕ) (s : MemoryState) : Except MemoryFault MemoryState :=
  if n ≤ s.allocated then .ok { s with allocated := s.allocated - n } else .error .underflow

/-- The node of a skiplist under a key, if there is one. -/
def nodeAt (m : OrderedMap InternalKey (List (Fin 256))) (k : InternalKey) :
    List (InternalKey × List (Fin 256)) :=
  ((m.lookup k).map (k, ·)).toList

/-- A skiplist becomes `m`, and the node it had under `k` is unlinked. The drop of the node is
deferred. -/
def relink (cf : Cf) (m : OrderedMap InternalKey (List (Fin 256))) (k : InternalKey)
    (s : MemoryState) : MemoryState :=
  { s with
    data := Function.update s.data cf m
    retired := s.retired ++ nodeAt (s.data cf) k }

/-- `SkiplistHandle::remove`. -/
def remove (cf : Cf) (k : InternalKey) (s : MemoryState) : MemoryState :=
  s.relink cf ((s.data cf).erase k) k

/-- `SkiplistHandle::insert`, which replaces a node of the same key. -/
def insert (cf : Cf) (k : InternalKey) (v : List (Fin 256)) (s : MemoryState) : MemoryState :=
  s.relink cf ((s.data cf).insert k v) k

/-- `delete_range_cf`: every key from `start` on and before `stop` is removed. -/
def deleteRangeCf (cf : Cf) (start stop : InternalKey) (s : MemoryState) : MemoryState :=
  (((s.data cf).entries.map Prod.fst).filter fun k => start ≤ k ∧ k < stop).foldl
    (fun s k => s.remove cf k) s

/-- `Node::finalize`, which `Node::decrement` has deferred: an unlinked node is dropped, with its
key and its value. -/
def reclaim (i : ℕ) (s : MemoryState) : Except MemoryFault MemoryState :=
  match s.retired[i]? with
  | none => .ok s
  | some e => { s with retired := s.retired.eraseIdx i }.release (entrySize e.1 e.2)

/-- A batch. -/
def batch (s : MemoryState) (id : ℕ) : Except MemoryFault WriteBatch :=
  (s.batches.lookup id).elim (.error .panic) .ok

/-- The batch is now `b`. -/
def setBatch (s : MemoryState) (id : ℕ) (b : WriteBatch) : MemoryState :=
  { s with batches := s.batches.insert id b }

/-- A method of a batch that needs no memory. -/
def onBatch (id : ℕ) (f : WriteBatch → Except MemoryFault WriteBatch) (s : MemoryState) :
    Except MemoryFault MemoryState := do
  let b ← s.batch id
  let b' ← f b
  return s.setBatch id b'

/-- `process_cf_operation`. -/
def processCfOperation (l : Limits) (id : ℕ) (e : BatchEntry) (s : MemoryState) :
    Except MemoryFault MemoryState := do
  let b ← s.batch id
  if b.regionCacheStatus = .notInCache ∨ b.currentRegionEvicted then return s
  else if ¬l.enabled then s.onBatch id evictCurrentRegion
  else match s.acquire l e.size with
    | none => s.onBatch id evictCurrentRegion
    | some s => return s.setBatch id { b with buffer := b.buffer ++ [e] }

/-- `write_to_memory` for the entries of a batch, whose sequence numbers count up from `seq`. -/
def writeEntries : List BatchEntry → ℕ → MemoryState → Except MemoryFault MemoryState
  | [], _, s => .ok s
  | e :: es, seq, s => do
    let key ← encodeKey e.key seq e.valueType
    writeEntries es (seq + 1) (s.insert e.cf key e.value)

/-- `write_opt`, which is an error without a sequence number. -/
def write (id : ℕ) (s : MemoryState) : Except MemoryFault MemoryState := do
  let b ← s.batch id
  match b.sequenceNumber with
  | none => return s
  | some seq =>
    let b' ← b.recordLastWrittenRegion
    writeEntries b.buffer seq (s.setBatch id { b' with buffer := [] })

/-- `merge`, which consumes the other batch. -/
def merge (id other : ℕ) (s : MemoryState) : Except MemoryFault MemoryState := do
  let o ← s.batch other
  { s with batches := s.batches.erase other }.onBatch id fun b =>
    .ok { b with buffer := b.buffer ++ o.buffer }

/-- An entry of the snapshot of a region that is loaded, of the sequence number of the snapshot. -/
def load (l : Limits) (cf : Cf) (key : UserKey) (value : List (Fin 256)) (seq : ℕ)
    (s : MemoryState) : Except MemoryFault MemoryState := do
  let k ← encodeKey key seq .value
  match s.acquire l (memorySizeRequiredForKeyValue key value) with
  | none => return s
  | some s => return s.insert cf k value

end MemoryState

/-- A call of a write batch or of the engine, or the drop of an unlinked node. -/
inductive MemoryOp
  | newBatch (id : ℕ)
  | prepareForRegion (id region : ℕ) (answer : RegionCacheStatus)
  | setSequenceNumber (id seq : ℕ)
  | putCf (l : Limits) (id : ℕ) (cf : Cf) (key : UserKey) (value : List (Fin 256))
  | deleteCf (l : Limits) (id : ℕ) (cf : Cf) (key : UserKey)
  | deleteRange (id : ℕ)
  | setSavePoint (id : ℕ)
  | popSavePoint (id : ℕ)
  | rollbackToSavePoint (id : ℕ)
  | merge (id other : ℕ)
  | clear (id : ℕ)
  | write (id : ℕ)
  | load (l : Limits) (cf : Cf) (key : UserKey) (value : List (Fin 256)) (seq : ℕ)
  | remove (cf : Cf) (k : InternalKey)
  | deleteRangeCf (cf : Cf) (start stop : InternalKey)
  | reclaim (i : ℕ)

namespace MemoryState

variable (s : MemoryState)

/-- One step. -/
def step : MemoryOp → Except MemoryFault MemoryState
  | .newBatch id => if (s.batches.lookup id).isSome then .error .panic else .ok (s.setBatch id {})
  | .prepareForRegion id region answer => s.onBatch id (prepareForRegion region answer)
  | .setSequenceNumber id seq => s.onBatch id (setSequenceNumber seq)
  | .putCf l id cf key value => s.processCfOperation l id ⟨cf, key, .putValue value⟩
  | .deleteCf l id cf key => s.processCfOperation l id ⟨cf, key, .deletion⟩
  | .deleteRange id => s.onBatch id evictCurrentRegion
  | .setSavePoint id => s.onBatch id setSavePoint
  | .popSavePoint id => s.onBatch id popSavePoint
  | .rollbackToSavePoint id => s.onBatch id fun b => .ok b.rollbackToSavePoint
  | .merge id other => s.merge id other
  | .clear id => s.onBatch id fun b => .ok b.clear
  | .write id => s.write id
  | .load l cf key value seq => s.load l cf key value seq
  | .remove cf k => .ok (s.remove cf k)
  | .deleteRangeCf cf start stop => .ok (s.deleteRangeCf cf start stop)
  | .reclaim i => s.reclaim i

/-- What was acquired for the entries of the skiplists. -/
def stored : ℕ :=
  (s.data .default).total entrySize + (s.data .lock).total entrySize +
    (s.data .write).total entrySize

/-- What was acquired for the unlinked nodes that are not dropped yet. -/
def awaiting : ℕ := (s.retired.map fun e => entrySize e.1 e.2).sum

/-- What was acquired for the entries that batches buffer. -/
def buffered : ℕ := s.batches.total fun _ b => b.bytes

/-- What was acquired for the entries that a call drops from a buffer. -/
def lost : MemoryOp → ℕ
  | .rollbackToSavePoint id =>
    (s.batches.lookup id).elim 0 fun b => b.bytes - b.rollbackToSavePoint.bytes
  | .clear id => (s.batches.lookup id).elim 0 bytes
  | _ => 0

/-- A step that succeeds and loses nothing. -/
def LosslessStep (op : MemoryOp) (t : MemoryState) : Prop :=
  s.step op = .ok t ∧ s.lost op = 0

/-- `n` of the bytes allocated belong to no entry and to no unlinked node. -/
def Charged (n : ℕ) (s : MemoryState) : Prop :=
  s.allocated = s.stored + s.awaiting + s.buffered + n

end MemoryState

/-- A call panics, or what it returns has a property; it does not underflow. -/
def Ends {α : Type} (P : α → Prop) : Except MemoryFault α → Prop
  | .ok a => P a
  | .error e => e = .panic

namespace Ends

variable {α β : Type} {P : α → Prop} {Q : β → Prop} {x : Except MemoryFault α}

theorem bind {f : α → Except MemoryFault β} (hx : Ends P x) (hf : ∀ a, P a → Ends Q (f a)) :
    Ends Q (x >>= f) := by
  cases x with
  | error e => exact hx
  | ok a => exact hf a hx

end Ends

theorem ends_encodeKey (key : UserKey) (seq : ℕ) (t : ValueType) :
    Ends (fun k => (ofLex k).1 = key) (encodeKey key seq t) := by
  unfold encodeKey
  split <;> rfl

namespace WriteBatch

variable (b : WriteBatch)

theorem ends_recordLastWrittenRegion :
    Ends (fun b' => b'.bytes + 0 = b.bytes) b.recordLastWrittenRegion := by
  unfold recordLastWrittenRegion
  split_ifs <;> rfl

theorem ends_prepareForRegion (region : ℕ) (answer : RegionCacheStatus) :
    Ends (fun b' => b'.bytes + 0 = b.bytes) (b.prepareForRegion region answer) := by
  unfold prepareForRegion
  split_ifs
  · rfl
  · rfl
  · exact (ends_recordLastWrittenRegion _).bind fun b' hb' => hb'

theorem ends_evictCurrentRegion :
    Ends (fun b' => b'.bytes + 0 = b.bytes) b.evictCurrentRegion := by
  unfold evictCurrentRegion
  split_ifs <;> rfl

theorem bytes_rollbackToSavePoint : b.rollbackToSavePoint.bytes ≤ b.bytes := by
  unfold rollbackToSavePoint
  split
  · exact le_rfl
  · rename_i sp _ _
    rw [bytes, bytes]
    conv_rhs => rw [← take_append_drop sp b.buffer, map_append, sum_append]
    exact Nat.le_add_right _ _

end WriteBatch

namespace MemoryState

variable {s : MemoryState} {n d : ℕ} {id : ℕ}

theorem stored_relink (s : MemoryState) (cf : Cf) (m : OrderedMap InternalKey (List (Fin 256)))
    (k : InternalKey) : (s.relink cf m k).stored + (s.data cf).total entrySize =
      s.stored + m.total entrySize := by
  cases cf <;> simp [stored, relink] <;> omega

/-- What a node holds is part of what its skiplist holds. -/
theorem total_eq_nodeAt (m : OrderedMap InternalKey (List (Fin 256))) (k : InternalKey) :
    m.total entrySize =
      ((nodeAt m k).map fun e => entrySize e.1 e.2).sum + (m.erase k).total entrySize := by
  cases hk : m.lookup k with
  | none => simp [nodeAt, hk, erase_of_lookup hk]
  | some v => simp [nodeAt, hk, total_of_lookup hk]

/-- A node that is unlinked stays charged, and what is linked in its place has been charged. -/
theorem charged_relink {cf : Cf} {m : OrderedMap InternalKey (List (Fin 256))} {k : InternalKey}
    {r : ℕ} (hm : m.total entrySize = r + ((s.data cf).erase k).total entrySize)
    (h : s.Charged (r + n)) : (s.relink cf m k).Charged n := by
  have hstored := stored_relink s cf m k
  have hnode := total_eq_nodeAt (s.data cf) k
  have hawaiting : (s.relink cf m k).awaiting =
      s.awaiting + ((nodeAt (s.data cf) k).map fun e => entrySize e.1 e.2).sum := by
    simp [awaiting, relink]
  show s.allocated = (s.relink cf m k).stored + (s.relink cf m k).awaiting + s.buffered + n
  unfold Charged at h
  omega

theorem charged_remove (cf : Cf) (k : InternalKey) (h : s.Charged n) : (s.remove cf k).Charged n :=
  charged_relink (zero_add _).symm (by rwa [zero_add])

theorem charged_insert (cf : Cf) (k : InternalKey) (v : List (Fin 256))
    (h : s.Charged (entrySize k v + n)) : (s.insert cf k v).Charged n :=
  charged_relink (total_insert ..) h

theorem charged_deleteRangeCf (cf : Cf) (start stop : InternalKey) (h : s.Charged n) :
    (s.deleteRangeCf cf start stop).Charged n :=
  List.foldlRecOn _ _ h fun _ ht k _ => charged_remove cf k ht

/-- What is released when a node is dropped is what the node is charged with. -/
theorem ends_reclaim (i : ℕ) (h : s.Charged n) : Ends (Charged n) (s.reclaim i) := by
  unfold reclaim
  split
  · exact h
  · rename_i e he
    obtain ⟨hi, rfl⟩ := List.getElem?_eq_some_iff.mp he
    have hsum := ((getElem_cons_eraseIdx_perm hi).map fun e => entrySize e.1 e.2).sum_eq
    rw [map_cons, sum_cons] at hsum
    unfold Charged awaiting at h
    rw [release, if_pos (by dsimp only; omega)]
    show s.allocated - _ =
      s.stored + ((s.retired.eraseIdx i).map fun e => entrySize e.1 e.2).sum + s.buffered + n
    omega

theorem ends_batch (s : MemoryState) (id : ℕ) :
    Ends (fun b => s.batches.lookup id = some b) (s.batch id) := by
  unfold batch
  cases s.batches.lookup id <;> rfl

theorem charged_setBatch {m : ℕ} {b : WriteBatch} (h : s.Charged n)
    (hm : m + b.bytes = n + (s.batches.lookup id).elim 0 bytes) :
    (s.setBatch id b).Charged m := by
  show s.allocated =
    s.stored + s.awaiting + (s.batches.insert id b).total (fun _ b => b.bytes) + m
  rw [total_insert]
  rw [Charged, buffered] at h
  cases hid : s.batches.lookup id with
  | none =>
    rw [hid, elim_none] at hm
    rw [erase_of_lookup hid]
    omega
  | some b' =>
    rw [hid, elim_some] at hm
    rw [total_of_lookup hid] at h
    omega

theorem ends_onBatch {f : WriteBatch → Except MemoryFault WriteBatch} (h : s.Charged n)
    (hf : ∀ b, s.batches.lookup id = some b → Ends (fun b' => b'.bytes + d = b.bytes) (f b)) :
    Ends (Charged (n + d)) (s.onBatch id f) := by
  refine (ends_batch s id).bind fun b hb => (hf b hb).bind fun b' hd => charged_setBatch h ?_
  rw [hb, elim_some]
  omega

theorem charged_acquire {l : Limits} {m : ℕ} {t : MemoryState} (h : s.Charged n)
    (ht : s.acquire l m = some t) : t.Charged (n + m) ∧ t.batches = s.batches := by
  unfold acquire at ht
  split_ifs at ht
  obtain rfl := some.inj ht
  refine ⟨?_, rfl⟩
  show s.allocated + m = s.stored + s.awaiting + s.buffered + (n + m)
  unfold Charged at h
  omega

/-- A buffered entry is charged, or refused without a charge. -/
theorem ends_processCfOperation (l : Limits) (e : BatchEntry) (h : s.Charged n) :
    Ends (Charged n) (s.processCfOperation l id e) := by
  have hevict : Ends (Charged n) (s.onBatch id evictCurrentRegion) :=
    ends_onBatch (d := 0) h fun b _ => b.ends_evictCurrentRegion
  refine (ends_batch s id).bind fun b hb => ?_
  split_ifs
  · exact h
  · cases ht : s.acquire l e.size with
    | none => exact hevict
    | some t =>
      obtain ⟨ht, hbatches⟩ := charged_acquire h ht
      refine charged_setBatch ht ?_
      rw [hbatches, hb, elim_some, bytes, map_append, sum_append, map_singleton,
        sum_singleton, bytes]
      omega
  · exact hevict

/-- The entries of a batch go to the skiplists one after the other: what was acquired for the rest
belongs to no entry meanwhile. -/
theorem ends_writeEntries (es : List BatchEntry) (seq : ℕ)
    (h : s.Charged (n + (es.map BatchEntry.size).sum)) :
    Ends (Charged n) (writeEntries es seq s) := by
  induction es generalizing s seq with
  | nil => exact h
  | cons e es ih =>
    refine (ends_encodeKey e.key seq e.valueType).bind fun k hk => ?_
    have hsize : entrySize k e.value = e.size := congrArg (memorySizeRequiredForKeyValue · _) hk
    refine ih (seq + 1) (charged_insert e.cf k e.value ?_)
    rwa [hsize, add_left_comm]

theorem ends_write (h : s.Charged n) : Ends (Charged n) (s.write id) := by
  refine (ends_batch s id).bind fun b hb => ?_
  split
  · exact h
  · refine b.ends_recordLastWrittenRegion.bind fun b' hb' =>
      ends_writeEntries _ _ (charged_setBatch h ?_)
    rw [hb]
    rfl

theorem ends_merge {other : ℕ} (h : s.Charged n) : Ends (Charged n) (s.merge id other) := by
  refine (ends_batch s other).bind fun o ho => ?_
  have herase : Charged (n + o.bytes) { s with batches := s.batches.erase other } := by
    rw [Charged, buffered, total_of_lookup ho] at h
    show s.allocated =
      s.stored + s.awaiting + (s.batches.erase other).total (fun _ b => b.bytes) + _
    omega
  refine (ends_batch _ id).bind fun b hb => charged_setBatch herase ?_
  rw [hb, elim_some, bytes, map_append, sum_append, bytes,
    bytes]
  omega

theorem ends_load (l : Limits) (cf : Cf) (key : UserKey) (value : List (Fin 256)) (seq : ℕ)
    (h : s.Charged n) : Ends (Charged n) (s.load l cf key value seq) := by
  refine (ends_encodeKey key seq .value).bind fun k hk => ?_
  split
  · exact h
  · rename_i t ht
    refine charged_insert cf k value ?_
    rw [add_comm, entrySize, hk]
    exact (charged_acquire h ht).1

/-- The account of one step. -/
theorem ends_step (op : MemoryOp) (h : s.Charged n) :
    Ends (Charged (n + s.lost op)) (s.step op) := by
  cases op with
  | newBatch id =>
    rw [step]
    split_ifs with hid
    · rfl
    · refine charged_setBatch h ?_
      rw [not_isSome_iff_eq_none.mp hid]
      rfl
  | prepareForRegion id region answer =>
    exact ends_onBatch h fun b _ => b.ends_prepareForRegion region answer
  | setSequenceNumber id seq => exact ends_onBatch h fun _ _ => rfl
  | putCf l id cf key value | deleteCf l id cf key => exact ends_processCfOperation l _ h
  | deleteRange id => exact ends_onBatch h fun b _ => b.ends_evictCurrentRegion
  | setSavePoint id | popSavePoint id => exact ends_onBatch h fun _ _ => rfl
  | rollbackToSavePoint id =>
    refine ends_onBatch h fun b hb => ?_
    rw [lost, hb]
    exact Nat.add_sub_of_le b.bytes_rollbackToSavePoint
  | merge id other => exact ends_merge h
  | clear id =>
    refine ends_onBatch h fun b hb => ?_
    rw [lost, hb]
    exact zero_add _
  | write id => exact ends_write h
  | load l cf key value seq => exact ends_load l cf key value seq h
  | remove cf k => exact charged_remove cf k h
  | deleteRangeCf cf start stop => exact charged_deleteRangeCf cf start stop h
  | reclaim i => exact ends_reclaim i h

theorem awaiting_eq_zero_iff : s.awaiting = 0 ↔ s.retired = [] := by
  refine ⟨fun h => ?_, fun h => by rw [awaiting, h]; rfl⟩
  cases hr : s.retired with
  | nil => rfl
  | cons e es =>
    rw [awaiting, hr, map_cons, sum_cons] at h
    have hpos : 0 < entrySize e.1 e.2 :=
      Nat.lt_of_lt_of_le (by decide) (Nat.le_add_left memControllerOverhead _)
    omega

/-- Along every run that loses nothing the counter is what the entries and the unlinked nodes hold.
So it is exact when, and only when, every unlinked node has been dropped, no step underflows, and
the counter is zero once the skiplists and the buffers are empty and the nodes dropped. -/
theorem allocated_exact {es : List MemoryOp} {t : MemoryState}
    (h : Exec LosslessStep {} es t) :
    t.allocated = t.stored + t.awaiting + t.buffered ∧
      (t.allocated = t.stored + t.buffered ↔ t.retired = []) ∧
      (∀ op, t.step op ≠ .error .underflow) ∧
      ((∀ cf, t.data cf = .empty) → t.retired = [] →
        (∀ id b, t.batches.lookup id = some b → b.buffer = []) → t.allocated = 0) := by
  have hinv : t.Charged 0 := by
    refine Exec.invariant (fun s op t hs hst => ?_) h rfl
    have hend := ends_step op hs
    rwa [hst.1, hst.2] at hend
  have hall : t.allocated = t.stored + t.awaiting + t.buffered := hinv
  refine ⟨hall, ?_, fun op hop => ?_, fun hdata hret hbuf => ?_⟩
  · rw [← awaiting_eq_zero_iff]
    omega
  · have hend := ends_step op hinv
    rw [hop] at hend
    exact nomatch hend
  · have hstored : t.stored = 0 := by simp [stored, hdata, total, empty]
    have hbuffered : t.buffered = 0 := by
      refine sum_eq_zero fun x hx => ?_
      obtain ⟨⟨id, b⟩, hmem, rfl⟩ := mem_map.mp hx
      simp [bytes, hbuf id b (lookup_eq_some_iff.mpr hmem)]
    rw [hall, hstored, hbuffered, awaiting_eq_zero_iff.mpr hret]

/-- A key is written and its range deleted. -/
private def writeAndDelete : List MemoryOp :=
  [.newBatch 0, .prepareForRegion 0 1 .cached, .putCf ⟨1000, true⟩ 0 .lock [107] [118],
    .setSequenceNumber 0 5, .write 0,
    .deleteRangeCf .lock (toLex ([107], .toDual 2000)) (toLex ([108], .toDual 2000))]

/-- The counter is exact once the unlinked node is dropped, and not before. -/
theorem allocated_exact_writeAndDelete : ∃ t u,
    (Exec LosslessStep {} writeAndDelete t ∧ t.allocated ≠ t.stored + t.buffered) ∧
      Exec LosslessStep {} (writeAndDelete ++ [.reclaim 0]) u ∧
      u.allocated = u.stored + u.buffered := by
  obtain ⟨t, ht, hret⟩ : ∃ t, Exec LosslessStep {} writeAndDelete t ∧ t.retired ≠ [] :=
    ⟨_, .cons ⟨rfl, rfl⟩ (.cons ⟨rfl, rfl⟩ (.cons ⟨rfl, rfl⟩ (.cons ⟨rfl, rfl⟩ (.cons ⟨rfl, rfl⟩
      (.cons ⟨rfl, rfl⟩ (.nil _)))))), by decide⟩
  obtain ⟨u, hu, hret'⟩ :
      ∃ u, Exec LosslessStep {} (writeAndDelete ++ [.reclaim 0]) u ∧ u.retired = [] :=
    ⟨_, .cons ⟨rfl, rfl⟩ (.cons ⟨rfl, rfl⟩ (.cons ⟨rfl, rfl⟩ (.cons ⟨rfl, rfl⟩ (.cons ⟨rfl, rfl⟩
      (.cons ⟨rfl, rfl⟩ (.cons ⟨rfl, rfl⟩ (.nil _))))))), rfl⟩
  exact ⟨t, u, ⟨ht, fun h => hret ((allocated_exact ht).2.1.mp h)⟩, hu,
    (allocated_exact hu).2.1.mpr hret'⟩

/-- A batch buffers a key and goes back to a save point: the memory of the entry stays allocated,
with nothing stored or buffered, and clearing the batch does not return it. -/
theorem rollback_keeps_charge :
    ([.newBatch 0, .prepareForRegion 0 1 .cached, .setSavePoint 0,
      .putCf ⟨1000, true⟩ 0 .lock [107] [118], .rollbackToSavePoint 0, .clear 0].foldlM
        step {}).map (fun t => (t.allocated, t.stored, t.buffered)) = .ok (26, 0, 0) := by
  rfl

end MemoryState

end Tikv.InMemoryEngine
