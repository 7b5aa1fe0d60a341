import Mathlib.Data.ENat.Basic
import Tikv.Foundation.OrderedMap
import Tikv.Raftstore.RegionVersion
import Tikv.TxnTypes

/-!
# In-memory pessimistic locks

The leader of a region keeps pessimistic locks in memory (`PeerPessimisticLocks`), with a count of
the memory they use: `insert` adds the sizes of the locks on new keys, `remove` takes off the size
of what it removes, and a split moves the locks of the new regions, with their sizes, to the tables
of their peers.

An overwritten lock is taken to be of the size of the old one. It is if the primary key of the new
lock is as long as that of the old one (`OverwriteOk`); then the count is the sum of the sizes
(**`Accounted`**) after any calls. If not, removing the lock can take off more than there is. The
locks are in memory, so their sizes add up to less than `2 ^ 64`.
-/

namespace Tikv.Raftstore

open List OrderedMap

/-- What a pessimistic lock in memory consists of. -/
structure PessimisticLock (K : Type) where
  /-- The primary key in raw format. -/
  primary : K
  startTs : ℕ
  ttl : ℕ := 0
  forUpdateTs : ℕ := 0
  minCommitTs : ℕ := 0
  lastChange : LastChange := .unknown
  isLockedWithConflict : Bool := false

/-- The sizes in memory. -/
structure Sizes (K : Type) where
  /-- `Key::len`, of the encoded key -/
  keyLen : K → ℕ
  /-- the length of the raw primary key -/
  primaryLen : K → ℕ
  /-- `size_of::<PessimisticLock>()` -/
  lockSize : ℕ

namespace Sizes

variable {K : Type} (sizes : Sizes K)

/-- `PessimisticLock::memory_size`. -/
def memorySize (lock : PessimisticLock K) : ℕ := sizes.primaryLen lock.primary + sizes.lockSize

/-- What a lock counts for, with its key. -/
def entrySize (key : K) (lock : PessimisticLock K) : ℕ := sizes.keyLen key + sizes.memorySize lock

end Sizes

inductive LocksStatus
  | normal
  | transferringLeader
  | mergingRegion
  | notLeader
  | isInFlashback
deriving DecidableEq

/-- The table, with a mark on the locks that an ongoing write will delete. -/
structure PeerPessimisticLocks (K : Type) [LinearOrder K] where
  map : OrderedMap K (PessimisticLock K × Bool) := .empty
  status : LocksStatus := .normal
  term : ℕ := 0
  version : ℕ := 0
  memorySize : ℕ := 0

/-- `usize` addition, which wraps around. -/
def usizeAdd (a b : ℕ) : ℕ := (a + b) % 2 ^ 64

/-- `usize` subtraction, which wraps around. -/
def usizeSub (a b : ℕ) : ℕ := if b ≤ a then a - b else a + 2 ^ 64 - b

theorem usizeSub_of_le {a b : ℕ} (h : b ≤ a) : usizeSub a b = a - b := if_pos h

/-- Why a call does not return. -/
inductive LocksPanic
  /-- An index behind the end of the regions, or below zero. -/
  | indexOutOfBounds

variable {K : Type} [LinearOrder K]

namespace PeerPessimisticLocks

variable (sizes : Sizes K)

/-- Refused with the locks if the memory limit of the peer or of the instance is exceeded. Returns
also `INSTANCE_MEM_SIZE`. -/
def insert (locks : PeerPessimisticLocks K) (instanceMemSize : ℤ)
    (pairs : List (K × PessimisticLock K)) (peerMemSizeLimit instanceMemSizeLimit : ℕ) :
    Except (List (K × PessimisticLock K)) (PeerPessimisticLocks K × ℤ) :=
  -- The keys that are in the map already are not counted.
  let incr := ((pairs.filter fun p => (locks.map.lookup p.1).isNone).map fun p =>
    sizes.entrySize p.1 p.2).sum % 2 ^ 64
  if peerMemSizeLimit < usizeAdd locks.memorySize incr ∨
      instanceMemSizeLimit < usizeAdd (instanceMemSize % 2 ^ 64).toNat incr then .error pairs
  else .ok ({ locks with
    map := pairs.foldl (fun map p => map.insert p.1 (p.2, false)) locks.map
    memorySize := usizeAdd locks.memorySize incr }, instanceMemSize + incr)

def remove (locks : PeerPessimisticLocks K) (instanceMemSize : ℤ) (key : K) :
    PeerPessimisticLocks K × ℤ :=
  match locks.map.lookup key with
  | some (lock, _) =>
    let desc := sizes.entrySize key lock
    ({ locks with map := locks.map.erase key, memorySize := usizeSub locks.memorySize desc },
      instanceMemSize - desc)
  | none => (locks, instanceMemSize)

def clear (locks : PeerPessimisticLocks K) (instanceMemSize : ℤ) : PeerPessimisticLocks K × ℤ :=
  ({ locks with map := .empty, memorySize := 0 }, instanceMemSize - locks.memorySize)

/-- The mark is set through `get_mut`. -/
def markDeleted (locks : PeerPessimisticLocks K) (key : K) : PeerPessimisticLocks K :=
  match locks.map.lookup key with
  | some (lock, _) => { locks with map := locks.map.insert key (lock, true) }
  | none => locks

/-- `binary_search_by_key` for the start keys: the region with this start key, or the place where it
would be. -/
def binarySearchByStartKey (regions : List (Region K)) (key : K) : Except ℕ ℕ :=
  let idx := (regions.takeWhile fun region => region.startKey < key).length
  match regions[idx]? with
  | some region => if region.startKey = key then .ok idx else .error idx
  | none => .error idx

/-- The region whose locks the key goes to. -/
def regionIndex (regions : List (Region K)) (key : K) : Except LocksPanic ℕ :=
  match binarySearchByStartKey regions key with
  | .ok idx => .ok idx
  | .error 0 => .error .indexOutOfBounds
  | .error (idx + 1) => .ok idx

/-- One of the removed locks goes to its region. -/
def placeLock (regions : List (Region K)) (s : ℕ × List (PeerPessimisticLocks K))
    (entry : K × PessimisticLock K × Bool) :
    Except LocksPanic (ℕ × List (PeerPessimisticLocks K)) := do
  let (memorySize, res) := s
  let (key, lock, _) := entry
  let idx ← regionIndex regions key
  match res[idx]? with
  | none => .error .indexOutOfBounds
  | some locks =>
    let size := sizes.entrySize key lock
    return (usizeSub memorySize size, res.set idx { locks with
      map := locks.map.insert key (lock, false)
      memorySize := usizeAdd locks.memorySize size })

section Split

variable [OrderBot K]

/-- The key stays in the derived region. -/
def staysIn (derived : Region K) (key : K) : Bool :=
  ¬ (key < derived.startKey ∨ derived.endKey ≠ ⊥ ∧ derived.endKey ≤ key)

/-- The table of the derived region, and the tables of the regions. -/
def groupByRegions (locks : PeerPessimisticLocks K) (regions : List (Region K))
    (derived : Region K) :
    Except LocksPanic (PeerPessimisticLocks K × List (PeerPessimisticLocks K)) := do
  let removedLocks := locks.map.entries.filter fun e => !staysIn derived e.1
  let (memorySize, res) ← removedLocks.foldlM (placeLock sizes regions)
    (locks.memorySize, regions.map fun _ => {})
  return ({ locks with map := locks.map.retain fun key _ => staysIn derived key, memorySize }, res)

end Split

/-! ### The count -/

/-- What the locks of a table count for. -/
def tableSize (map : OrderedMap K (PessimisticLock K × Bool)) : ℕ :=
  map.total fun key x => sizes.entrySize key x.1

/-- The count of the table is what its locks count for. -/
def Accounted (locks : PeerPessimisticLocks K) : Prop :=
  locks.memorySize = tableSize sizes locks.map

variable {sizes} {locks locks' : PeerPessimisticLocks K} {key : K}
  {pairs : List (K × PessimisticLock K)}

variable {map : OrderedMap K (PessimisticLock K × Bool)}

/-- A lock that replaces one of the same size. -/
theorem tableSize_overwrite {lock old : PessimisticLock K} {deleted deleted' : Bool}
    (hold : map.lookup key = some (old, deleted))
    (hsize : sizes.memorySize lock = sizes.memorySize old) :
    tableSize sizes (map.insert key (lock, deleted')) = tableSize sizes map := by
  rw [tableSize, total_insert, tableSize, total_of_lookup hold,
    Sizes.entrySize, Sizes.entrySize, hsize]

theorem tableSize_insert_new (hnone : map.lookup key = none) (lock : PessimisticLock K)
    (deleted : Bool) :
    tableSize sizes (map.insert key (lock, deleted)) =
      tableSize sizes map + sizes.entrySize key lock := by
  rw [tableSize, total_insert, erase_of_lookup hnone, tableSize, add_comm]

/-- The locks that are overwritten have primary keys of the same length. -/
def OverwriteOk (sizes : Sizes K) (map : OrderedMap K (PessimisticLock K × Bool))
    (pairs : List (K × PessimisticLock K)) : Prop :=
  ∀ p ∈ pairs, ∀ old deleted, map.lookup p.1 = some (old, deleted) →
    sizes.primaryLen p.2.primary = sizes.primaryLen old.primary

/-- The locks on new keys are what the table grows by. -/
theorem tableSize_foldl_insert (hnodup : (pairs.map Prod.fst).Nodup)
    (hok : OverwriteOk sizes map pairs) :
    tableSize sizes (pairs.foldl (fun map p => map.insert p.1 (p.2, false)) map) =
      tableSize sizes map + ((pairs.filter fun p => (map.lookup p.1).isNone).map fun p =>
        sizes.entrySize p.1 p.2).sum := by
  induction pairs generalizing map with
  | nil => rfl
  | cons p pairs ih =>
    rw [map_cons, nodup_cons] at hnodup
    -- The other keys are found as before.
    have hother : ∀ q ∈ pairs, (map.insert p.1 (p.2, false)).lookup q.1 = map.lookup q.1 := by
      intro q hq
      rw [lookup_insert, if_neg]
      intro heq
      exact hnodup.1 (heq ▸ mem_map_of_mem hq)
    have hrest : OverwriteOk sizes (map.insert p.1 (p.2, false)) pairs := by
      intro q hq old deleted hold
      rw [hother q hq] at hold
      exact hok q (mem_cons_of_mem _ hq) old deleted hold
    have hfilter : pairs.filter (fun q => ((map.insert p.1 (p.2, false)).lookup q.1).isNone) =
        pairs.filter fun q => (map.lookup q.1).isNone :=
      filter_congr fun q hq => by rw [hother q hq]
    rw [foldl_cons, ih hnodup.2 hrest, hfilter, filter_cons]
    cases hlookup : map.lookup p.1 with
    | none =>
      rw [tableSize_insert_new hlookup, Option.isNone_none, if_pos rfl, map_cons,
        sum_cons]
      omega
    | some old =>
      have hsize : sizes.memorySize p.2 = sizes.memorySize old.1 := by
        rw [Sizes.memorySize, hok p mem_cons_self old.1 old.2 hlookup, Sizes.memorySize]
      rw [tableSize_overwrite hlookup hsize, Option.isNone_some, if_neg Bool.false_ne_true]

section

variable (h : locks.Accounted sizes)
include h

theorem Accounted.insert (hnodup : (pairs.map Prod.fst).Nodup)
    (hok : OverwriteOk sizes locks.map pairs) (hfits : tableSize sizes locks'.map < 2 ^ 64)
    {instanceMemSize instanceMemSize' : ℤ}
    {peerMemSizeLimit instanceMemSizeLimit : ℕ}
    (heq : locks.insert sizes instanceMemSize pairs peerMemSizeLimit instanceMemSizeLimit =
      .ok (locks', instanceMemSize')) : locks'.Accounted sizes := by
  rw [PeerPessimisticLocks.insert] at heq
  split_ifs at heq
  cases heq
  rw [tableSize_foldl_insert hnodup hok, ← h] at hfits
  rw [Accounted, tableSize_foldl_insert hnodup hok, ← h]
  exact (Nat.add_mod_mod _ _ _).trans (Nat.mod_eq_of_lt hfits)

/-- A lock in the table is counted. -/
theorem Accounted.entrySize_le {lock : PessimisticLock K} {deleted : Bool}
    (hlock : locks.map.lookup key = some (lock, deleted)) :
    sizes.entrySize key lock ≤ locks.memorySize := by
  rw [h, tableSize, total_of_lookup hlock]
  exact Nat.le_add_right _ _

theorem Accounted.remove (instanceMemSize : ℤ) (key : K) :
    (locks.remove sizes instanceMemSize key).1.Accounted sizes := by
  rw [PeerPessimisticLocks.remove]
  split
  · rename_i lock deleted hlock
    have htotal := h
    rw [Accounted, tableSize, total_of_lookup hlock] at htotal
    rw [Accounted]
    dsimp only
    rw [usizeSub_of_le (h.entrySize_le hlock), htotal]
    exact Nat.add_sub_cancel_left _ _
  · exact h

omit h in
theorem Accounted.clear (locks : PeerPessimisticLocks K) (instanceMemSize : ℤ) :
    (locks.clear instanceMemSize).1.Accounted sizes := rfl

theorem Accounted.markDeleted (key : K) :
    (locks.markDeleted key).Accounted sizes := by
  rw [PeerPessimisticLocks.markDeleted]
  split
  · rename_i lock deleted hlock
    rw [Accounted]
    rw [tableSize_overwrite hlock rfl]
    exact h
  · exact h

end

/-! ### Moving the locks of a split -/

/-- After some of the removed locks: the rest of them is still counted in the old table, and each
of the others is in the table of its region, without its mark. -/
structure Placed (sizes : Sizes K) (regions : List (Region K)) (memorySize : ℕ)
    (done : List (K × PessimisticLock K × Bool)) (s : ℕ × List (PeerPessimisticLocks K)) :
    Prop where
  memorySize : s.1 + (done.map fun e => sizes.entrySize e.1 e.2.1).sum = memorySize
  le : ∀ locks ∈ s.2, locks.memorySize ≤ (done.map fun e => sizes.entrySize e.1 e.2.1).sum
  length : s.2.length = regions.length
  accounted : ∀ locks ∈ s.2, locks.Accounted sizes
  lookup : ∀ i locks, s.2[i]? = some locks → ∀ key lock deleted,
    locks.map.lookup key = some (lock, deleted) ↔
      deleted = false ∧ (∃ mark, (key, lock, mark) ∈ done) ∧ regionIndex regions key = .ok i

variable {regions : List (Region K)} {memorySize : ℕ}
  {done : List (K × PessimisticLock K × Bool)} {s s' : ℕ × List (PeerPessimisticLocks K)}
  {entry : K × PessimisticLock K × Bool} {moved : PeerPessimisticLocks K} {idx i : ℕ}
  {lock : PessimisticLock K} {deleted : Bool}

theorem Placed.start (sizes : Sizes K) (regions : List (Region K)) (memorySize : ℕ) :
    Placed sizes regions memorySize [] (memorySize, regions.map fun _ => {}) where
  memorySize := rfl
  le := by
    intro locks hlocks
    obtain ⟨region, -, rfl⟩ := mem_map.mp hlocks
    exact le_rfl
  length := length_map _
  accounted := by
    intro locks hlocks
    obtain ⟨region, -, rfl⟩ := mem_map.mp hlocks
    rfl
  lookup := by
    intro i locks hlocks key lock deleted
    rw [getElem?_map] at hlocks
    obtain ⟨region, -, rfl⟩ := Option.map_eq_some_iff.mp hlocks
    exact ⟨nofun, fun h => nomatch h.2.1⟩

/-- A key is found if it was, or if it is the one that is moved and this is its region. -/
theorem Placed.lookup_set (h : Placed sizes regions memorySize done s)
    (hnew : ∀ e ∈ done, e.1 ≠ entry.1) (hidx : regionIndex regions entry.1 = .ok idx)
    (hlocks : s.2[idx]? = some locks)
    (hmoved : moved.map = locks.map.insert entry.1 (entry.2.1, false))
    (hlocks' : (s.2.set idx moved)[i]? = some locks') :
    locks'.map.lookup key = some (lock, deleted) ↔ deleted = false ∧
      (∃ mark, (key, lock, mark) ∈ done ++ [entry]) ∧ regionIndex regions key = .ok i := by
  obtain ⟨hlt, -⟩ := List.getElem?_eq_some_iff.mp hlocks
  have hmem : (∃ mark, (key, lock, mark) ∈ done ++ [entry]) ↔
      (∃ mark, (key, lock, mark) ∈ done) ∨ key = entry.1 ∧ lock = entry.2.1 := by
    obtain ⟨key', lock', mark'⟩ := entry
    simp only [mem_append, exists_or]
    simp
  rw [hmem]
  by_cases hi : idx = i
  · subst hi
    rw [getElem?_set_self hlt] at hlocks'
    cases hlocks'
    rw [hmoved, lookup_insert]
    split
    · rename_i hkey
      subst hkey
      have hnot : ¬ ∃ mark, (entry.1, lock, mark) ∈ done := fun ⟨mark, hmem⟩ => hnew _ hmem rfl
      constructor
      · intro hsome
        cases hsome
        exact ⟨rfl, .inr ⟨rfl, rfl⟩, hidx⟩
      · rintro ⟨rfl, hdone | ⟨-, rfl⟩, -⟩
        · exact absurd hdone hnot
        · rfl
    · rename_i hkey
      rw [h.lookup idx locks hlocks]
      simp only [hkey, false_and, or_false]
  · rw [getElem?_set_ne hi] at hlocks'
    rw [h.lookup i locks' hlocks']
    constructor
    · rintro ⟨hfalse, hdone, hindex⟩
      exact ⟨hfalse, .inl hdone, hindex⟩
    · rintro ⟨hfalse, hdone | ⟨rfl, -⟩, hindex⟩
      · exact ⟨hfalse, hdone, hindex⟩
      · cases hidx.symm.trans hindex
        exact absurd rfl hi

/-- One more lock is moved. -/
theorem Placed.placeLock (h : Placed sizes regions memorySize done s)
    (hfits : memorySize < 2 ^ 64) (hnew : ∀ e ∈ done, e.1 ≠ entry.1)
    (hle : sizes.entrySize entry.1 entry.2.1 ≤ s.1)
    (heq : placeLock sizes regions s entry = .ok s') :
    Placed sizes regions memorySize (done ++ [entry]) s' := by
  obtain ⟨idx, hidx, heq⟩ := bind_eq_ok.mp heq
  split at heq
  · cases heq
  rename_i locks hlocks
  cases heq
  -- The table does not have the key yet.
  have hnone : locks.map.lookup entry.1 = none := by
    rw [Option.eq_none_iff_forall_ne_some]
    rintro ⟨lock, deleted⟩ hlookup
    obtain ⟨-, ⟨mark, hmem⟩, -⟩ := (h.lookup idx locks hlocks _ _ _).mp hlookup
    exact hnew _ hmem rfl
  have hsum := h.memorySize
  have hmem := mem_of_getElem? hlocks
  have hadd : usizeAdd locks.memorySize (sizes.entrySize entry.1 entry.2.1) =
      locks.memorySize + sizes.entrySize entry.1 entry.2.1 := by
    have := h.le locks hmem
    exact Nat.mod_eq_of_lt (by omega)
  refine ⟨?_, fun locks' hlocks' => ?_, ?_, fun locks' hlocks' => ?_,
    fun _ _ hlocks' _ _ _ => h.lookup_set hnew hidx hlocks rfl hlocks'⟩
  · rw [map_append, sum_append, map_singleton, sum_singleton,
      usizeSub_of_le hle]
    omega
  · rw [map_append, sum_append, map_singleton, sum_singleton]
    rcases mem_or_eq_of_mem_set hlocks' with hmem' | rfl
    · exact (h.le locks' hmem').trans (Nat.le_add_right _ _)
    · exact hadd.trans_le (Nat.add_le_add_right (h.le locks hmem) _)
  · rw [length_set]
    exact h.length
  · rcases mem_or_eq_of_mem_set hlocks' with hmem' | rfl
    · exact h.accounted locks' hmem'
    · rw [Accounted]
      rw [tableSize_insert_new hnone, ← h.accounted locks hmem, hadd]

variable {before after : List (Region K)}

theorem takeWhile_append_of_head? (hbefore : ∀ r ∈ before, r.startKey < key)
    (hafter : ∀ r ∈ after.head?, key ≤ r.startKey) :
    (before ++ after).takeWhile (fun r => decide (r.startKey < key)) = before := by
  rw [takeWhile_append_of_pos fun r hr => decide_eq_true (hbefore r hr)]
  cases after with
  | nil => exact append_nil before
  | cons r after =>
    have hle := hafter r rfl
    rw [takeWhile_cons_of_neg (by simpa using hle), append_nil]

/-- The region that starts at the key. -/
theorem regionIndex_of_eq {r : Region K} (hbefore : ∀ r' ∈ before, r'.startKey < key)
    (hr : r.startKey = key) :
    regionIndex (before ++ r :: after) key = .ok before.length := by
  have hhead : ∀ r' ∈ (r :: after).head?, key ≤ r'.startKey := by
    intro r' hr'
    cases hr'
    exact hr.ge
  rw [regionIndex, binarySearchByStartKey, takeWhile_append_of_head? hbefore hhead]
  rw [getElem?_append_right le_rfl, Nat.sub_self, getElem?_cons_zero]
  dsimp only
  rw [if_pos hr]

/-- The last region that starts below the key. -/
theorem regionIndex_of_lt {r : Region K} (hbefore : ∀ r' ∈ before, r'.startKey < key)
    (hr : r.startKey < key) (hafter : ∀ r' ∈ after.head?, key < r'.startKey) :
    regionIndex (before ++ r :: after) key = .ok before.length := by
  have hbefore' : ∀ r' ∈ before ++ [r], r'.startKey < key :=
    forall_mem_append.mpr ⟨hbefore, forall_mem_singleton.mpr hr⟩
  have htake := takeWhile_append_of_head? hbefore' fun r' hr' => (hafter r' hr').le
  rw [← append_cons] at htake
  rw [regionIndex, binarySearchByStartKey, htake]
  rw [append_cons, getElem?_append_right le_rfl, Nat.sub_self, length_append]
  cases after with
  | nil => rfl
  | cons r' after =>
    rw [getElem?_cons_zero]
    dsimp only
    rw [if_neg (hafter r' rfl).ne']
    rfl

section Partition

variable [OrderBot K] {region derived : Region K}

/-- The regions, in the order of their start keys, have each key of the range once. -/
structure Partitions (regions : List (Region K)) (region : Region K) : Prop where
  sorted : regions.Pairwise (·.startKey < ·.startKey)
  nonempty : ∀ r ∈ regions, r.range.Nonempty
  disjoint : ∀ r ∈ regions, ∀ r' ∈ regions, ∀ key ∈ r.range, key ∈ r'.range → r = r'
  covers : ∀ key, key ∈ region.range ↔ ∃ r ∈ regions, key ∈ r.range

/-- The binary search finds the region of a key. -/
theorem Partitions.regionIndex_eq (h : Partitions regions region) {r : Region K}
    (hr : r ∈ regions) (hkey : key ∈ r.range) :
    ∃ i, regionIndex regions key = .ok i ∧ regions[i]? = some r := by
  obtain ⟨before, after, rfl⟩ := append_of_mem hr
  have hsorted := pairwise_append.mp h.sorted
  have hbefore : ∀ r' ∈ before, r'.startKey < key := fun r' hr' =>
    (hsorted.2.2 r' hr' r mem_cons_self).trans_le hkey.1
  refine ⟨before.length, ?_, by rw [getElem?_append_right le_rfl, Nat.sub_self]; rfl⟩
  rcases hkey.1.eq_or_lt with heq | hlt
  · exact regionIndex_of_eq hbefore heq
  refine regionIndex_of_lt hbefore hlt fun r' hr' => ?_
  have hmem : r' ∈ after := mem_of_mem_head? hr'
  by_contra hle
  -- The start key of the next region would be in this one.
  have hlt' := (pairwise_cons.mp hsorted.2.1).1 r' hmem
  have hin : r'.startKey ∈ r.range :=
    ⟨hlt'.le, (WithTop.coe_le_coe.mpr (not_lt.mp hle)).trans_lt hkey.2⟩
  have hmem' : r' ∈ before ++ r :: after := mem_append_right _ (mem_cons_of_mem _ hmem)
  have hlt := Region.startKey_lt_encEndKey (h.nonempty _ hmem')
  have heq := h.disjoint r hr r' hmem' _ hin ⟨le_rfl, hlt⟩
  exact absurd (heq ▸ hlt') (lt_irrefl _)

/-- A key goes to the region whose range has it. -/
theorem Partitions.regionIndex_iff (h : Partitions regions region) (hkey : key ∈ region.range)
    {i : ℕ} {r : Region K} (hr : regions[i]? = some r) :
    regionIndex regions key = .ok i ↔ key ∈ r.range := by
  constructor
  · intro hi
    obtain ⟨r', hr', hkey'⟩ := (h.covers key).mp hkey
    obtain ⟨i', hi', hget⟩ := h.regionIndex_eq hr' hkey'
    cases hi.symm.trans hi'
    cases hr.symm.trans hget
    exact hkey'
  · intro hkey'
    obtain ⟨i', hi', hget⟩ := h.regionIndex_eq (mem_of_getElem? hr) hkey'
    have hnodup : regions.Nodup := h.sorted.imp fun hlt heq => absurd (heq ▸ hlt) (lt_irrefl _)
    obtain ⟨hlt, -⟩ := List.getElem?_eq_some_iff.mp hr
    rw [hi', (getElem?_inj hlt hnodup).mp (hr.trans hget.symm)]

theorem staysIn_iff (derived : Region K) (key : K) :
    staysIn derived key = true ↔ key ∈ derived.range := by
  rw [staysIn, decide_eq_true_iff, not_or, not_lt, not_and_or, not_not, not_le]
  refine and_congr_right fun _ => ?_
  rw [Region.encEndKey]
  split
  · rename_i hend
    exact iff_of_true (.inl hend) (WithTop.coe_lt_top key)
  · rename_i hend
    exact ⟨fun h => WithTop.coe_lt_coe.mpr (h.resolve_left hend),
      fun h => .inr (WithTop.coe_lt_coe.mp h)⟩

/-- The removed locks are different, and counted. -/
theorem placeLock_pre (h : locks.Accounted sizes) {rest : List (K × PessimisticLock K × Bool)}
    (hsplit : locks.map.entries.filter (fun e => !staysIn derived e.1) = done ++ entry :: rest)
    (hplaced : Placed sizes regions locks.memorySize done s) :
    (∀ e ∈ done, e.1 ≠ entry.1) ∧ sizes.entrySize entry.1 entry.2.1 ≤ s.1 := by
  have hsorted := locks.map.sorted.filter fun e => !staysIn derived e.1
  rw [hsplit, pairwise_append] at hsorted
  refine ⟨fun e he => (hsorted.2.2 e he entry mem_cons_self).ne, ?_⟩
  have htotal := locks.map.total_retain (f := fun key x => sizes.entrySize key x.1)
    fun key _ => staysIn derived key
  rw [hsplit, map_append, sum_append, map_cons, sum_cons] at htotal
  have hsum := hplaced.memorySize
  rw [h, tableSize] at hsum
  omega

/-- What a split leaves in the tables. -/
structure Grouped (sizes : Sizes K) (locks : PeerPessimisticLocks K) (regions : List (Region K))
    (derived : Region K) (kept : PeerPessimisticLocks K) (res : List (PeerPessimisticLocks K)) :
    Prop where
  accounted : kept.Accounted sizes ∧ ∀ locks ∈ res, locks.Accounted sizes
  length : res.length = regions.length
  kept : ∀ key x, kept.map.lookup key = some x ↔
    locks.map.lookup key = some x ∧ key ∈ derived.range
  moved : ∀ i locks', res[i]? = some locks' → ∀ key lock deleted,
    locks'.map.lookup key = some (lock, deleted) ↔
      deleted = false ∧ (∃ mark, locks.map.lookup key = some (lock, mark)) ∧
        key ∉ derived.range ∧ regionIndex regions key = .ok i

variable {res : List (PeerPessimisticLocks K)}

/-- When all locks are placed, the split is done. -/
theorem Placed.grouped (h : locks.Accounted sizes)
    (hplaced : Placed sizes regions locks.memorySize
      (locks.map.entries.filter fun e => !staysIn derived e.1) (memorySize, res)) :
    Grouped sizes locks regions derived
      { locks with map := locks.map.retain fun key _ => staysIn derived key, memorySize } res where
  accounted := by
    refine ⟨?_, hplaced.accounted⟩
    have htotal := locks.map.total_retain (f := fun key x => sizes.entrySize key x.1)
    have hsum := hplaced.memorySize
    rw [h, tableSize, htotal] at hsum
    exact Nat.add_right_cancel hsum
  length := hplaced.length
  kept := by
    intro key x
    rw [OrderedMap.lookup_retain_eq_some_iff, staysIn_iff]
  moved := by
    intro i locks' hlocks' key lock deleted
    rw [hplaced.lookup i locks' hlocks']
    simp only [mem_filter, ← OrderedMap.lookup_eq_some_iff, Bool.not_eq_true', ← staysIn_iff,
      Bool.not_eq_true, exists_and_right, and_assoc]

theorem Accounted.groupByRegions (h : locks.Accounted sizes)
    (hfits : tableSize sizes locks.map < 2 ^ 64)
    (heq : locks.groupByRegions sizes regions derived = .ok (locks', res)) :
    Grouped sizes locks regions derived locks' res := by
  obtain ⟨⟨memorySize, res'⟩, hfold, heq⟩ := bind_eq_ok.mp heq
  cases heq
  refine Placed.grouped h ?_
  refine foldlM_invariant (.start sizes regions locks.memorySize) ?_ hfold
  intro done entry rest s s' hsplit hplaced hplace
  obtain ⟨hnew, hle⟩ := placeLock_pre h hsplit hplaced
  exact hplaced.placeLock (h ▸ hfits) hnew hle hplace

/-- A split into regions that have all the keys. -/
theorem Partitions.exists_groupByRegions (hp : Partitions regions region)
    (h : locks.Accounted sizes) (hfits : tableSize sizes locks.map < 2 ^ 64)
    (hkeys : ∀ key x, locks.map.lookup key = some x → key ∈ region.range) (derived : Region K) :
    ∃ kept res, locks.groupByRegions sizes regions derived = .ok (kept, res) := by
  obtain ⟨⟨memorySize, res⟩, hfold, -⟩ := exists_foldlM_ok
    (f := placeLock sizes regions) (I := Placed sizes regions locks.memorySize)
    (l := locks.map.entries.filter fun e => !staysIn derived e.1)
    (.start sizes regions locks.memorySize) fun done entry rest s hsplit hplaced => by
      have hmem : entry ∈ locks.map.entries := by
        have : entry ∈ done ++ entry :: rest := mem_append_right _ mem_cons_self
        rw [← hsplit] at this
        exact (mem_filter.mp this).1
      obtain ⟨r, hr, hkey⟩ := (hp.covers _).mp
        (hkeys _ _ (lookup_eq_some_iff.mpr hmem))
      obtain ⟨i, hi, hget⟩ := hp.regionIndex_eq hr hkey
      obtain ⟨hlt, -⟩ := List.getElem?_eq_some_iff.mp hget
      obtain ⟨hnew, hle⟩ := placeLock_pre h hsplit hplaced
      have hplace : ∃ s', placeLock sizes regions s entry = .ok s' := by
        rw [PeerPessimisticLocks.placeLock]
        simp only [hi, ok_bind, getElem?_eq_getElem (hplaced.length ▸ hlt)]
        exact ⟨_, rfl⟩
      obtain ⟨s', hplace⟩ := hplace
      exact ⟨s', hplace, hplaced.placeLock (h ▸ hfits) hnew hle hplace⟩
  rw [PeerPessimisticLocks.groupByRegions]
  simp only [hfold]
  exact ⟨_, _, rfl⟩

end Partition

end PeerPessimisticLocks

/-! ### Runs -/

/-- The table of a peer, and `INSTANCE_MEM_SIZE`. -/
structure LocksState (K : Type) [LinearOrder K] where
  locks : PeerPessimisticLocks K := {}
  instanceMemSize : ℤ := 0

inductive LocksEvent (K : Type)
  | insert (pairs : List (K × PessimisticLock K)) (peerMemSizeLimit instanceMemSizeLimit : ℕ)
  | remove (key : K)
  | clear
  | markDeleted (key : K)
  | groupByRegions (regions : List (Region K)) (derived : Region K)
  /-- Other peers change `INSTANCE_MEM_SIZE`. -/
  | others (instanceMemSize : ℤ)

variable [OrderBot K]

/-- A call for the table. The locks of one insertion are on different keys. -/
inductive LocksStep (sizes : Sizes K) : LocksState K → LocksEvent K → LocksState K → Prop
  | insert {s : LocksState K} {pairs : List (K × PessimisticLock K)}
      {peerMemSizeLimit instanceMemSizeLimit : ℕ} {locks : PeerPessimisticLocks K}
      {instanceMemSize : ℤ} (hnodup : (pairs.map Prod.fst).Nodup)
      (h : s.locks.insert sizes s.instanceMemSize pairs peerMemSizeLimit instanceMemSizeLimit =
        .ok (locks, instanceMemSize)) :
    LocksStep sizes s (.insert pairs peerMemSizeLimit instanceMemSizeLimit)
      { locks, instanceMemSize }
  | refused {s : LocksState K} {pairs pairs' : List (K × PessimisticLock K)}
      {peerMemSizeLimit instanceMemSizeLimit : ℕ}
      (h : s.locks.insert sizes s.instanceMemSize pairs peerMemSizeLimit instanceMemSizeLimit =
        .error pairs') :
    LocksStep sizes s (.insert pairs peerMemSizeLimit instanceMemSizeLimit) s
  | remove {s : LocksState K} {key : K} {locks : PeerPessimisticLocks K} {instanceMemSize : ℤ}
      (h : s.locks.remove sizes s.instanceMemSize key = (locks, instanceMemSize)) :
    LocksStep sizes s (.remove key) { locks, instanceMemSize }
  | clear {s : LocksState K} {locks : PeerPessimisticLocks K} {instanceMemSize : ℤ}
      (h : s.locks.clear s.instanceMemSize = (locks, instanceMemSize)) :
    LocksStep sizes s .clear { locks, instanceMemSize }
  | markDeleted {s : LocksState K} {key : K} :
    LocksStep sizes s (.markDeleted key) { s with locks := s.locks.markDeleted key }
  | groupByRegions {s : LocksState K} {regions : List (Region K)} {derived : Region K}
      {locks : PeerPessimisticLocks K} {res : List (PeerPessimisticLocks K)}
      (h : s.locks.groupByRegions sizes regions derived = .ok (locks, res)) :
    LocksStep sizes s (.groupByRegions regions derived) { s with locks }
  | others {s : LocksState K} {instanceMemSize : ℤ} :
    LocksStep sizes s (.others instanceMemSize) { s with instanceMemSize }

open PeerPessimisticLocks

/-- Locks are overwritten by locks with primary keys of the same length. -/
def LocksEvent.OverwriteOk (sizes : Sizes K) (s : LocksState K) : LocksEvent K → Prop
  | .insert pairs peerMemSizeLimit instanceMemSizeLimit => ∀ result,
      s.locks.insert sizes s.instanceMemSize pairs peerMemSizeLimit instanceMemSizeLimit =
        .ok result → PeerPessimisticLocks.OverwriteOk sizes s.locks.map pairs
  | _ => True

/-- A call for the table after which the locks fit in memory. -/
structure LocksRun (sizes : Sizes K) (s : LocksState K) (e : LocksEvent K) (s' : LocksState K) :
    Prop where
  step : LocksStep sizes s e s'
  overwriteOk : e.OverwriteOk sizes s
  fits : tableSize sizes s'.locks.map < 2 ^ 64

/-- **Every call keeps the account.** -/
theorem LocksRun.accounted {sizes : Sizes K} {s s' : LocksState K} {e : LocksEvent K}
    (h : s.locks.Accounted sizes) (hfits : tableSize sizes s.locks.map < 2 ^ 64)
    (hrun : LocksRun sizes s e s') : s'.locks.Accounted sizes := by
  obtain ⟨hstep, hok, hfits'⟩ := hrun
  cases hstep with
  | insert hnodup heq => exact h.insert hnodup (hok _ heq) hfits' heq
  | refused _ => exact h
  | @remove key _ _ heq =>
    have hremove := h.remove s.instanceMemSize key
    rwa [heq] at hremove
  | clear heq =>
    have hclear : (s.locks.clear s.instanceMemSize).1.Accounted sizes := .clear _ _
    rwa [heq] at hclear
  | markDeleted => exact h.markDeleted _
  | groupByRegions heq => exact (h.groupByRegions hfits heq).accounted.1
  | others => exact h

/-- In every run whose overwriting locks have primary keys of the same length, the count is the sum
of the sizes of the locks, and no removal takes off more than that; a refused insertion hands back
its locks; and a split into regions that have all the keys of the table moves each lock outside of
the derived region to the region that has its key, without its mark, and keeps the others. -/
theorem pessimisticLocks_accounted {sizes : Sizes K} {es : List (LocksEvent K)} {s : LocksState K}
    (h : Exec (LocksRun sizes) {} es s) :
    s.locks.memorySize = tableSize sizes s.locks.map ∧
    (∀ key lock mark, s.locks.map.lookup key = some (lock, mark) →
      sizes.entrySize key lock ≤ s.locks.memorySize) ∧
    (∀ pairs pairs' peerMemSizeLimit instanceMemSizeLimit,
      s.locks.insert sizes s.instanceMemSize pairs peerMemSizeLimit instanceMemSizeLimit =
        .error pairs' → pairs' = pairs) ∧
    ∀ region regions derived, Partitions regions region → derived ∈ regions →
      (∀ key x, s.locks.map.lookup key = some x → key ∈ region.range) →
      ∃ kept res, s.locks.groupByRegions sizes regions derived = .ok (kept, res) ∧
        kept.memorySize = tableSize sizes kept.map ∧ res.length = regions.length ∧
        (∀ key x, kept.map.lookup key = some x ↔
          s.locks.map.lookup key = some x ∧ key ∈ derived.range) ∧
        ∀ (i : ℕ) (r : Region K) (moved : PeerPessimisticLocks K), regions[i]? = some r →
          res[i]? = some moved →
          moved.memorySize = tableSize sizes moved.map ∧
          ∀ key lock deleted, moved.map.lookup key = some (lock, deleted) ↔
            deleted = false ∧ (∃ mark, s.locks.map.lookup key = some (lock, mark)) ∧
              key ∉ derived.range ∧ key ∈ r.range := by
  obtain ⟨hinv, hfits⟩ : s.locks.Accounted sizes ∧ tableSize sizes s.locks.map < 2 ^ 64 :=
    h.invariant (I := fun s => s.locks.Accounted sizes ∧ tableSize sizes s.locks.map < 2 ^ 64)
      (fun _ _ _ hs hrun => ⟨hrun.accounted hs.1 hs.2, hrun.fits⟩) ⟨rfl, Nat.two_pow_pos 64⟩
  refine ⟨hinv, fun key lock mark hlock => hinv.entrySize_le hlock, ?_, ?_⟩
  · intro pairs pairs' peerMemSizeLimit instanceMemSizeLimit heq
    rw [PeerPessimisticLocks.insert] at heq
    split at heq <;> cases heq
    rfl
  · intro region regions derived hp _ hkeys
    obtain ⟨kept, res, heq⟩ := hp.exists_groupByRegions hinv hfits hkeys derived
    have hgrouped := hinv.groupByRegions hfits heq
    refine ⟨kept, res, heq, hgrouped.accounted.1, hgrouped.length, hgrouped.kept, ?_⟩
    intro i r moved hr hmoved
    refine ⟨hgrouped.accounted.2 moved (mem_of_getElem? hmoved), fun key lock deleted => ?_⟩
    rw [hgrouped.moved i moved hmoved]
    -- The key is one of the range, so its index is that of the region that has it.
    refine and_congr_right fun _ => and_congr_right fun hlock => and_congr_right fun _ => ?_
    obtain ⟨mark, hlock⟩ := hlock
    exact hp.regionIndex_iff (hkeys _ _ hlock) hr

section Instance

/-- Keys are as long as they are large. -/
def unarySizes : Sizes ℕ := { keyLen := id, primaryLen := id, lockSize := 80 }

def belowFive : Region ℕ :=
  { id := 1, startKey := 0, endKey := 5, regionEpoch := ⟨1, 2⟩, peers := [] }

def fromFive : Region ℕ :=
  { id := 2, startKey := 5, endKey := 0, regionEpoch := ⟨1, 2⟩, peers := [] }

def wholeRange : Region ℕ :=
  { id := 1, startKey := 0, endKey := 0, regionEpoch := ⟨1, 1⟩, peers := [] }

theorem mem_range_belowFive {key : ℕ} : key ∈ belowFive.range ↔ key < 5 := by
  simp [belowFive, Region.range, VersionedPartition.keysIn, Region.encEndKey]

theorem mem_range_fromFive {key : ℕ} : key ∈ fromFive.range ↔ 5 ≤ key := by
  simp [fromFive, Region.range, VersionedPartition.keysIn, Region.encEndKey]

/-- The keys are split at five. -/
theorem partitions_atFive : Partitions [belowFive, fromFive] wholeRange where
  sorted := by decide
  nonempty := forall_mem_cons.mpr ⟨⟨0, mem_range_belowFive.mpr (by decide)⟩,
    forall_mem_singleton.mpr ⟨5, mem_range_fromFive.mpr le_rfl⟩⟩
  disjoint := by
    have hnot : ∀ key ∈ belowFive.range, key ∉ fromFive.range := fun key hkey hkey' =>
      absurd (mem_range_belowFive.mp hkey) (not_lt.mpr (mem_range_fromFive.mp hkey'))
    simp only [forall_mem_cons, not_mem_nil, false_imp_iff, implies_true, and_true, true_and]
    exact ⟨fun key hkey hkey' => absurd hkey' (hnot key hkey),
      fun key hkey hkey' => absurd hkey (hnot key hkey')⟩
  covers := by
    intro key
    refine iff_of_true ⟨Nat.zero_le key, WithTop.coe_lt_top key⟩ ?_
    rcases Nat.lt_or_ge key 5 with hlt | hge
    · exact ⟨belowFive, mem_cons_self, mem_range_belowFive.mpr hlt⟩
    · exact ⟨fromFive, mem_cons_of_mem _ mem_cons_self, mem_range_fromFive.mpr hge⟩

/-- Two keys are locked, one of them is overwritten, a lock with a longer primary key is refused for
it, and the other one is marked. -/
def lockEvents : List (LocksEvent ℕ) :=
  [.insert [(3, { primary := 3, startTs := 10 }), (7, { primary := 3, startTs := 10 })] 1000 1000,
    .insert [(3, { primary := 3, startTs := 10, forUpdateTs := 12 })] 1000 1000,
    .insert [(3, { primary := 9, startTs := 10, forUpdateTs := 14 })] 100 1000, .markDeleted 7]

/-- The lock on `7` goes to the second region, without its mark. -/
theorem pessimisticLocks_accounted_split : ∃ s : LocksState ℕ,
    Exec (LocksRun unarySizes) {} lockEvents s ∧
      s.locks.memorySize = 3 + (3 + 80) + (7 + (3 + 80)) ∧
      ∃ kept res, s.locks.groupByRegions unarySizes [belowFive, fromFive] belowFive =
        .ok (kept, res) ∧ kept.memorySize = tableSize unarySizes kept.map ∧
        ∀ moved : PeerPessimisticLocks ℕ, res[1]? = some moved →
          moved.map.lookup 7 = some ({ primary := 3, startTs := 10 }, false) := by
  have hrun : ∃ s : LocksState ℕ,
      Exec (LocksRun unarySizes) {} lockEvents s ∧
        s.locks.memorySize = 3 + (3 + 80) + (7 + (3 + 80)) ∧
        s.locks.map.lookup 7 = some ({ primary := 3, startTs := 10 }, true) := by
    refine ⟨_, .cons ⟨.insert (by decide) rfl, ?_, by decide⟩ <|
      .cons ⟨.insert (by decide) rfl, ?_, by decide⟩ <| .cons ⟨.refused rfl, ?_, by decide⟩ <|
      .cons ⟨.markDeleted, trivial, by decide⟩ <| .nil _, rfl, rfl⟩
    · intro result _ p _ old deleted hold
      cases hold
    · intro result _ p hp old deleted hold
      cases mem_singleton.mp hp
      cases hold
      rfl
    · intro result hok
      cases hok
  obtain ⟨s, hrun, hsize, hlock⟩ := hrun
  obtain ⟨-, -, -, hsplit⟩ := pessimisticLocks_accounted hrun
  obtain ⟨kept, res, heq, hkept, -, -, hmoved⟩ := hsplit wholeRange _ belowFive partitions_atFive
    mem_cons_self fun key _ _ => ⟨Nat.zero_le key, WithTop.coe_lt_top key⟩
  refine ⟨s, hrun, hsize, kept, res, heq, hkept, fun moved hget => ?_⟩
  obtain ⟨-, hlookup⟩ := hmoved 1 fromFive moved rfl hget
  exact (hlookup 7 _ _).mpr ⟨rfl, ⟨true, hlock⟩,
    fun hmem => absurd (mem_range_belowFive.mp hmem) (by decide),
    mem_range_fromFive.mpr (by decide)⟩

/-- A lock is overwritten by one with a longer primary key, and removed: the count of the empty
table is far from zero. -/
theorem pessimisticLocks_underflow : ∃ s s' : LocksState ℕ,
    Exec (LocksStep unarySizes) {} [.insert [(3, { primary := 1, startTs := 10 })] 1000 1000,
      .insert [(3, { primary := 10, startTs := 10 })] 1000 1000] s ∧
    LocksStep unarySizes s (.remove 3) s' ∧
    s.locks.memorySize = 84 ∧ tableSize unarySizes s.locks.map = 93 ∧
    s'.locks.memorySize = 2 ^ 64 - 9 ∧ s'.locks.map = .empty :=
  ⟨_, _, .cons (.insert (by decide) rfl) <| .cons (.insert (by decide) rfl) <| .nil _,
    .remove rfl, rfl, rfl, rfl, rfl⟩

end Instance

end Tikv.Raftstore
