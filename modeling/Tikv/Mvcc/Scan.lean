import Mathlib.Data.Finset.Sort
import Tikv.Foundation.Drain
import Tikv.Mvcc.Agreement

/-!
# What a scan should report

`Snapshot.outcome` says what a scan should report for one user key: the lock error of a key
that is blocked, the value a lock that may be accessed will write, or else the visible value.

Both scanners step a lock cursor and a write cursor side by side. The entries of each column
family in the range of a scan are the concatenation of the entries of its user keys
(`lock_eq_flatMap`, `write_eq_flatMap`), so the cursors can be followed key by key: with `ks`
the user keys still to come, they have the locks and the versions of exactly these keys left
to read.
-/

namespace Tikv

open List Snapshot

variable {K : Type} [LinearOrder K]

namespace Snapshot

variable (S : Snapshot K)

/-- The value the transaction of a Put lock is about to write. -/
def lockValue (k : K) (lock : Lock K) : Option Value :=
  match lock.lockType with
  | .put => lock.shortValue.or (S.default.get ⟨k, lock.ts⟩)
  | _ => none

/-- What a scan should report for a user key. -/
def outcome (cfg : ScannerConfig K) (k : K) : Option (Res K (K × Value)) :=
  match S.lock.get k with
  | none => (S.visible k cfg.ts).map fun v => .ok (k, v)
  | some lock =>
    match lock.checkTsConflict k cfg.ts cfg.bypassLocks .si with
    | .ok () => (S.visible k cfg.ts).map fun v => .ok (k, v)
    | .error _ =>
      if lock.ts ∈ cfg.accessLocks then (S.lockValue k lock).map fun v => .ok (k, v)
      else some (.error (.error (.keyIsLocked (lock.intoLockInfo k))))

/-- The contents scans may rely on. -/
structure WellFormed : Prop where
  sound : ∀ k, ReadSound (S.versions k)
  values : ∀ k, S.HasValues k
  commitTsPos : ∀ k, CommitTsPos (S.versions k)
  /-- A Put lock comes with its value. -/
  lockValues : ∀ k lock, S.lock.get k = some lock → lock.lockType = .put →
    (S.lockValue k lock).isSome

/-- The entries of a user key in the lock CF. -/
def locksOf (k : K) : List (K × Lock K) := (S.lock.get k).toList.map fun lock => (k, lock)

/-- The entries of a user key in the write CF. -/
def writesOf (k : K) : List (MvccKey K × Write) := tag k (S.versions k).entries

end Snapshot

/-! ### The user keys of a scan -/

/-- The entries of the smallest key come first. -/
theorem filter_min_append {β : Type} {f : β → K} {l : List β} {k : K}
    (hl : l.Pairwise fun a b => f a ≤ f b) (hmin : ∀ e ∈ l, k ≤ f e) :
    ((l.filter fun e => f e = k) ++ l.filter fun e => ¬ f e = k) = l := by
  induction l with
  | nil => rfl
  | cons e l ih =>
    rw [pairwise_cons] at hl
    by_cases he : f e = k
    · rw [filter_cons_of_pos (by simpa using he),
        filter_cons_of_neg (by simpa using he), cons_append]
      exact congrArg _ (ih hl.2 fun x hx => hmin x (mem_cons_of_mem _ hx))
    · -- The first key is larger than `k`, so `k` does not occur at all.
      have hne : ∀ x ∈ e :: l, ¬ f x = k := by
        intro x hx
        have hlt : k < f e := lt_of_le_of_ne (hmin e mem_cons_self) (Ne.symm he)
        rcases mem_cons.mp hx with rfl | hx
        · exact he
        · exact (hlt.trans_le (hl.1 x hx)).ne'
      rw [filter_eq_nil_iff.mpr (by simpa using hne), nil_append,
        filter_eq_self.mpr (by simpa using hne)]

variable {ks : List K}

/-- A list that is sorted by key is the concatenation of its blocks. -/
theorem flatMap_filter_eq {β : Type} {f : β → K} {l : List β}
    (hl : l.Pairwise fun a b => f a ≤ f b) (hks : ks.Pairwise (· < ·)) (hmem : ∀ e ∈ l, f e ∈ ks) :
    (ks.flatMap fun k => l.filter fun e => f e = k) = l := by
  induction ks generalizing l with
  | nil =>
    cases l with
    | nil => rfl
    | cons e l => cases hmem e mem_cons_self
  | cons k ks ih =>
    rw [pairwise_cons] at hks
    have hmin : ∀ e ∈ l, k ≤ f e := fun e he => by
      rcases mem_cons.mp (hmem e he) with h | h
      · exact h.ge
      · exact (hks.1 _ h).le
    have hrest := ih (hl.filter fun e => ¬ f e = k) hks.2 fun e he => by
      obtain ⟨he, hne⟩ := mem_filter.mp he
      exact (mem_cons.mp (hmem e he)).resolve_left (by simpa using hne)
    rw [flatMap_cons, ← filter_min_append hl hmin, ← hrest]
    congr 1
    · rw [hrest, filter_min_append hl hmin]
    · refine flatMap_congr fun k' hk' => ?_
      rw [hrest, filter_min_append hl hmin, filter_filter]
      refine filter_congr fun e _ => ?_
      by_cases h : f e = k' <;> simp [h, (hks.1 k' hk').ne']

namespace Snapshot

variable {S : Snapshot K} {k : K}

theorem key_of_mem_locksOf {e : K × Lock K} (h : e ∈ S.locksOf k) : e.1 = k := by
  obtain ⟨lock, -, rfl⟩ := mem_map.mp h
  rfl

theorem user_of_mem_writesOf {e : MvccKey K × Write} (h : e ∈ S.writesOf k) : e.1.user = k := by
  obtain ⟨x, -, rfl⟩ := mem_map.mp h
  rfl

theorem locksOf_eq_nil_iff : S.locksOf k = [] ↔ S.lock.get k = none := by
  simp [locksOf]

theorem filter_key_eq : (S.lock.data.filter fun e => e.1 = k) = S.locksOf k :=
  keyed_filter_eq (R := (· < ·)) lt_irrefl S.lock.sorted

end Snapshot

/-- The user keys a scan has to deal with, in ascending order. -/
def scanKeys (S : Snapshot K) (cfg : ScannerConfig K) : List K :=
  (((S.lock.restrict cfg.inRange).data.map Prod.fst ++
    (S.write.restrict fun key => cfg.inRange key.user).data.map fun e => e.1.user).toFinset).sort
    (· ≤ ·)

variable {S : Snapshot K} {cfg : ScannerConfig K}

theorem scanKeys_sorted (S : Snapshot K) (cfg : ScannerConfig K) :
    (scanKeys S cfg).Pairwise (· < ·) :=
  (Finset.sortedLT_sort _).pairwise

theorem length_scanKeys_le (S : Snapshot K) (cfg : ScannerConfig K) :
    (scanKeys S cfg).length ≤ S.write.data.length + S.lock.data.length := by
  have hcard := toFinset_card_le ((S.lock.restrict cfg.inRange).data.map Prod.fst ++
    (S.write.restrict fun key => cfg.inRange key.user).data.map fun e => e.1.user)
  have hl : (S.lock.restrict cfg.inRange).data.length ≤ S.lock.data.length :=
    length_filter_le _ _
  have hw : (S.write.restrict fun key => cfg.inRange key.user).data.length ≤
    S.write.data.length := length_filter_le _ _
  rw [length_append, length_map, length_map] at hcard
  rw [scanKeys, Finset.length_sort]
  omega

/-- A scan meets the keys of its range with a lock or a version. -/
theorem mem_scanKeys {k : K} : k ∈ scanKeys S cfg ↔ cfg.inRange k = true ∧
    (S.lock.get k ≠ none ∨ (S.versions k).entries ≠ []) := by
  rw [scanKeys, Finset.mem_sort, mem_toFinset, mem_append]
  constructor
  · rintro (hk | hk) <;> obtain ⟨e, he, rfl⟩ := mem_map.mp hk <;>
      obtain ⟨he, hin⟩ := mem_filter.mp he
    · exact ⟨hin, Or.inl (by rw [Cf.get_eq_some_iff.mpr he]; exact Option.some_ne_none _)⟩
    · exact ⟨hin, Or.inr (ne_nil_of_mem (mem_versions.mpr he))⟩
  · rintro ⟨hin, h | h⟩
    · obtain ⟨lock, hget⟩ := Option.ne_none_iff_exists'.mp h
      exact Or.inl (mem_map.mpr
        ⟨(k, lock), mem_filter.mpr ⟨Cf.get_eq_some_iff.mp hget, hin⟩, rfl⟩)
    · obtain ⟨⟨t, w⟩, he⟩ := exists_mem_of_ne_nil _ h
      exact Or.inr (mem_map.mpr
        ⟨(⟨k, t⟩, w), mem_filter.mpr ⟨mem_versions.mp he, hin⟩, rfl⟩)

theorem filter_inRange_filter {β : Type} {f : β → K} {l : List β} {k : K}
    (hk : cfg.inRange k = true) : ((l.filter fun e => cfg.inRange (f e)).filter fun e => f e = k) =
      l.filter fun e => f e = k := by
  rw [filter_filter]
  refine filter_congr fun e _ => ?_
  by_cases h : f e = k <;> simp [h, hk]

theorem lock_eq_flatMap :
    (S.lock.restrict cfg.inRange).data = (scanKeys S cfg).flatMap S.locksOf := by
  have h := flatMap_filter_eq (f := Prod.fst) (l := (S.lock.restrict cfg.inRange).data)
    ((S.lock.restrict cfg.inRange).sorted.imp fun h => h.le) (scanKeys_sorted S cfg) ?_
  · rw [← h]
    exact flatMap_congr fun k hk =>
      (filter_inRange_filter (mem_scanKeys.mp hk).1).trans filter_key_eq
  · intro e he
    rw [scanKeys, Finset.mem_sort, mem_toFinset]
    exact mem_append_left _ (mem_map_of_mem he)

theorem write_eq_flatMap : (S.write.restrict fun key => cfg.inRange key.user).data =
    (scanKeys S cfg).flatMap S.writesOf := by
  have h := flatMap_filter_eq (f := fun e : MvccKey K × Write => e.1.user)
    ((S.write.restrict fun key => cfg.inRange key.user).sorted.imp fun h =>
      (MvccKey.lt_iff.mp h).elim le_of_lt fun h => h.1.le) (scanKeys_sorted S cfg) ?_
  · rw [← h]
    exact flatMap_congr fun k hk =>
      (filter_inRange_filter (mem_scanKeys.mp hk).1).trans filter_user_eq
  · intro e he
    rw [scanKeys, Finset.mem_sort, mem_toFinset]
    exact mem_append_right _ (mem_map_of_mem he)

theorem found_of_mem_scanKeys {k : K} (h : k ∈ scanKeys S cfg) :
    S.writesOf k ≠ [] ∨ S.locksOf k ≠ [] := by
  rcases (mem_scanKeys.mp h).2 with h | h
  · exact Or.inr (mt locksOf_eq_nil_iff.mp h)
  · exact Or.inl (mt map_eq_nil_iff.mp h)

theorem lt_key_of_pairwise {k : K} (h : (k :: ks).Pairwise (· < ·)) :
    ∀ e ∈ ks.flatMap S.locksOf, k < e.1 := by
  intro e he
  obtain ⟨k', hk', he⟩ := mem_flatMap.mp he
  rw [key_of_mem_locksOf he]
  exact rel_of_pairwise_cons h hk'

theorem lt_user_of_pairwise {k : K} (h : (k :: ks).Pairwise (· < ·)) :
    ∀ e ∈ ks.flatMap S.writesOf, k < e.1.user := by
  intro e he
  obtain ⟨k', hk', he⟩ := mem_flatMap.mp he
  rw [user_of_mem_writesOf he]
  exact rel_of_pairwise_cons h hk'

/-! ### What the scanners share -/

/-- How an iteration reports the outcome of a key. -/
def answer {α : Type} : Option (Res K α) → Res K (Option α)
  | none => .ok none
  | some r => some <$> r

omit [LinearOrder K] in
theorem answer_map_ok {α β : Type} (v : Option α) (f : α → β) :
    answer (v.map fun a => (.ok (f a) : Res K β)) = .ok (v.map f) := by
  cases v <;> rfl

/-- A snapshot-isolation read is only ever blocked with `KeyIsLocked`. -/
theorem eq_keyIsLocked {lock : Lock K} {k : K} {ts : ℕ} {bypassLocks : TsSet} {e : ErrorInner K}
    (h : lock.checkTsConflict k ts bypassLocks .si = .error e) :
    e = .keyIsLocked (lock.intoLockInfo k) := by
  simp only [Lock.checkTsConflict, Lock.checkTsConflictSi] at h
  split_ifs at h <;> cases h <;> rfl

/-- `load_data_by_lock` returns the value of the lock, in either direction. -/
theorem loadDataByLock_spec {k : K} {lock : Lock K} {P : Cursor (MvccKey K) Value → Prop}
    (load : K → ℕ → Res K Value × Cursor (MvccKey K) Value) {cursor : Cursor (MvccKey K) Value}
    (ho : cfg.omitValue = false) (hS : S.WellFormed) (hget : S.lock.get k = some lock)
    (ht : lock.lockType = .put ∨ lock.lockType = .delete) (hP : P cursor)
    (hload : ∀ v, S.default.get ⟨k, lock.ts⟩ = some v → ∃ c, load k lock.ts = (.ok v, c) ∧ P c) :
    ∃ c, loadDataByLock cfg load cursor k lock = (.ok (S.lockValue k lock), c) ∧ P c := by
  rcases ht with ht | ht
  · obtain ⟨v, hv⟩ := Option.isSome_iff_exists.mp (hS.lockValues k lock hget ht)
    have hval := hv
    simp only [lockValue, ht] at hval
    simp only [loadDataByLock, ht, ho, Bool.false_eq_true, if_false, hv]
    cases hsv : lock.shortValue with
    | some value =>
      rw [hsv, Option.some_or] at hval
      exact ⟨cursor, by rw [hval], hP⟩
    | none =>
      rw [hsv] at hval
      obtain ⟨c, hc, hPc⟩ := hload v hval
      exact ⟨c, by simp only [hc]; rfl, hPc⟩
  · exact ⟨cursor, by simp only [loadDataByLock, lockValue, ht], hP⟩

end Tikv
