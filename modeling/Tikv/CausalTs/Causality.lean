import Tikv.CausalTs.Tso

/-!
# Causal timestamps are unique and increasing

A caller comes to a batch only when the batches before it are used up, and they stay so. The
invariant keeps the largest timestamp taken so far, which is below everything that is left in the
cache. So a timestamp is larger than all that were taken before, in particular those that were
returned when the call started.

The second number of the invariant is the last timestamp PD had issued when the renew request of
the latest flush came to it. The batches that a flush drops are gone when it returns, and a batch
that comes later starts behind everything PD had issued.
-/

namespace Tikv.CausalTs

open List Option State OrderedMap Function TsoBatch

open TimeStamp (physical logical compose)

theorem compose_lt_compose {p a b : ℕ} : compose p a < compose p b ↔ a < b :=
  Nat.add_lt_add_iff_left

theorem compose_le_compose {p a b : ℕ} : compose p a ≤ compose p b ↔ a ≤ b :=
  Nat.add_le_add_iff_left

/-! ### The invariant -/

/-- The timestamp a call has taken and not yet returned. -/
def Caller.holds (c : Caller) : Option ℕ :=
  match c.pc with
  | .remove ts _ | .ok ts => some ts
  | _ => none

/-- What the batches in the list are below of. -/
def RenewPc.bound (issued : ℕ) : RenewPc → ℕ
  | .push _ asked _ _ | .insert _ asked _ => asked
  | _ => issued

/-- A batch of the list, where `last` is the largest timestamp taken and `cleared` the last one
that PD had issued before the latest flush. -/
structure BatchOk (bound last cleared key : ℕ) (b : TsoBatch) : Prop where
  key_eq : key = b.originalStart
  start_le_end : b.logicalStart ≤ b.logicalEnd
  start_le : b.logicalStart ≤ b.allocOffset
  end_le : b.excludedEnd ≤ bound + 1
  cleared_lt : cleared < key
  last_lt : b.allocOffset < b.logicalEnd → last < compose b.physical b.allocOffset

structure ListOk (inner : TsoBatchList) (bound last cleared : ℕ) : Prop where
  batch : ∀ {k b}, inner.lookup k = some b → BatchOk bound last cleared k b
  chain : ∀ {k b k' b'}, inner.lookup k = some b → inner.lookup k' = some b' → k < k' →
    b.excludedEnd ≤ k'

/-- What is known of a caller; `returned` are the timestamps that calls have returned. -/
structure CallerOk (inner : TsoBatchList) (readers returned : List ℕ) (last cleared id : ℕ)
    (c : Caller) : Prop where
  returnedBefore : ∀ t ∈ c.returnedBefore, t ≤ last
  flushedBefore : ∀ t ∈ c.flushedBefore, t ≤ cleared
  asked : ∀ t ∈ c.asked, t ≤ cleared
  reader : ∀ {retries tried}, c.pc = .pop retries tried → id ∈ readers
  /-- The batches it has tried are used up. -/
  tried : ∀ {retries tried}, c.pc = .pop retries (some tried) →
    ∀ {k b}, inner.lookup k = some b → k ≤ tried → b.logicalEnd ≤ b.allocOffset
  holds : ∀ {ts}, c.holds = some ts → ts ≤ last ∧ ts ∉ returned ∧
    (∀ t ∈ c.returnedBefore, t < ts) ∧ ∀ t ∈ c.flushedBefore, t < ts

/-- What is known of the renew thread. -/
def RenewOk (issued cleared : ℕ) : RenewPc → Prop
  | .push _ asked batchSize lastTs =>
    asked + batchSize ≤ lastTs ∧ batchSize ≤ logical lastTs + 1 ∧ lastTs ≤ issued
  | .insert _ asked b => asked < b.originalStart ∧ b.excludedEnd ≤ issued + 1 ∧
    b.logicalStart ≤ b.logicalEnd ∧ b.allocOffset = b.logicalStart
  | .fail _ asked => asked ≤ issued
  | .checkLen requests asked | .popFirst requests asked | .respond requests asked _ =>
    ∀ r ∈ requests, r.needFlush = true → asked ≤ cleared
  | _ => True

structure InvAt (s : State) (last cleared : ℕ) : Prop where
  list : ListOk s.inner (s.renew.bound s.issued) last cleared
  last_le : last ≤ s.renew.bound s.issued
  cleared_le : cleared ≤ s.renew.bound s.issued
  bound_le : s.renew.bound s.issued ≤ s.issued
  callers : ∀ id,
    CallerOk s.inner s.readers (s.returned.map (·.ts)) last cleared id (s.callers id)
  /-- No two calls have taken the same timestamp. -/
  distinct : ∀ {id id' ts}, (s.callers id).holds = some ts → (s.callers id').holds = some ts →
    id = id'
  nodup : (s.returned.map (·.ts)).Nodup
  returned : ∀ r ∈ s.returned, r.ts ≤ last ∧ (∀ t ∈ r.returnedBefore, t < r.ts) ∧
    ∀ t ∈ r.flushedBefore, t < r.ts
  flushed : ∀ t ∈ s.flushed, t ≤ cleared
  renew : RenewOk s.issued cleared s.renew

/-- The numbers exist. -/
def State.Inv (s : State) : Prop := ∃ last cleared, InvAt s last cleared

/-! ### The list -/

section List

variable {inner : TsoBatchList} {bound last cleared key : ℕ} {batch : TsoBatch}

/-- An iteration comes to the batches in the order of their keys. -/
theorem TsoBatchList.next_spec {tried : Option ℕ} (h : inner.next tried = some (key, batch)) :
    inner.lookup key = some batch ∧
      ∀ {k b}, inner.lookup k = some b → k < key → ∃ t, tried = some t ∧ k ≤ t := by
  cases tried with
  | none =>
    obtain ⟨hlookup, hmin⟩ := head?_entries h
    exact ⟨hlookup, fun hk hlt => absurd (hmin _ _ hk) (not_le.mpr hlt)⟩
  | some t =>
    obtain ⟨hlookup, hmin⟩ := head?_above h
    refine ⟨hlookup, fun {k b} hk hlt => ⟨t, rfl, ?_⟩⟩
    by_contra hnot
    exact absurd (hmin _ _ hk (not_le.mp hnot)) (not_le.mpr hlt)

section

variable (h : ListOk inner bound last cleared)
include h

theorem ListOk.mono {bound' cleared' : ℕ} (hbound : bound ≤ bound')
    (hcleared : cleared' = cleared) :
    ListOk inner bound' last cleared' where
  batch hk := by
    subst hcleared
    exact { h.batch hk with end_le := (h.batch hk).end_le.trans (Nat.add_le_add_right hbound 1) }
  chain := h.chain

omit h in
theorem ListOk.empty (bound last cleared : ℕ) :
    ListOk empty bound last cleared where
  batch hk := nomatch hk
  chain hk := nomatch hk

theorem ListOk.erase (key : ℕ) :
    ListOk (inner.erase key) bound last cleared where
  batch hk := h.batch (lookup_of_erase hk)
  chain hk hk' := h.chain (lookup_of_erase hk) (lookup_of_erase hk')

/-- A batch was tried; `last'` is the largest timestamp taken after that. -/
theorem ListOk.insert_popped (hkey : inner.lookup key = some batch) {last' : ℕ}
    (hother : ∀ {k b}, inner.lookup k = some b → k ≠ key → b.allocOffset < b.logicalEnd →
      last' < compose b.physical b.allocOffset)
    (hpopped : batch.allocOffset + 1 < batch.logicalEnd →
      last' < compose batch.physical (batch.allocOffset + 1)) :
    ListOk (inner.insert key batch.popped) bound last' cleared := by
  have hold : ∀ {k b}, (inner.insert key batch.popped).lookup k = some b →
      ∃ b', inner.lookup k = some b' ∧ b'.excludedEnd = b.excludedEnd := by
    intro k b hk
    rcases of_lookup_insert hk with ⟨rfl, rfl⟩ | ⟨-, hk⟩
    · exact ⟨batch, hkey, rfl⟩
    · exact ⟨b, hk, rfl⟩
  refine ⟨fun {k b} hk => ?_, fun {k b k' b'} hk hk' hlt => ?_⟩
  · rcases of_lookup_insert hk with ⟨rfl, rfl⟩ | ⟨hne, hk⟩
    · have hb := h.batch hkey
      exact ⟨hb.key_eq, hb.start_le_end, Nat.le_succ_of_le hb.start_le, hb.end_le, hb.cleared_lt,
        hpopped⟩
    · exact { h.batch hk with last_lt := hother hk hne }
  · obtain ⟨b₁, hb₁, hend⟩ := hold hk
    obtain ⟨b₂, hb₂, -⟩ := hold hk'
    exact hend ▸ h.chain hb₁ hb₂ hlt

omit h in
/-- A new batch starts behind everything that was issued before. -/
theorem ListOk.push {asked issued : ℕ} {newBatch : TsoBatch} {needFlush : Bool}
    (h : ListOk inner asked last cleared) (hlast : last ≤ asked) (hcleared : cleared ≤ asked)
    (hasked : asked ≤ issued) (hstart : asked < newBatch.originalStart)
    (hend : newBatch.excludedEnd ≤ issued + 1)
    (hle : newBatch.logicalStart ≤ newBatch.logicalEnd)
    (halloc : newBatch.allocOffset = newBatch.logicalStart) :
    ListOk (inner.push newBatch needFlush) issued last
      (if needFlush then asked else cleared) := by
  have hnew : BatchOk issued last (if needFlush then asked else cleared) newBatch.originalStart
      newBatch := by
    refine ⟨rfl, hle, halloc.ge, hend, ?_, fun _ => ?_⟩
    · split
      · exact hstart
      · exact hcleared.trans_lt hstart
    · rw [halloc]
      exact hlast.trans_lt hstart
  have hcases : ∀ {k b}, (inner.push newBatch needFlush).lookup k = some b →
      k = newBatch.originalStart ∧ b = newBatch ∨ needFlush = false ∧ inner.lookup k = some b := by
    intro k b hk
    refine (of_lookup_insert hk).imp_right fun ⟨_, hk⟩ => ?_
    cases needFlush with
    | true => exact nomatch hk
    | false => exact ⟨rfl, hk⟩
  -- An old batch ends before the new one starts, so its key is not larger either.
  have hbefore : ∀ {k b}, inner.lookup k = some b →
      b.excludedEnd ≤ newBatch.originalStart ∧ k ≤ newBatch.originalStart := by
    intro k b hk
    have hb := h.batch hk
    have hend' : b.excludedEnd ≤ newBatch.originalStart := hb.end_le.trans hstart
    refine ⟨hend', ?_⟩
    rw [hb.key_eq]
    exact (compose_le_compose.mpr hb.start_le_end).trans hend'
  refine ⟨fun {k b} hk => ?_, fun {k b k' b'} hk hk' hlt => ?_⟩
  · rcases hcases hk with ⟨rfl, rfl⟩ | ⟨rfl, hold⟩
    · exact hnew
    · exact (h.mono hasked rfl).batch hold
  · rcases hcases hk with ⟨rfl, rfl⟩ | ⟨-, hold⟩
    · rcases hcases hk' with ⟨rfl, -⟩ | ⟨-, hold'⟩
      · exact absurd hlt (lt_irrefl _)
      · exact absurd hlt (not_lt.mpr (hbefore hold').2)
    · rcases hcases hk' with ⟨rfl, -⟩ | ⟨-, hold'⟩
      · exact (hbefore hold).1
      · exact h.chain hold hold' hlt

theorem ListOk.popFirst :
    ListOk inner.popFirst bound last cleared := by
  unfold TsoBatchList.popFirst
  split
  · exact h
  · exact h.erase _

end

/-- The batch that PD's answer stands for. -/
theorem TsoBatch.new_spec {batchSize lastTs : ℕ} (h : new batchSize lastTs = some batch) :
    batch.originalStart + batchSize = lastTs + 1 ∧ batch.excludedEnd = lastTs + 1 ∧
      batch.logicalStart ≤ batch.logicalEnd ∧ batch.allocOffset = batch.logicalStart := by
  have hlast : compose (TimeStamp.physical lastTs) (logical lastTs) = lastTs :=
    Nat.div_add_mod' lastTs _
  unfold new at h
  dsimp only at h
  split at h <;> cases h
  unfold compose at hlast
  refine ⟨?_, ?_, Nat.sub_le _ _, rfl⟩
  · rw [originalStart, compose]
    dsimp only
    omega
  · rw [excludedEnd, compose]
    dsimp only
    omega

end List

/-! ### Steps of callers -/

section Callers

variable {s s' : State} {last cleared id : ℕ} {readers returned : List ℕ}

/-- The call goes on without the read lock, and takes no timestamp. -/
theorem CallerOk.goto {inner : TsoBatchList} {c : Caller}
    (h : CallerOk inner readers returned last cleared id c) {pc : CallerPc}
    (hpc : ∀ retries tried, pc ≠ .pop retries tried)
    (hholds : ∀ ts, Caller.holds { c with pc := pc } = some ts → c.holds = some ts) :
    CallerOk inner readers returned last cleared id { c with pc := pc } where
  returnedBefore := h.returnedBefore
  flushedBefore := h.flushedBefore
  asked := h.asked
  reader heq := absurd heq (hpc _ _)
  tried heq := absurd heq (hpc _ _)
  holds heq := h.holds (hholds _ heq)

variable (h : InvAt s last cleared)
include h

/-- A timestamp that the caller has already taken is not taken by another one. -/
theorem InvAt.not_held {c : Caller}
    (hholds : ∀ ts, c.holds = some ts → (s.callers id).holds = some ts) (ts : ℕ)
    (hts : c.holds = some ts) (i : ℕ) (hne : i ≠ id) : (s.callers i).holds ≠ some ts :=
  fun hi => hne (h.distinct hi (hholds ts hts))

/-- A step of one caller. -/
theorem InvAt.setCaller {c : Caller} {readers : List ℕ}
    (hreaders : ∀ i ≠ id, i ∈ s.readers → i ∈ readers)
    (hc : CallerOk s.inner readers (s.returned.map (·.ts)) last cleared id c)
    (hholds : ∀ ts, c.holds = some ts → ∀ i, i ≠ id → (s.callers i).holds ≠ some ts) :
    InvAt { s.setCaller id c with readers := readers } last cleared := by
  refine { h with callers := fun i => ?_, distinct := fun {i i' ts} hts hts' => ?_ }
  · change CallerOk _ _ _ _ _ _ (update s.callers id c i)
    rcases eq_or_ne i id with rfl | hne
    · rw [update_self]
      exact hc
    · rw [update_of_ne hne]
      exact { h.callers i with reader := fun heq => hreaders i hne ((h.callers i).reader heq) }
  · change (update s.callers id c i).holds = _ at hts
    change (update s.callers id c i').holds = _ at hts'
    rcases eq_or_ne i id with rfl | hne
    · rw [update_self] at hts
      by_contra hne'
      rw [update_of_ne (Ne.symm hne')] at hts'
      exact hholds ts hts i' (Ne.symm hne') hts'
    · rw [update_of_ne hne] at hts
      rcases eq_or_ne i' id with rfl | hne'
      · rw [update_self] at hts'
        exact absurd hts (hholds ts hts' i hne)
      · rw [update_of_ne hne'] at hts'
        exact h.distinct hts hts'

theorem InvAt.returned_le (t : ℕ) (ht : t ∈ s.returned.map (·.ts)) : t ≤ last := by
  obtain ⟨r, hr, rfl⟩ := mem_map.mp ht
  exact (h.returned r hr).1

theorem start_inv {flush : Bool} (hstep : s.start id flush = some s') : InvAt s' last cleared := by
  unfold start at hstep
  split at hstep <;> cases hstep
  cases flush <;> exact h.setCaller (fun _ _ hi => hi)
    ⟨h.returned_le, h.flushed, nofun, nofun, nofun, nofun⟩ nofun

theorem send_inv {request : RenewRequest} (hstep : s.send request = some s') :
    InvAt s' last cleared := by
  unfold send at hstep
  split at hstep <;> cases hstep
  exact { h with }

theorem goto_inv (pc : CallerPc) (hpc : ∀ retries tried, pc ≠ .pop retries tried)
    (hholds : ∀ ts, Caller.holds { s.callers id with pc := pc } = some ts →
      (s.callers id).holds = some ts) : InvAt (s.goto id pc) last cleared :=
  h.setCaller (fun _ _ hi => hi) ((h.callers id).goto hpc hholds) (h.not_held hholds)

theorem sendRequest_inv (hstep : s.sendRequest id = some s') : InvAt s' last cleared := by
  unfold sendRequest at hstep
  split at hstep
  · exact send_inv (goto_inv h .flushWait nofun nofun) hstep
  · next retries _ => exact send_inv (goto_inv h (.wait retries) nofun nofun) hstep
  · cases hstep

theorem readLock_inv (hstep : s.readLock id = some s') : InvAt s' last cleared := by
  unfold readLock at hstep
  split at hstep <;> cases hstep
  have hc := h.callers id
  exact h.setCaller (fun _ _ hi => mem_cons_of_mem _ hi) ⟨hc.returnedBefore,
    hc.flushedBefore, hc.asked, fun _ => mem_cons_self, nofun, nofun⟩ nofun

/-- A call returns a timestamp above all that was returned or flushed before it started. -/
theorem finish_inv (hstep : s.finish id = some s') : InvAt s' last cleared := by
  have hflushed : ∀ t ∈ (s.callers id).asked.toList ++ s.flushed, t ≤ cleared := by
    exact forall_mem_append.mpr
      ⟨fun t ht => (h.callers id).asked t (mem_toList.mp ht), h.flushed⟩
  have hidle : InvAt (s.goto id .idle) last cleared := goto_inv h .idle nofun nofun
  unfold finish at hstep
  dsimp only at hstep
  split at hstep
  · next ts hpc =>
    cases hstep
    have hts : (s.callers id).holds = some ts := by rw [Caller.holds, hpc]
    obtain ⟨hle, hnew, hreturned, hflush⟩ := (h.callers id).holds hts
    refine { hidle with
      callers := fun i => { hidle.callers i with holds := fun {ts'} hts' => ?_ }
      nodup := nodup_cons.mpr ⟨hnew, h.nodup⟩
      returned := forall_mem_cons.mpr ⟨⟨hle, hreturned, hflush⟩, h.returned⟩
      flushed := hflushed }
    obtain ⟨hle', hnew', hbefore⟩ := (hidle.callers i).holds hts'
    refine ⟨hle', fun hmem => ?_, hbefore⟩
    rcases mem_cons.mp hmem with rfl | hmem
    · -- Only the caller itself has the timestamp, and it is idle now.
      rcases eq_or_ne i id with rfl | hne
      · change (update s.callers i _ i).holds = _ at hts'
        rw [update_self] at hts'
        exact nomatch hts'
      · change (update s.callers id _ i).holds = _ at hts'
        rw [update_of_ne hne] at hts'
        exact hne (h.distinct hts' hts)
    · exact hnew' hmem
  · cases hstep
    exact { hidle with flushed := hflushed }
  · cases hstep

theorem removeBatch_inv (hstep : s.removeBatch id = some s') : InvAt s' last cleared := by
  unfold removeBatch at hstep
  split at hstep
  · next ts key hpc =>
    split_ifs at hstep
    cases hstep
    have hok : InvAt (s.goto id (.ok ts)) last cleared := by
      refine goto_inv h (.ok ts) nofun fun ts' hts' => ?_
      rw [Caller.holds, hpc]
      exact hts'
    refine { hok with
      list := hok.list.erase key
      callers := fun i => { hok.callers i with tried := fun {_ _} heq {_ _} hk hle => ?_ } }
    exact (hok.callers i).tried heq (lookup_of_erase hk) hle
  · cases hstep

variable {batch : TsoBatch}

omit h in
/-- What a caller knows stays true when another one tries a batch. -/
theorem CallerOk.insert_popped {inner : TsoBatchList} {c : Caller} {last' key : ℕ}
    (h : CallerOk inner readers returned last cleared id c) (hkey : inner.lookup key = some batch)
    (hlast : last ≤ last') :
    CallerOk (inner.insert key batch.popped) readers returned last' cleared id c where
  returnedBefore t ht := (h.returnedBefore t ht).trans hlast
  flushedBefore := h.flushedBefore
  asked := h.asked
  reader := h.reader
  tried {_ _} heq {k b} hk hle := by
    rcases of_lookup_insert hk with ⟨rfl, rfl⟩ | ⟨-, hk⟩
    · exact Nat.le_succ_of_le (h.tried heq hkey hle)
    · exact h.tried heq hk hle
  holds heq := ⟨(h.holds heq).1.trans hlast, (h.holds heq).2⟩

theorem InvAt.insert_popped {last' key : ℕ} (hkey : s.inner.lookup key = some batch)
    (hlast : last ≤ last') (hlast' : last' ≤ s.renew.bound s.issued)
    (hother : ∀ {k b}, s.inner.lookup k = some b → k ≠ key → b.allocOffset < b.logicalEnd →
      last' < compose b.physical b.allocOffset)
    (hpopped : batch.allocOffset + 1 < batch.logicalEnd →
      last' < compose batch.physical (batch.allocOffset + 1)) :
    InvAt { s with inner := s.inner.insert key batch.popped } last' cleared :=
  { h with
    list := h.list.insert_popped hkey hother hpopped
    last_le := hlast'
    callers := fun i => (h.callers i).insert_popped hkey hlast
    returned := fun r hr => ⟨(h.returned r hr).1.trans hlast, (h.returned r hr).2⟩ }

/-- A caller gives the read lock back. -/
theorem unlock_inv {c : Caller}
    (hc : CallerOk s.inner s.readers (s.returned.map (·.ts)) last cleared id c)
    (hpc : ∀ retries tried, c.pc ≠ .pop retries tried)
    (hholds : ∀ ts, c.holds = some ts → ∀ i, i ≠ id → (s.callers i).holds ≠ some ts) :
    InvAt ((s.unlock id).setCaller id c) last cleared := by
  refine h.setCaller (fun i hne hi => ?_) { hc with reader := fun heq => absurd heq (hpc _ _) }
    hholds
  exact mem_filter.mpr ⟨hi, decide_eq_true hne⟩

/-- A timestamp is taken from the first batch that is not used up. It is larger than all that were
taken before. -/
theorem InvAt.take {key : ℕ} (hkey : s.inner.lookup key = some batch)
    (hused : ∀ {k b}, s.inner.lookup k = some b → k < key → b.logicalEnd ≤ b.allocOffset)
    (hlt : batch.allocOffset < batch.logicalEnd) :
    last < compose batch.physical batch.allocOffset ∧
      cleared < compose batch.physical batch.allocOffset ∧
      InvAt { s with inner := s.inner.insert key batch.popped }
        (compose batch.physical batch.allocOffset) cleared := by
  have hbatch := h.list.batch hkey
  have hlast := hbatch.last_lt hlt
  have hend : compose batch.physical batch.allocOffset < batch.excludedEnd :=
    compose_lt_compose.mpr hlt
  have hcleared : cleared < compose batch.physical batch.allocOffset :=
    calc cleared < key := hbatch.cleared_lt
      _ = batch.originalStart := hbatch.key_eq
      _ ≤ _ := compose_le_compose.mpr hbatch.start_le
  refine ⟨hlast, hcleared, h.insert_popped hkey hlast.le
    (Nat.lt_succ_iff.mp (hend.trans_le hbatch.end_le)) (fun {k b} hk hne hlt' => ?_) fun _ =>
      compose_lt_compose.mpr (Nat.lt_succ_self _)⟩
  have hkey_lt : key < k := by
    by_contra hle
    exact absurd (hused hk (lt_of_le_of_ne (not_lt.mp hle) hne)) (not_le.mpr hlt')
  calc compose batch.physical batch.allocOffset < batch.excludedEnd := hend
    _ ≤ k := h.list.chain hkey hk hkey_lt
    _ = b.originalStart := (h.list.batch hk).key_eq
    _ ≤ compose b.physical b.allocOffset := compose_le_compose.mpr (h.list.batch hk).start_le

omit h in
theorem TsoBatch.pop_eq_some {b : TsoBatch} {ts : ℕ} {isUsedUp : Bool}
    (h : b.pop = some (ts, isUsedUp)) :
    b.allocOffset < b.logicalEnd ∧ ts = compose b.physical b.allocOffset := by
  unfold pop at h
  split at h
  · next hlt => exact ⟨hlt, (Prod.mk.inj (some.inj h)).1.symm⟩
  · cases h

/-- A caller takes a timestamp of a batch, goes to the next batch, or asks for a new one. -/
theorem tryBatch_inv (hstep : s.tryBatch id = some s') : s'.Inv := by
  have hc := h.callers id
  unfold tryBatch at hstep
  split at hstep
  · next retries tried hpc =>
    split at hstep
    · cases hstep
      refine ⟨last, cleared, ?_⟩
      split <;> exact unlock_inv h (hc.goto nofun nofun) nofun nofun
    · next key batch hnext =>
      obtain ⟨hkey, hbefore⟩ := TsoBatchList.next_spec hnext
      -- The batches before this one are used up.
      have hused : ∀ {k b}, s.inner.lookup k = some b → k < key → b.logicalEnd ≤ b.allocOffset := by
        intro k b hk hlt
        obtain ⟨t, rfl, hle⟩ := hbefore hk hlt
        exact hc.tried hpc hk hle
      split at hstep
      · next hpop =>
        cases hstep
        have hend : batch.logicalEnd ≤ batch.allocOffset := by
          by_contra hlt
          rw [pop, if_pos (not_le.mp hlt)] at hpop
          cases hpop
        have h' := h.insert_popped hkey le_rfl h.last_le (fun hk _ => (h.list.batch hk).last_lt)
          fun hlt => absurd hlt (by omega)
        have hc' := h'.callers id
        refine ⟨last, cleared, h'.setCaller (fun _ _ hi => hi) ⟨hc'.returnedBefore,
          hc'.flushedBefore, hc'.asked, fun _ => hc.reader hpc, ?_, nofun⟩ nofun⟩
        rintro _ _ ⟨⟩ k b hk hle
        rcases of_lookup_insert hk with ⟨rfl, rfl⟩ | ⟨hne, hk⟩
        · exact Nat.le_succ_of_le hend
        · exact hused hk (lt_of_le_of_ne hle hne)
      · next ts isUsedUp hpop =>
        cases hstep
        obtain ⟨hlt, rfl⟩ := pop_eq_some hpop
        obtain ⟨hlast, hcleared, h'⟩ := h.take hkey hused hlt
        have hc' := h'.callers id
        have hnew : compose batch.physical batch.allocOffset ∉ s.returned.map (·.ts) :=
          fun hmem => absurd (h.returned_le _ hmem) (not_le.mpr hlast)
        have hholds : ∀ {ts}, some (compose batch.physical batch.allocOffset) = some ts →
            ts ≤ compose batch.physical batch.allocOffset ∧ ts ∉ s.returned.map (·.ts) ∧
              (∀ t ∈ (s.callers id).returnedBefore, t < ts) ∧
              ∀ t ∈ (s.callers id).flushedBefore, t < ts := by
          rintro _ ⟨⟩
          exact ⟨le_rfl, hnew, fun t ht => (hc.returnedBefore t ht).trans_lt hlast,
            fun t ht => (hc.flushedBefore t ht).trans_lt hcleared⟩
        have hfresh : ∀ ts, some (compose batch.physical batch.allocOffset) = some ts →
            ∀ i, i ≠ id → (s.callers i).holds ≠ some ts := by
          rintro _ ⟨⟩ i - hi
          exact absurd ((h.callers i).holds hi).1 (not_le.mpr hlast)
        refine ⟨compose batch.physical batch.allocOffset, cleared, ?_⟩
        split <;> exact unlock_inv h' ⟨hc'.returnedBefore, hc'.flushedBefore, hc'.asked, nofun,
          nofun, hholds⟩ nofun hfresh
  · cases hstep

end Callers

/-! ### Steps of the renew thread -/

section Renew

variable {s s' : State} {last cleared : ℕ} {param : RenewParameter} {issued : ℕ}

variable (h : InvAt s last cleared)
include h

/-- The renew thread goes on and leaves the list as it is. -/
theorem InvAt.setRenew {renew : RenewPc} {queue : List RenewRequest}
    (hbound : s.renew.bound s.issued ≤ renew.bound issued) (hissued : renew.bound issued ≤ issued)
    (hrenew : RenewOk issued cleared renew) :
    InvAt { s with renew := renew, issued := issued, queue := queue } last cleared :=
  { h with
    list := h.list.mono hbound rfl
    last_le := h.last_le.trans hbound
    cleared_le := h.cleared_le.trans hbound
    bound_le := hissued
    renew := hrenew }

theorem recv_inv (hstep : s.recv = some s') : InvAt s' last cleared := by
  unfold recv at hstep
  split at hstep
  · cases hstep
    exact h.setRenew h.bound_le le_rfl trivial
  · split at hstep
    · split_ifs at hstep <;> cases hstep <;> exact h.setRenew h.bound_le le_rfl trivial
    · cases hstep
      exact h.setRenew h.bound_le le_rfl trivial
  · cases hstep

theorem pdReply_inv {usage remain lastTs : ℕ}
    (hstep : s.pdReply param usage remain lastTs = some s') : InvAt s' last cleared := by
  unfold pdReply at hstep
  split at hstep
  · next requests hpc =>
    dsimp only at hstep
    split_ifs at hstep with hok
    cases hstep
    exact h.setRenew h.bound_le (Nat.le_of_add_right_le hok.1) ⟨hok.1, hok.2, le_rfl⟩
  · cases hstep

theorem pdError_inv (hstep : s.pdError issued = some s') : InvAt s' last cleared := by
  unfold pdError at hstep
  split at hstep
  · split_ifs at hstep with hle
    cases hstep
    exact h.setRenew (h.bound_le.trans hle) le_rfl hle
  · cases hstep

omit h in
theorem RenewOk.mono {issued issued' : ℕ} {renew : RenewPc} (h : RenewOk issued cleared renew)
    (hle : issued ≤ issued') : RenewOk issued' cleared renew := by
  cases renew with
  | push => exact ⟨h.1, h.2.1, h.2.2.trans hle⟩
  | insert => exact ⟨h.1, h.2.1.trans (Nat.add_le_add_right hle 1), h.2.2⟩
  | fail => exact le_trans h hle
  | _ => exact h

omit h in
theorem RenewPc.bound_mono {issued issued' : ℕ} (renew : RenewPc) (hle : issued ≤ issued') :
    renew.bound issued ≤ renew.bound issued' := by
  cases renew with
  | push | insert => exact le_rfl
  | _ => exact hle

omit h in
theorem RenewPc.bound_le {issued issued' : ℕ} {renew : RenewPc} (h : renew.bound issued ≤ issued)
    (hle : issued ≤ issued') : renew.bound issued' ≤ issued' := by
  cases renew with
  | push | insert => exact le_trans h hle
  | _ => exact le_rfl

theorem pdIssue_inv (hstep : s.pdIssue issued = some s') : InvAt s' last cleared := by
  unfold pdIssue at hstep
  split_ifs at hstep with hle
  cases hstep
  exact h.setRenew (s.renew.bound_mono hle) (RenewPc.bound_le h.bound_le hle) (h.renew.mono hle)

omit h in
/-- While no caller has the read lock, the list can be changed. -/
theorem CallerOk.setInner {inner inner' : TsoBatchList} {returned : List ℕ} {c : Caller}
    {id cleared' : ℕ} (h : CallerOk inner [] returned last cleared id c)
    (hcleared : cleared ≤ cleared') : CallerOk inner' [] returned last cleared' id c where
  returnedBefore := h.returnedBefore
  flushedBefore t ht := (h.flushedBefore t ht).trans hcleared
  asked t ht := (h.asked t ht).trans hcleared
  reader := h.reader
  tried heq := absurd (h.reader heq) not_mem_nil
  holds := h.holds

/-- The renew thread changes the list under the write lock. -/
theorem InvAt.setInner (hreaders : s.readers.isEmpty = true) {inner : TsoBatchList}
    {renew : RenewPc} {cleared' : ℕ} (hcleared : cleared ≤ cleared') (hle : cleared' ≤ s.issued)
    (hbound : renew.bound s.issued = s.issued) (hlist : ListOk inner s.issued last cleared')
    (hrenew : RenewOk s.issued cleared' renew) :
    InvAt { s with inner := inner, renew := renew } last cleared' := by
  have hnil : s.readers = [] := isEmpty_iff.mp hreaders
  have hcallers := h.callers
  rw [hnil] at hcallers
  exact { h with
    list := hlist.mono hbound.ge rfl
    last_le := (h.last_le.trans h.bound_le).trans hbound.ge
    cleared_le := hle.trans hbound.ge
    bound_le := hbound.le
    callers := fun i => by
      rw [hnil]
      exact (hcallers i).setInner hcleared
    flushed := fun t ht => (h.flushed t ht).trans hcleared
    renew := hrenew }

omit h in
theorem needFlush_of_mem {requests : List RenewRequest} {r : RenewRequest} (hr : r ∈ requests)
    (hneed : r.needFlush = true) : anyFlush requests = true :=
  any_eq_true.mpr ⟨r, hr, hneed⟩

/-- A new batch is behind the others, and a flush leaves only the new one. -/
theorem process_inv (hstep : s.process param = some s') : s'.Inv := by
  unfold process at hstep
  split at hstep
  · next requests asked batchSize lastTs hpc =>
    have hrenew := h.renew
    have hbound := h.bound_le
    rw [hpc] at hrenew hbound
    obtain ⟨hasked, -, hissued⟩ := hrenew
    split at hstep
    · cases hstep
    · next newBatch hnew =>
      cases hstep
      obtain ⟨hstart, hend, hle, halloc⟩ := new_spec hnew
      refine ⟨last, cleared, ?_⟩
      split
      · refine h.setRenew ?_ le_rfl hbound
        rw [hpc]
        exact hbound
      · refine h.setRenew ?_ hbound ⟨by omega, by omega, hle, halloc⟩
        rw [hpc]
        exact le_rfl
  · next requests asked newBatch hpc =>
    have hrenew := h.renew
    have hlist := h.list
    have hlast := h.last_le
    have hcleared := h.cleared_le
    have hbound := h.bound_le
    rw [hpc] at hrenew hlist hlast hcleared hbound
    obtain ⟨hstart, hend, hle, halloc⟩ := hrenew
    split_ifs at hstep with hreaders
    cases hstep
    refine ⟨last, _, h.setInner hreaders ?_ ?_ rfl
      (hlist.push hlast hcleared hbound hstart hend hle halloc) fun r hr hneed => ?_⟩
    · split
      · exact hcleared
      · exact le_rfl
    · split
      · exact hbound
      · exact hcleared.trans hbound
    · rw [needFlush_of_mem hr hneed]
      exact le_rfl
  · next requests asked hpc =>
    cases hstep
    have hrenew := h.renew
    rw [hpc] at hrenew
    refine ⟨last, cleared, ?_⟩
    split <;> exact h.setRenew h.bound_le le_rfl hrenew
  · next requests asked hpc =>
    have hrenew := h.renew
    rw [hpc] at hrenew
    split_ifs at hstep with hreaders
    cases hstep
    exact ⟨last, cleared, h.setInner hreaders le_rfl (h.cleared_le.trans h.bound_le) rfl
      (h.list.mono h.bound_le rfl).popFirst hrenew⟩
  · next requests asked hpc =>
    have hasked := h.renew
    rw [hpc] at hasked
    split_ifs at hstep with hflush hreaders <;> cases hstep
    · exact ⟨last, max cleared asked, h.setInner hreaders (le_max_left _ _)
        (max_le (h.cleared_le.trans h.bound_le) hasked) rfl (.empty _ _ _)
        fun _ _ _ => le_max_right _ _⟩
    · exact ⟨last, cleared, h.setRenew h.bound_le le_rfl
        fun r hr hneed => absurd (needFlush_of_mem hr hneed) hflush⟩
  · cases hstep

omit h in
/-- The answer to a flush says that everything issued before it was asked for is cleared. -/
theorem CallerOk.answer {inner : TsoBatchList} {readers returned : List ℕ} {c : Caller} {id : ℕ}
    (h : CallerOk inner readers returned last cleared id c) {request : RenewRequest} {asked : ℕ}
    (hasked : request.needFlush = true → asked ≤ cleared) (ok : Bool) :
    CallerOk inner readers returned last cleared id (State.answer c request asked ok) ∧
      ∀ ts, (State.answer c request asked ok).holds = some ts → c.holds = some ts := by
  unfold State.answer
  split
  · have hasked' : ∀ t ∈ (if request.needFlush then some asked else none), t ≤ cleared := by
      intro t ht
      split at ht
      · next hneed =>
        cases ht
        exact hasked hneed
      · cases ht
    cases ok <;>
      exact ⟨⟨h.returnedBefore, h.flushedBefore, hasked', nofun, nofun, nofun⟩, nofun⟩
  · cases ok <;> exact ⟨h.goto nofun nofun, nofun⟩
  · exact ⟨h, fun _ hts => hts⟩

/-- Those who asked are answered one by one. -/
theorem respond_inv (hstep : s.respond = some s') : InvAt s' last cleared := by
  unfold respond at hstep
  split at hstep
  · cases hstep
    exact h.setRenew h.bound_le le_rfl trivial
  · next request requests asked ok hpc =>
    have hrenew := h.renew
    rw [hpc] at hrenew
    have h' : InvAt { s with renew := .respond requests asked ok } last cleared :=
      h.setRenew h.bound_le le_rfl fun r hr => hrenew r (mem_cons_of_mem _ hr)
    split at hstep
    · cases hstep
      exact h'
    · next id hsender =>
      cases hstep
      obtain ⟨hc, hholds⟩ := (h'.callers id).answer (hrenew request mem_cons_self) ok
      exact h'.setCaller (fun _ _ hi => hi) hc (h'.not_held hholds)
  · cases hstep

end Renew

theorem init_inv (issued : ℕ) : InvAt (init issued) 0 0 where
  list := .empty _ _ _
  last_le := Nat.zero_le _
  cleared_le := Nat.zero_le _
  bound_le := le_rfl
  callers _ := ⟨nofun, nofun, nofun, nofun, nofun, nofun⟩
  distinct := nofun
  nodup := nodup_nil
  returned := nofun
  flushed := nofun
  renew := trivial

/-- **Every step keeps the invariant.** -/
theorem step_inv {param : RenewParameter} {s s' : State} {e : Event} (h : s.Inv)
    (hstep : s.step param e = some s') : s'.Inv := by
  obtain ⟨last, cleared, h⟩ := h
  cases e with
  | start id flush => exact ⟨last, cleared, start_inv h hstep⟩
  | sendRequest id => exact ⟨last, cleared, sendRequest_inv h hstep⟩
  | background needFlush => exact ⟨last, cleared, send_inv h hstep⟩
  | readLock id => exact ⟨last, cleared, readLock_inv h hstep⟩
  | tryBatch id => exact tryBatch_inv h hstep
  | removeBatch id => exact ⟨last, cleared, removeBatch_inv h hstep⟩
  | finish id => exact ⟨last, cleared, finish_inv h hstep⟩
  | recv => exact ⟨last, cleared, recv_inv h hstep⟩
  | pdReply usage remain lastTs => exact ⟨last, cleared, pdReply_inv h hstep⟩
  | pdError issued => exact ⟨last, cleared, pdError_inv h hstep⟩
  | pdIssue issued => exact ⟨last, cleared, pdIssue_inv h hstep⟩
  | process => exact process_inv h hstep
  | respond => exact ⟨last, cleared, respond_inv h hstep⟩

/-- In every interleaving, no timestamp is returned twice; a call returns a larger one than every
call that had returned when it started; and it is larger than every timestamp PD had issued when
the renew request of a flush came to it that had returned when the call started. -/
theorem timestamps_causal {param : RenewParameter} {issued : ℕ} {events : List Event} {s : State}
    (hrun : Exec (fun s e s' => s.step param e = some s') (init issued) events s) :
    (s.returned.map (·.ts)).Nodup ∧ ∀ r ∈ s.returned,
      (∀ t ∈ r.returnedBefore, t < r.ts) ∧ ∀ t ∈ r.flushedBefore, t < r.ts := by
  obtain ⟨last, cleared, h⟩ : s.Inv :=
    hrun.invariant (fun _ _ _ h hstep => step_inv h hstep) ⟨0, 0, init_inv issued⟩
  exact ⟨h.nodup, fun r hr => (h.returned r hr).2⟩

/-- PD has issued the timestamp 5 when a first batch of two is asked for. A caller takes one of
them; another one flushes, for which PD gives the timestamps 10 and 11. -/
def flushRun : List Event :=
  [.background true, .recv, .recv, .pdReply 0 0 7, .process, .process, .process, .respond, .respond,
    .start 0 false, .readLock 0, .tryBatch 0, .finish 0,
    .start 1 true, .sendRequest 1, .recv, .recv, .pdIssue 9, .pdReply 0 0 11, .process, .process,
    .process, .respond, .respond, .readLock 1, .tryBatch 1, .finish 1,
    .start 0 false, .readLock 0, .tryBatch 0, .removeBatch 0, .finish 0]

def flushParameter : RenewParameter := ⟨2, 2, 4⟩

/-- The last call returns a timestamp behind those that were returned before, and behind those that
PD had issued before the flush. -/
theorem timestamps_causal_flushed : ∃ s r, flushRun.foldlM (step flushParameter)
      (init 5) = some s ∧ r ∈ s.returned ∧ r.ts = 11 ∧ r.returnedBefore = [10, 6] ∧
    r.flushedBefore = [9] ∧ (∀ t ∈ r.returnedBefore, t < r.ts) ∧
    ∀ t ∈ r.flushedBefore, t < r.ts := by
  obtain ⟨s, hs⟩ : ∃ s, flushRun.foldlM (step flushParameter) (init 5) = some s :=
    ⟨_, rfl⟩
  have hreturned : (flushRun.foldlM (step flushParameter) (init 5)).map
      (·.returned) = some [⟨11, [10, 6], [9]⟩, ⟨10, [6], []⟩, ⟨6, [], []⟩] := rfl
  rw [hs, map_some, some.injEq] at hreturned
  have hmem : (⟨11, [10, 6], [9]⟩ : Returned) ∈ s.returned := hreturned ▸ mem_cons_self
  have hcausal := (timestamps_causal (Exec.of_foldlM hs)).2 _ hmem
  exact ⟨s, _, hs, hmem, rfl, rfl, rfl, hcausal⟩

end Tikv.CausalTs
