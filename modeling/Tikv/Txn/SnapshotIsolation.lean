import Tikv.Txn.LastChange
import Tikv.Txn.PessimisticLock

/-!
# Snapshot isolation on a key

The commands leave a key in a state on which readers may rely (`RecordsKnown.readSound`), so a read
finds the newest Put at or below its timestamp. It finds the same one again after any commands that
commit above the timestamp, although rollbacks leave flags and fences on the commit records
(**`repeatable_read_of_run`**).

A commit record is never lost (**`commits_kept_of_run`**), and of two optimistic transactions the
one that commits later has started after the commit of the other (**`first_committer_wins`**).
-/

namespace Tikv

open KeyState SnapshotReader Versions Write

variable {K : Type} {m m' : Versions Write} {ts : ℕ} {e : ℕ × Write}

/-! ### What a read finds -/

theorem latestChange_eq_some_iff :
    latestChange m ts = some e ↔ IsNewestChange m (· ≤ ts) e := by
  rw [latestChange, latest_eq_some_iff]
  constructor
  · rintro ⟨hmem, ⟨hle, hc⟩, hmax⟩
    exact ⟨hmem, hc, hle, fun e' he' hc' hle' => hmax e' he' hle' hc'⟩
  · intro h
    exact ⟨h.mem, ⟨h.isOlder, h.isChange⟩, fun e' he' hle' hc' => h.newest e' he' hc' hle'⟩

/-- The newest Put or Delete at or below `ts`, without its flag and fence. -/
def latestCore (m : Versions Write) (ts : ℕ) : Option (ℕ × Write) :=
  (latestChange m ts).map (Prod.map id core)

theorem latestCore_of_transfer (h : ∀ e, IsNewestChange m (· ≤ ts) e →
      ∃ w, IsNewestChange m' (· ≤ ts) (e.1, w) ∧ w.core = e.2.core)
    (he : latestCore m ts = some e) : latestCore m' ts = some e := by
  obtain ⟨x, hx, rfl⟩ := Option.map_eq_some_iff.mp he
  obtain ⟨w, hw, hcore⟩ := h x (latestChange_eq_some_iff.mp hx)
  rw [latestCore, latestChange_eq_some_iff.mpr hw, Option.map_some, Prod.map, hcore]
  rfl

theorem SameCommits.latestCore_eq (h : SameCommits m m') : latestCore m' ts = latestCore m ts :=
  Option.ext fun _ => ⟨latestCore_of_transfer fun _ he => he.transfer h.symm,
    latestCore_of_transfer fun _ he => he.transfer h⟩

namespace RecordsKnown

variable (h : RecordsKnown m)
include h

/-- The contents are sound for every reader. -/
theorem readSound : ReadSound m where
  lastChange e he hc := by
    have hexact := h.lastChange_of_not_isChange he hc
    rcases hlc : e.2.lastChange with - | ⟨t, n⟩ | -
    · trivial
    · obtain ⟨-, w, hw⟩ := hexact.exist t n hlc
      refine ⟨hw.isOlder, fun x hx hlo hhi => ?_, .inl ⟨w, hw.mem, hw.isChange⟩⟩
      by_contra hxc
      exact (hw.newest x hx (by simpa using hxc) hhi).not_gt hlo
    · intro e' he' hlt hc' hbetween
      refine asLatest_delete (hexact.notExist hlc e' ⟨he', hc', hlt, fun x hx hxc hxlt => ?_⟩)
      by_contra hlo
      rw [hbetween x hx (not_le.mp hlo) hxlt] at hxc
      cases hxc
  fence e he f hf hf0 := by
    obtain ⟨hlt, hw⟩ := h.fence e he f hf hf0
    exact ⟨hlt, .inl hw⟩

/-- The fence of the newest Put or Delete is above the read. -/
theorem visibleVersion_core : (visibleVersion m ts).map (Prod.map core id) =
    (latestCore m ts).bind fun e => if e.2.writeType = .put then some e.swap else none := by
  rw [visibleVersion, latestCore]
  rcases hl : latestChange m ts with - | ⟨c, w⟩
  · rfl
  have hw := latestChange_eq_some_iff.mp hl
  have hfence : w.checkGcFenceAsLatestVersion ts = true := by
    by_contra hf
    obtain ⟨f, hwf, hf0, hfts⟩ := checkGcFence_eq_false_iff.mp (Bool.eq_false_iff.mpr hf)
    obtain ⟨hlt, w', hw', hc'⟩ := h.fence _ hw.mem f hwf hf0
    exact (hw.newest _ hw' hc' hfts).not_gt hlt
  by_cases ht : w.writeType = .put <;> simp [asLatest, ht, hfence, core]

end RecordsKnown

section

variable {key : K} {st st' : KeyState K} {op : Op K}

/-- What a read of the key at `ts` finds: a record, without its flag and fence, and its commit
timestamp. -/
def KeyState.readAt (key : K) (st : KeyState K) (ts : ℕ) : Res K (Option (Write × ℕ)) :=
  Option.map (Prod.map core id) <$> (st.reader key ts).getWriteWithCommitTs ts

theorem KeyState.readAt_eq (h : RecordsKnown st.write) (hpos : CommitTsPos st.write) :
    st.readAt key ts = .ok ((visibleVersion st.write ts).map (Prod.map core id)) := by
  have hu := unread_dropWhile st.write ts
  obtain ⟨-, -, -, hle⟩ := id hu
  have hread : (st.reader key ts).getWriteWithCommitTs ts = .ok (visibleVersion st.write ts) :=
    getWriteLoop_eq (h.readSound.soundAt ts) hpos hu hle
  rw [readAt, hread]
  rfl

/-! ### Changes of the commit records -/

/-- A change of the key adds a commit record, or it leaves the commit records as they are. -/
theorem Change.commits (h : Change key st op st') : SameCommits st.write st'.write ∨
    ∃ c w, st.IsNewCommit (c, w) ∧ st'.write = st.write.insert c w := by
  obtain ⟨lock', write', default', maxTs'⟩ := st'
  have hw : WriteChange st.write write' := h.writeChange
  cases hw with
  | same => exact .inl ⟨fun e he _ => ⟨e.2, he, rfl⟩, fun e he _ => ⟨e.2, he, rfl⟩⟩
  | @commit c w ht =>
    by_cases hold : ∃ w', (c, w') ∈ st.write.entries ∧ w'.core = w.core
    · obtain ⟨w', hw', hcore⟩ := hold
      exact .inl (.insert hw' hcore)
    · refine .inr ⟨c, w, ⟨ht, fun e he (hc : e.1 = c) hcore => ?_⟩, rfl⟩
      exact hold ⟨e.2, hc ▸ he, hcore⟩
  | rollback hw => exact .inl hw.sameCommits

/-- A read below the new commits sees what it saw before. -/
theorem Change.latestCore_eq (h : Change key st op st')
    (hafter : ∀ e ∈ st'.write.entries, st.IsNewCommit e → ts < e.1) :
    latestCore st'.write ts = latestCore st.write ts := by
  rcases h.commits with hsame | ⟨c, w, hnew, hw⟩
  · exact hsame.latestCore_eq
  have hlt : ts < c := hafter (c, w) (hw ▸ mem_insert.mpr (.inl rfl)) hnew
  have hiff : ∀ e : ℕ × Write, e.1 ≤ ts → (e ∈ st.write.entries ↔ e ∈ st'.write.entries) := by
    intro e hle
    have hne : e.1 ≠ c := by omega
    have hne' : e ≠ (c, w) := fun he => hne (congrArg Prod.fst he)
    simp [hw, mem_insert, hne, hne']
  refine Option.ext fun _ => ⟨latestCore_of_transfer fun e he => ?_,
    latestCore_of_transfer fun e he => ?_⟩
  · exact ⟨e.2, he.congr fun e _ => and_congr_left fun hle => (hiff e hle).symm, rfl⟩
  · exact ⟨e.2, he.congr fun e _ => and_congr_left (hiff e), rfl⟩

/-- The commit records of `st` are those of `st'` too, up to flags and fences. -/
def KeyState.KeepsCommits (st st' : KeyState K) : Prop :=
  ∀ e ∈ st.write.entries, e.2.writeType ≠ .rollback →
    ∃ w, (e.1, w) ∈ st'.write.entries ∧ w.core = e.2.core

theorem KeyState.KeepsCommits.trans {st'' : KeyState K} (h : st.KeepsCommits st')
    (h' : st'.KeepsCommits st'') : st.KeepsCommits st'' := by
  intro e he ht
  obtain ⟨w, hw, hcore⟩ := h e he ht
  obtain ⟨w', hw', hcore'⟩ := h' _ hw (by rwa [writeType_of_core hcore])
  exact ⟨w', hw', hcore'.trans hcore⟩

theorem Change.keepsCommits (h : Change key st op st') (habove : st.CommitsAbove st') :
    st.KeepsCommits st' := by
  rcases h.commits with hsame | ⟨c, w, hnew, hw⟩
  · exact hsame.mem
  · intro e he ht
    have hlt : e.1 < c := habove (c, w) (hw ▸ mem_insert.mpr (.inl rfl)) hnew e he ht
    exact ⟨e.2, hw ▸ mem_insert.mpr (.inr ⟨hlt.ne, he⟩), rfl⟩

/-- No command commits at zero. -/
theorem Change.commitTsPos (h : Change key st op st') (hop : op.startTs ≠ some 0)
    (hpos : CommitTsPos st.write) : CommitTsPos st'.write := by
  have hinsert : ∀ {c w}, 0 < c → CommitTsPos (st.write.insert c w) := by
    intro c w hc e he
    rcases mem_insert.mp he with rfl | ⟨-, he⟩
    · exact hc
    · exact hpos e he
  cases h with
  | onePc _ _ _ _ hs hc => exact hinsert (by omega)
  | commit _ hs => exact hinsert (by omega)
  | @rollback _ s _ _ _ _ _ _ hs _ hw =>
    have hs0 : 0 < s := Nat.pos_of_ne_zero fun h0 => hop (h0 ▸ hs)
    intro e he
    rcases hw.of_mem he with he | ⟨rfl, -⟩ | ⟨-, -, -, rfl, -⟩
    · exact hpos e he
    · exact hs0
    · exact hs0
  | _ => exact hpos

/-! ### Optimistic transactions -/

/-- Commands of optimistic transactions, which check for newer versions. -/
def Op.isOptimistic : Op K → Bool
  | .prewrite request => request.props.kind = .optimistic false
  | .acquirePessimisticLock _ => false
  | _ => true

/-- A transaction with a lock or a commit record has started after the commits before. -/
structure FirstWins (st : KeyState K) : Prop where
  recordsOk : RecordsOk st.write
  lock : ∀ l, st.lock = some l → CommitsUpTo st.write l.ts
  commit : ∀ e ∈ st.write.entries, e.2.writeType ≠ .rollback →
    ∀ e' ∈ st.write.entries, e'.2.writeType ≠ .rollback → e'.1 < e.1 → e'.1 ≤ e.2.startTs

theorem FirstWins.insert {c : ℕ} {w : Write} {default' : Versions Value} {m : ℕ}
    (h : FirstWins st) (hok : RecordsOk (st.write.insert c w))
    (hup : CommitsUpTo st.write w.startTs) (hc : w.startTs < c) :
    FirstWins (⟨none, st.write.insert c w, default', m⟩ : KeyState K) := by
  refine ⟨hok, nofun, fun e he ht e' he' ht' hlt => ?_⟩
  rcases mem_insert.mp he with rfl | ⟨-, he⟩ <;> rcases mem_insert.mp he' with rfl | ⟨-, he'⟩
  · exact absurd hlt (Nat.lt_irrefl _)
  · exact hup e' he' ht'
  · have hle := hup e he ht
    dsimp only at hlt
    omega
  · exact h.commit e he ht e' he' ht' hlt

/-- Commands of optimistic transactions keep the order. -/
theorem FirstWins.change (h : FirstWins st) (hc : Change key st op st') (hop : op.isOptimistic) :
    FirstWins st' := by
  have hok := hc.writeChange.recordsOk h.recordsOk
  -- A prewrite has seen that nothing was committed since its start.
  have hnewer : ∀ {r : Prewrite K}, op = .prewrite r →
      r.Prewritable (st.reader key r.props.startTs) → CommitsUpTo st.write r.props.startTs := by
    rintro r rfl hp e he -
    have hkind : r.props.kind = .optimistic false := of_decide_eq_true hop
    have hchecked := hp.newer (by rw [PrewriteMutation.skipConstraintCheck, hkind])
    rw [PrewriteMutation.NewerVersionChecked, hkind] at hchecked
    exact hchecked.1 e he
  cases hc with
  | keep => exact ⟨hok, h.lock, h.commit⟩
  | unlock => exact ⟨hok, by simp, h.commit⟩
  | prewrite _ hp hw =>
    refine ⟨hok, fun l hl => ?_, h.commit⟩
    cases hl
    rw [hw.ts]
    exact hnewer rfl hp
  | onePc _ hp _ _ hs hc hrec =>
    have hts := congrArg Write.startTs (Lock.commitRecord_eq_ok.mp hrec).2
    exact h.insert hok (hts ▸ hnewer rfl hp) (hts ▸ hs.trans_le hc)
  | acquire | relock => cases hop
  | commit hl hs _ hrec =>
    obtain ⟨-, hts, -, -⟩ := Lock.recordAt_spec hrec
    exact h.insert hok (hts ▸ h.lock _ hl) (hts ▸ hs)
  | rollback _ _ hlock hw =>
    refine ⟨hok, fun l hl => ?_, fun e he ht e' he' ht' hlt => ?_⟩
    · obtain ⟨l₀, hl₀, hts, -⟩ := hlock.eq_some hl
      rw [hts]
      exact (h.lock l₀ hl₀).rolledBackTo hw
    · obtain ⟨w, hw₁, hcore⟩ := hw.core_of_mem he ht
      obtain ⟨w', hw₂, hcore'⟩ := hw.core_of_mem he' ht'
      rw [← startTs_of_core hcore]
      exact h.commit (_, w) hw₁ (by rwa [writeType_of_core hcore]) (_, w') hw₂
        (by rwa [writeType_of_core hcore']) hlt
  | push _ hl =>
    refine ⟨hok, fun l hl' => ?_, h.commit⟩
    cases hl'
    have hup := h.lock _ hl
    exact hup

/-! ### Runs -/

variable [DecidableEq K] {ops ops' : List (Op K)}

/-- Commands of transactions that started after timestamp zero, when every commit is above `ts` and
above the commit records of the key. -/
def KeyState.StepAfter (ts : ℕ) (key : K) (st : KeyState K) (op : Op K) (st' : KeyState K) : Prop :=
  st.Step key op st' ∧ st.CommitsAbove st' ∧ op.startTs ≠ some 0 ∧
    ∀ e ∈ st'.write.entries, st.IsNewCommit e → ts < e.1

/-- **Reads are repeatable.** On a key in any state that commands lead to, a read at `ts` finds the
visible Put, and it finds the same one after any further commands that commit above `ts`. -/
theorem repeatable_read_of_run (hrun : Exec (StepAfter 0 key) {} ops st)
    (hmore : Exec (StepAfter ts key) st ops' st') :
    st.readAt key ts = .ok ((visibleVersion st.write ts).map (Prod.map core id)) ∧
      st'.readAt key ts = st.readAt key ts := by
  have hstep : ∀ {t : ℕ} {s op s'}, ChangesKnown s ∧ CommitTsPos s.write →
      StepAfter t key s op s' → ChangesKnown s' ∧ CommitTsPos s'.write := by
    intro t s op s' h hs
    have hchange := hs.1.change h.1.records.recordsOk
    exact ⟨h.1.change hchange hs.2.1, hchange.commitTsPos hs.2.2.1 h.2⟩
  have hknown := hrun.invariant (fun _ _ _ h hs => hstep h hs) ⟨.empty, nofun⟩
  have hsame := hmore.invariant
    (I := fun s => (ChangesKnown s ∧ CommitTsPos s.write) ∧
      latestCore s.write ts = latestCore st.write ts)
    (fun _ _ _ h hs => ⟨hstep h.1 hs,
      ((hs.1.change h.1.1.records.recordsOk).latestCore_eq hs.2.2.2).trans h.2⟩) ⟨hknown, rfl⟩
  have hread : st.readAt key ts = _ := readAt_eq hknown.1.records hknown.2
  refine ⟨hread, ?_⟩
  rw [hread, readAt_eq hsame.1.1.records hsame.1.2, hknown.1.records.visibleVersion_core,
    hsame.1.1.records.visibleVersion_core, hsame.2]

/-- **Commits are durable.** The commit records of a key are still there after any commands that
commit above them, with the same start timestamp, type and value. -/
theorem commits_kept_of_run (hrun : Exec (StepAbove key) {} ops st)
    (hmore : Exec (StepAbove key) st ops' st') : st.KeepsCommits st' := by
  have hok := hrun.invariant (I := fun s => RecordsOk s.write)
    (fun _ _ _ h hs => hs.1.recordsOk h) .empty
  refine (hmore.invariant (I := fun s => RecordsOk s.write ∧ st.KeepsCommits s) ?_
    ⟨hok, fun e he _ => ⟨e.2, he, rfl⟩⟩).2
  intro s op s' h hs
  exact ⟨hs.1.recordsOk h.1, h.2.trans ((hs.1.change h.1).keepsCommits hs.2)⟩

/-- **The first committer wins.** If all transactions are optimistic and check for newer versions,
then of two commit records of a key the later one is of a transaction that started after the
earlier one was committed. -/
theorem first_committer_wins (hrun : Exec (fun st op st' => st.Step key op st' ∧ op.isOptimistic)
    {} ops st) : FirstWins st :=
  hrun.invariant (fun _ _ _ h hs => h.change (hs.1.change h.recordsOk) hs.2) ⟨.empty, nofun, nofun⟩

end

/-- A Put that starts at `s` and is committed at `c`. -/
private def putAt (s c : ℕ) : List (Op ℕ) :=
  [.prewrite { props := { startTs := s, kind := .optimistic false, primary := 0 }
               mutation := .put [1] .none }, .commit s c]

/-- The record at 3 gets the flag of a rollback, and another Put is committed at 12. -/
private def rollbackAndPut : List (Op ℕ) := .cleanup 3 0 :: putAt 10 12

theorem repeatable_read_rollbackAndPut :
    (run 0 (run 0 {} (putAt 1 3)) rollbackAndPut).readAt 0 5 =
      (run 0 {} (putAt 1 3)).readAt 0 5 := by
  have hrun : Exec (StepAfter 0 0) {} (putAt 1 3) (run 0 {} (putAt 1 3)) := .of_along (by decide)
  exact (repeatable_read_of_run hrun (.of_along (by decide))).2

theorem commits_kept_rollbackAndPut :
    (run 0 {} (putAt 1 3)).KeepsCommits (run 0 (run 0 {} (putAt 1 3)) rollbackAndPut) := by
  have hrun : Exec (StepAbove 0) {} (putAt 1 3) (run 0 {} (putAt 1 3)) := .of_along (by decide)
  exact commits_kept_of_run hrun (.of_along (by decide))

theorem first_committer_wins_putAt : FirstWins (run 0 {} (putAt 1 3 ++ putAt 4 6)) :=
  first_committer_wins (.of_along (by decide))

end Tikv
