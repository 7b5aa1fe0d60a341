import Tikv.Txn.Transition

/-!
# The last-change pointers of a key

A lock remembers where the last Put or Delete below it is, and its Lock record keeps that
pointer. It is computed when the lock is taken, from the newest record of the key, and it is
written when the transaction commits, maybe after other transactions were rolled back on the key.

**`ChangesKnown`** is the invariant: every pointer leads to the newest Put or Delete below its
record or lock, and every fence of an overlapped rollback names a Put or Delete above its record.
So no fence is met before the newest Put or Delete, and the search that computes a pointer
(`nextLastChangeInfo`) finds it (`getWriteLoop_newest`).

Every command keeps the invariant, as long as transactions commit above the commit records the
key has. A commit between two records would make the pointer of the upper one wrong.
-/

namespace Tikv

open List SnapshotReader Versions Write

variable {K : Type}

/-! ### Exact pointers -/

/-- The record is the newest Put or Delete among those at the `older` timestamps. -/
structure IsNewestChange (m : Versions Write) (older : ℕ → Prop) (e : ℕ × Write) : Prop where
  mem : e ∈ m.entries
  isChange : e.2.isChange = true
  isOlder : older e.1
  newest : ∀ e' ∈ m.entries, e'.2.isChange = true → older e'.1 → e'.1 ≤ e.1

/-- The pointer is right about the Put and Delete records at the `older` timestamps. -/
structure LastChangeExact (m : Versions Write) (older : ℕ → Prop) (lc : LastChange) : Prop where
  exist : ∀ t n, lc = .exist t n → 1 ≤ n ∧ ∃ w, IsNewestChange m older (t, w)
  notExist : lc = .notExist → ∀ e, IsNewestChange m older e → e.2.writeType = .delete

section

variable {m m' : Versions Write} {older older' : ℕ → Prop} {e : ℕ × Write} {lc : LastChange}
  {c : ℕ} {w : Write}

theorem LastChangeExact.unknown : LastChangeExact m older .unknown := ⟨nofun, nofun⟩

theorem IsNewestChange.congr (h : ∀ e, e.2.isChange = true →
    (e ∈ m.entries ∧ older e.1 ↔ e ∈ m'.entries ∧ older' e.1)) (he : IsNewestChange m older e) :
    IsNewestChange m' older' e := by
  obtain ⟨hmem, holder⟩ := (h e he.isChange).mp ⟨he.mem, he.isOlder⟩
  refine ⟨hmem, he.isChange, holder, fun e' he' hc ho => ?_⟩
  obtain ⟨he', ho⟩ := (h e' hc).mpr ⟨he', ho⟩
  exact he.newest e' he' hc ho

theorem LastChangeExact.congr (h : ∀ e, e.2.isChange = true →
    (e ∈ m.entries ∧ older e.1 ↔ e ∈ m'.entries ∧ older' e.1)) (hlc : LastChangeExact m older lc) :
    LastChangeExact m' older' lc where
  exist t n ht := by
    obtain ⟨hn, w, hw⟩ := hlc.exist t n ht
    exact ⟨hn, w, hw.congr h⟩
  notExist hne e he := hlc.notExist hne e (he.congr fun e hc => (h e hc).symm)

/-- Flags and fences do not matter. -/
theorem IsNewestChange.transfer (h : SameCommits m m') (he : IsNewestChange m older e) :
    ∃ w, IsNewestChange m' older (e.1, w) ∧ w.core = e.2.core := by
  have hne : ∀ e : ℕ × Write, e.2.isChange = true → e.2.writeType ≠ .rollback := by
    intro e hc ht
    rw [Write.isChange, ht] at hc
    cases hc
  obtain ⟨w, hw, hcore⟩ := h.mem e he.mem (hne e he.isChange)
  have hchange : w.isChange = true := by rw [Write.isChange_of_core hcore, he.isChange]
  refine ⟨w, ⟨hw, hchange, he.isOlder, fun e' he' hc ho => ?_⟩, hcore⟩
  obtain ⟨w', hw', hcore'⟩ := h.of_mem e' he' (hne e' hc)
  exact he.newest (e'.1, w') hw' (by rw [Write.isChange_of_core hcore', hc]) ho

theorem LastChangeExact.transfer (h : SameCommits m m') (hlc : LastChangeExact m older lc) :
    LastChangeExact m' older lc where
  exist t n ht := by
    obtain ⟨hn, w, hw⟩ := hlc.exist t n ht
    obtain ⟨w', hw', -⟩ := hw.transfer h
    exact ⟨hn, w', hw'⟩
  notExist hne e he := by
    obtain ⟨w, hw, hcore⟩ := he.transfer h.symm
    rw [← writeType_of_core hcore]
    exact hlc.notExist hne _ hw

end

/-! ### The invariant -/

/-- The pointers and fences of the records are right. -/
structure RecordsKnown (m : Versions Write) : Prop where
  recordsOk : RecordsOk m
  lastChange : ∀ e ∈ m.entries, e.2.writeType = .lock →
    LastChangeExact m (· < e.1) e.2.lastChange
  fence : ∀ e ∈ m.entries, ∀ f, e.2.gcFence = some f → f ≠ 0 →
    e.1 < f ∧ ∃ w, (f, w) ∈ m.entries ∧ w.isChange = true

/-- Every pointer on the key is right; everything on the key is older than its lock. -/
structure ChangesKnown (st : KeyState K) : Prop where
  records : RecordsKnown st.write
  lock : ∀ l, st.lock = some l → LastChangeExact st.write (fun _ => True) l.lastChange

namespace RecordsKnown

variable {m : Versions Write} {c ts : ℕ} {w : Write} {lim : Option ℕ} {passed l : List (ℕ × Write)}
  (h : RecordsKnown m)
include h

theorem lastChange_of_not_isChange (hw : (c, w) ∈ m.entries)
    (hc : w.isChange = false) : LastChangeExact m (· < c) w.lastChange := by
  rcases not_isChange_iff.mp hc with ht | ht
  · exact h.lastChange _ hw ht
  · rw [(h.recordsOk.rollback _ hw ht).2.2]
    exact .unknown

theorem not_fenced (hw : (c, w) ∈ m.entries)
    (habove : ∀ e ∈ m.entries, c < e.1 → e.2.isChange = false) :
    isFenced lim w = false := by
  rcases lim with - | T
  · rfl
  rw [isFenced_some, Bool.not_eq_false']
  by_contra hf
  obtain ⟨f, hwf, hf0, -⟩ := checkGcFence_eq_false_iff.mp (Bool.eq_false_iff.mpr hf)
  obtain ⟨hlt, w', hw', hch⟩ := h.fence _ hw f hwf hf0
  rw [habove _ hw' hlt] at hch
  cases hch

/-- What `get_write_with_commit_ts` says about a key, when nothing hides its newest change. -/
def FindsNewest (m : Versions Write) : Option (Write × ℕ) → Prop
  | some (w, c) => w.writeType = .put ∧ IsNewestChange m (fun _ => True) (c, w)
  | none => ∀ e, IsNewestChange m (fun _ => True) e → e.2.writeType = .delete

/-- The search settles at a record with no Put or Delete above it. -/
theorem answerChange_newest (hw : IsNewestChange m (fun _ => True) (c, w)) :
    FindsNewest m (answerChange lim c w) := by
  rw [answerChange, h.not_fenced hw.mem]
  · rw [if_neg Bool.false_ne_true]
    split
    · rename_i ht
      exact ⟨ht, hw⟩
    · rename_i ht
      intro e he
      have heq : e.1 = c := Nat.le_antisymm (hw.newest e he.mem he.isChange trivial)
        (he.newest _ hw.mem hw.isChange trivial)
      subst heq
      cases mem_unique he.mem hw.mem
      exact (isChange_iff.mp hw.isChange).resolve_left ht
  · intro e he hlt
    by_contra hc
    have := hw.newest e he (by simpa using hc) trivial
    omega

/-- A record with no Put or Delete at or above it says what it knows of the whole key. -/
theorem lastChange_of_passed (hm : m.entries = passed ++ (c, w) :: l)
    (hpassed : ∀ e ∈ passed, e.2.isChange = false) (hc : w.isChange = false) :
    LastChangeExact m (fun _ => True) w.lastChange := by
  have hmem : (c, w) ∈ m.entries := by simp [hm]
  refine (h.lastChange_of_not_isChange hmem hc).congr fun e he => ?_
  refine and_congr_right fun hmem => iff_of_true ?_ trivial
  rcases mem_cases hm hmem with ⟨hmem, -⟩ | rfl | ⟨-, hlt⟩
  · exact nomatch (hpassed e hmem).symm.trans he
  · exact nomatch hc.symm.trans he
  · exact hlt

/-- The search from the newest record finds the newest Put or Delete, if it returns. -/
theorem getWriteLoop_newest {found : Option (Write × ℕ)}
    (hm : m.entries = passed ++ l) (hpassed : ∀ e ∈ passed, e.2.isChange = false)
    (hts : ∀ e ∈ l, e.1 ≤ ts)
    (hok : (getWriteLoop m lim ts l : Res K _) = .ok found) :
    FindsNewest m found := by
  -- Induction on the records left; the ones passed are Lock and Rollback records.
  induction l generalizing passed ts with
  | nil =>
    cases hok
    intro e he
    rw [append_nil] at hm
    have hc := he.isChange
    rw [hpassed e (hm ▸ he.mem)] at hc
    cases hc
  | cons x l ih =>
    obtain ⟨c, w⟩ := x
    have hmem : (c, w) ∈ m.entries := by simp [hm]
    have hdesc := m.desc
    rw [hm, pairwise_append, pairwise_cons] at hdesc
    have hsplit : ∀ e ∈ m.entries, e ∈ passed ∨ e.1 ≤ c := fun e he =>
      (mem_cases hm he).imp And.left fun h => h.elim (fun h => h ▸ le_rfl) (·.2.le)
    by_cases hw : w.isChange = true
    · rw [getWriteLoop_change hw] at hok
      cases hok
      refine h.answerChange_newest ⟨hmem, hw, trivial, fun e he hc _ => ?_⟩
      rcases hsplit e he with he | he
      · rw [hpassed e he] at hc
        cases hc
      · exact he
    have hw : w.isChange = false := by simpa using hw
    have hexact := h.lastChange_of_passed hm hpassed hw
    -- Going on below the record is the same search with one record fewer.
    have hbelow : (seekBelow (getWriteLoop m lim · l) ts c :
        Res K _) = .ok found → FindsNewest m found := by
      intro hres
      have hpassed' : ∀ e ∈ passed ++ [(c, w)], e.2.isChange = false :=
        forall_mem_append.mpr ⟨hpassed, forall_mem_singleton.mpr hw⟩
      have hlt : ∀ e ∈ l, e.1 < c := hdesc.2.1.1
      have hc := hts _ mem_cons_self
      rw [seekBelow] at hres
      split at hres
      · -- Nothing is below timestamp zero.
        cases hres
        intro e he
        have hch := he.isChange
        have hin := he.mem
        rw [hm, mem_append, mem_cons] at hin
        rcases hin with hin | rfl | hin
        · rw [hpassed e hin] at hch
          cases hch
        · rw [hw] at hch
          cases hch
        · have := hlt e hin
          omega
      · obtain ⟨ts', hts', hres⟩ := bind_eq_ok.mp hres
        obtain ⟨-, rfl⟩ := TimeStamp.prev_eq_ok.mp (liftPanic_eq_ok.mp hts')
        refine ih (by simp [hm]) hpassed' (fun e he => ?_) hres
        have := hlt e he
        omega
    rw [getWriteLoop_skip hw (h.not_fenced hmem ?_)] at hok
    · split at hok
      · rename_i hlc
        cases hok
        exact hexact.notExist hlc
      · rename_i t n hlc
        split at hok
        · obtain ⟨-, w', hw'⟩ := hexact.exist t n hlc
          rw [get_eq_some_iff.mpr hw'.mem] at hok
          dsimp only at hok
          rw [if_pos hw'.isChange] at hok
          cases hok
          exact h.answerChange_newest hw'
        · exact hbelow hok
      · exact hbelow hok
    · intro e he hlt
      rcases hsplit e he with he | he
      · exact hpassed e he
      · omega

omit h in
theorem lastChangeExact_makeExist {t n : ℕ} {lc : LastChange}
    (hw : IsNewestChange m (fun _ => True) (t, w))
    (h : (liftPanic (LastChange.makeExist t n) : Res K _) = .ok lc) :
    LastChangeExact m (fun _ => True) lc := by
  rw [LastChange.makeExist] at h
  split at h
  · cases h
  · rename_i hpos
    cases h
    refine ⟨fun t' n' heq => ?_, nofun⟩
    cases heq
    exact ⟨by omega, w, hw⟩

omit h in
/-- The pointer of a lock taken above the newest record is right. -/
theorem lastChangeExact_of_newest {reader : SnapshotReader K} {lc : LastChange}
    (h : RecordsKnown reader.write) (hlc : LastChangeOfNewest reader lc) :
    LastChangeExact reader.write (fun _ => True) lc := by
  rcases hlc with ⟨hnone, rfl⟩ | ⟨env, c, w, hnew, hok⟩
  · refine ⟨nofun, fun _ e he => ?_⟩
    have hmem := he.mem
    rw [newest_eq_none_iff.mp hnone] at hmem
    cases hmem
  obtain ⟨hmem, hmax⟩ := newest_eq_some_iff.mp hnew
  obtain ⟨l, hm⟩ : ∃ l, reader.write.entries = [] ++ (c, w) :: l := head?_eq_some_iff.mp hnew
  have hchange : w.isChange = true → IsNewestChange reader.write (fun _ => True) (c, w) :=
    fun hc => ⟨hmem, hc, trivial, fun e he _ _ => hmax e he⟩
  rw [nextLastChangeInfo] at hok
  split at hok
  · rename_i ht
    exact lastChangeExact_makeExist (hchange (isChange_iff.mpr (Or.inl ht))) hok
  · rename_i ht
    exact lastChangeExact_makeExist (hchange (isChange_iff.mpr (Or.inr ht))) hok
  -- A Lock or Rollback record hands its pointer on, or the change is searched for.
  all_goals
    rename_i ht
    have hexact := h.lastChange_of_passed hm nofun (not_isChange_iff.mpr (by simp [ht]))
    split at hok
    · rename_i t n hlc
      obtain ⟨-, w', hw'⟩ := hexact.exist t n hlc
      exact lastChangeExact_makeExist hw' hok
    · rename_i hlc
      cases hok
      rwa [hlc] at hexact
    · obtain ⟨found, hfound, hok⟩ := bind_eq_ok.mp hok
      have hdrop : reader.write.entries.dropWhile (fun e => c < e.1) = reader.write.entries := by
        rw [hm]
        simp
      rw [getWriteWithCommitTs, getWriteUpTo, hdrop] at hfound
      have hfinds := h.getWriteLoop_newest (nil_append _).symm nofun hmax hfound
      split at hok
      · cases hok
        exact ⟨nofun, fun _ => hfinds⟩
      · split_ifs at hok
        exact lastChangeExact_makeExist hfinds.2 hok

/-! ### What the commands keep -/

/-- A rollback, or a commit record written once more, keeps what is known. -/
theorem transfer {m' : Versions Write} (hsame : SameCommits m m')
    (hok : RecordsOk m') (hfence : ∀ e ∈ m'.entries, ∀ f, e.2.gcFence = some f → f ≠ 0 →
      e.1 < f ∧ ∃ w, (f, w) ∈ m.entries ∧ w.isChange = true) : RecordsKnown m' where
  recordsOk := hok
  lastChange e he ht := by
    obtain ⟨w, hw, hcore⟩ := hsame.of_mem e he (by rw [ht]; decide)
    rw [← lastChange_of_core hcore]
    exact (h.lastChange _ hw (by rw [writeType_of_core hcore, ht])).transfer hsame
  fence e he f hf hf0 := by
    obtain ⟨hlt, w, hw, hc⟩ := hfence e he f hf hf0
    obtain ⟨w', hw', hcore⟩ := hsame.mem _ hw (by
      rcases isChange_iff.mp hc with ht | ht <;> rw [ht] <;> decide)
    exact ⟨hlt, w', hw', by rw [isChange_of_core hcore, hc]⟩

theorem rollback {s : ℕ} {isProt : Bool} {m' : Versions Write}
    (hw : RolledBackTo m s isProt m') : RecordsKnown m' := by
  refine h.transfer hw.sameCommits (hw.recordsOk h.recordsOk) fun e he f hf hf0 => ?_
  rcases hw.of_mem he with he | ⟨rfl, -⟩ | ⟨w, fence, -, rfl, -, hfence⟩
  · exact h.fence e he f hf hf0
  · cases hf
  · cases hf
    exact hfence hf0

/-- A commit above all commit records keeps what is known. -/
theorem commit (hok : RecordsOk (m.insert c w)) (hf : w.gcFence = none)
    (hlc : LastChangeExact m (fun _ => True) w.lastChange)
    (habove : (∀ e ∈ m.entries, e.1 = c → e.2.core ≠ w.core) →
      ∀ e ∈ m.entries, e.2.writeType ≠ .rollback → e.1 < c) :
    RecordsKnown (m.insert c w) := by
  by_cases hold : ∃ w', (c, w') ∈ m.entries ∧ w'.core = w.core
  · obtain ⟨w', hw', hcore⟩ := hold
    refine h.transfer (.insert hw' hcore) hok fun e he f hef hf0 => ?_
    rcases mem_insert.mp he with rfl | ⟨-, he⟩
    · rw [hf] at hef
      cases hef
    · exact h.fence e he f hef hf0
  have habove := habove fun e he hc hcore => hold ⟨e.2, hc ▸ he, hcore⟩
  have hchange : ∀ e ∈ m.entries, e.2.isChange = true → e.1 < c := by
    intro e he hc
    refine habove e he ?_
    rcases isChange_iff.mp hc with ht | ht <;> rw [ht] <;> decide
  refine ⟨hok, fun e he ht => ?_, fun e he f hef hf0 => ?_⟩
  · -- The new record has everything below it, an old one has the new one above it.
    rcases mem_insert.mp he with rfl | ⟨-, he⟩
    · refine hlc.congr fun e he => ⟨fun hmem => ?_, fun hmem => ?_⟩
      · have hlt := hchange e hmem.1 he
        exact ⟨mem_insert.mpr (Or.inr ⟨hlt.ne, hmem.1⟩), hlt⟩
      · rcases mem_insert.mp hmem.1 with rfl | ⟨-, hmem'⟩
        · exact absurd hmem.2 (Nat.lt_irrefl c)
        · exact ⟨hmem', trivial⟩
    · refine (h.lastChange e he ht).congr fun e' _ => and_congr_left fun hlt => ?_
      have := habove e he (by rw [ht]; decide)
      rw [mem_insert]
      constructor
      · intro he'
        exact Or.inr ⟨by omega, he'⟩
      · rintro (rfl | ⟨-, he'⟩)
        · dsimp only at hlt
          omega
        · exact he'
  · rcases mem_insert.mp he with rfl | ⟨-, he⟩
    · rw [hf] at hef
      cases hef
    · obtain ⟨hlt, w', hw', hc⟩ := h.fence e he f hef hf0
      have := hchange _ hw' hc
      exact ⟨hlt, w', mem_insert.mpr (Or.inr ⟨by dsimp only at *; omega, hw'⟩), hc⟩

end RecordsKnown

namespace ChangesKnown

variable {key : K} {st st' : KeyState K} {op : Op K}

theorem empty : ChangesKnown ({} : KeyState K) := by
  refine ⟨⟨.empty, ?_, ?_⟩, ?_⟩
  · intro e he
    cases he
  · intro e he
    cases he
  · intro l hl
    cases hl

/-- The lock of a prewrite has a right pointer. -/
theorem prewritten {p : PrewriteMutation K} {m : ℕ} {l : Lock K} (h : ChangesKnown st)
    (hw : p.Prewritten (st.reader key p.props.startTs) m l) :
    LastChangeExact st.write (fun _ => True) l.lastChange := by
  rcases hw.lastChange with hu | ⟨-, hnew | ⟨l₀, hl₀, heq⟩⟩
  · rw [hu]
    exact .unknown
  · exact RecordsKnown.lastChangeExact_of_newest h.records hnew
  · rw [heq]
    exact h.lock l₀ hl₀

/-- The record of a commit keeps what is known. -/
theorem commit {l : Lock K} {w w' : Write} {s c : ℕ} {default' : Versions Value} {m : ℕ}
    (h : ChangesKnown st) (hlc : LastChangeExact st.write (fun _ => True) l.lastChange)
    (hrec : l.commitRecord s = .ok w) (hcore : w'.core = w.core) (hs : s < c)
    (hf : w'.gcFence = none)
    (habove : st.CommitsAbove ⟨none, st.write.insert c w', default', m⟩) :
    ChangesKnown (⟨none, st.write.insert c w', default', m⟩ : KeyState K) := by
  obtain ⟨ht, hw⟩ := Lock.commitRecord_eq_ok.mp hrec
  have ht' : w'.writeType ≠ .rollback := by
    rw [writeType_of_core hcore]
    exact WriteType.fromLockType_ne_rollback ht
  have hs' : w'.startTs < c := by
    rw [startTs_of_core hcore, hw]
    exact hs
  have hlc' : w'.lastChange = l.lastChange := by
    rw [lastChange_of_core hcore, hw]
  refine ⟨?_, nofun⟩
  refine h.records.commit ((WriteChange.commit ht' hs' hf).recordsOk h.records.recordsOk) hf
    (hlc' ▸ hlc) fun hnew => ?_
  exact habove (c, w') (mem_insert.mpr (Or.inl rfl)) ⟨ht', hnew⟩

/-- Every change keeps what is known, if commits are above the commit records. -/
theorem change (h : ChangesKnown st) (hc : Change key st op st') (habove : st.CommitsAbove st') :
    ChangesKnown st' := by
  cases hc with
  | keep => exact ⟨h.records, h.lock⟩
  | unlock => exact ⟨h.records, nofun⟩
  | prewrite _ _ hw =>
    refine ⟨h.records, fun l' hl' => ?_⟩
    cases hl'
    exact h.prewritten hw
  | onePc _ _ hw _ hs hc hrec =>
    exact h.commit (h.prewritten hw) hrec rfl (hs.trans_le hc)
      (by rw [(Lock.commitRecord_eq_ok.mp hrec).2]) habove
  | acquire _ _ ha =>
    refine ⟨h.records, fun l' hl' => ?_⟩
    cases hl'
    rcases ha.lastChange with hu | hnew
    · rw [hu]
      exact .unknown
    · exact RecordsKnown.lastChangeExact_of_newest h.records hnew
  | commit hl hs _ hrec =>
    obtain ⟨-, -, hcore, hf⟩ := Lock.recordAt_spec hrec
    exact h.commit (h.lock _ hl) hrec hcore hs hf habove
  | rollback _ _ hlock hw =>
    refine ⟨h.records.rollback hw, fun l' hl' => ?_⟩
    have hold : ∀ l, st.lock = some l → LastChangeExact _ (fun _ => True) l.lastChange :=
      fun l hl => (h.lock l hl).transfer hw.sameCommits
    subst hl'
    cases hlock with
    | kept hl | marked hl =>
      have hlc := hold _ hl
      exact hlc
  | relock _ hl | push _ hl =>
    refine ⟨h.records, fun l' hl' => ?_⟩
    cases hl'
    have hlc := h.lock _ hl
    exact hlc

end ChangesKnown

/-! ### Runs -/

section

variable [DecidableEq K]

/-- The commands on the key, when every commit is above the commit records of the key. -/
def KeyState.StepAbove (key : K) (st : KeyState K) (op : Op K) (st' : KeyState K) : Prop :=
  st.Step key op st' ∧ st.CommitsAbove st'

/-- **The last-change pointers of a key are right.** In every state a key gets into by commands
of any transactions that commit above the key's commit records, the pointer of a Lock or
Rollback record is right about the Put and Delete records below it, and the pointer of the lock
is right about all of them. -/
theorem lastChange_exact_of_run {key : K} {ops : List (Op K)} {st : KeyState K}
    (hrun : Exec (KeyState.StepAbove key) {} ops st) :
    (∀ e ∈ st.write.entries, e.2.isChange = false →
      LastChangeExact st.write (· < e.1) e.2.lastChange) ∧
    ∀ l, st.lock = some l → LastChangeExact st.write (fun _ => True) l.lastChange := by
  have hknown : ChangesKnown st := by
    refine hrun.invariant (fun st op st' h hstep => ?_) .empty
    exact h.change (hstep.1.change h.records.recordsOk) hstep.2
  exact ⟨fun e he hc => hknown.records.lastChange_of_not_isChange he hc, hknown.lock⟩

end

/-- A Put is committed at 3 and a Lock record at 20. -/
private def putThenLock : List (Op ℕ) :=
  [.prewrite { props := { startTs := 1, kind := .optimistic false, primary := 0 }
               mutation := .put [1] .none },
   .commit 1 3,
   .prewrite { props := { startTs := 10, kind := .optimistic false, primary := 0 }
               mutation := .lock .none },
   .commit 10 20]

/-- The Lock record at 20 points at the Put at 3. -/
theorem lastChange_exact_putThenLock :
    LastChangeExact (KeyState.run 0 {} putThenLock).write (· < 20) (.exist 3 1) := by
  have hrun : Exec (KeyState.StepAbove 0) {} putThenLock (KeyState.run 0 {} putThenLock) :=
    Exec.of_along (C := fun st _ st' => KeyState.CommitsAbove st st') (by decide)
  obtain ⟨e, he, hc, hlc, hts⟩ : ∃ e ∈ (KeyState.run 0 {} putThenLock).write.entries,
      e.2.isChange = false ∧ e.2.lastChange = .exist 3 1 ∧ e.1 = 20 := by decide
  have hexact := (lastChange_exact_of_run hrun).1 e he hc
  rwa [hlc, hts] at hexact

/-- A pessimistic transaction that started at 5 and commits at 10, below the Lock record at 20,
makes the pointer of that record wrong. -/
theorem lastChange_not_exact_commit_below : ∃ st : KeyState ℕ,
    (∃ ops, Exec (KeyState.Step 0) {} ops st) ∧ ∃ e ∈ st.write.entries,
      e.2.writeType = .lock ∧ e.2.lastChange = .exist 3 1 ∧
        ∃ e' ∈ st.write.entries, e'.2.writeType = .put ∧ 3 < e'.1 ∧ e'.1 < e.1 := by
  refine ⟨_, ⟨_, KeyState.exec_run 0 {} (putThenLock ++
    [.acquirePessimisticLock { startTs := 5, primary := 0, forUpdateTs := 30 },
     .prewrite { props := { startTs := 5, kind := .pessimistic 30, primary := 0 }
                 mutation := .put [2] .none, pessimisticAction := .doPessimisticCheck },
     .commit 5 10])⟩, ?_⟩
  decide

end Tikv
