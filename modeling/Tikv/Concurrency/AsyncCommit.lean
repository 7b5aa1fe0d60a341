import Mathlib.Logic.Function.Basic
import Tikv.Concurrency.Manager
import Tikv.Foundation.Execution

/-!
# Async commit and one-phase commit keep snapshot reads repeatable

A reader raises `max_ts` to its timestamp, checks the locks in memory and then takes a snapshot. A
writer, under the latch of the key and the mutex of its key handle, reads `max_ts` and stores its
lock in memory in one step, writes the lock (or, for one-phase commit, the commit record) to the
engine and drops the guard, which clears the lock in memory. `ReaderStep` and `WriterStep` have one
constructor for each atomic step, and `Step` interleaves any number of readers and writers on any
keys, which share `max_ts`.

The property (**`async_commit_isolation`**): if the snapshot of a reader that was not blocked
shows neither the lock nor the commit record of a transaction, the transaction commits after
the read timestamp. The lock of a `Lock` mutation is an exception, since it never blocks a reader
(`lock_mutation_unseen`).

If the reader raised `max_ts` first, `min_commit_ts` is beyond its timestamp. Otherwise its check
comes after the lock was stored in memory, so it is blocked, or the guard has been dropped, and then
the lock or commit record was in the engine before the snapshot was taken.
-/

namespace Tikv

open Function

/-- A commit record of the write CF: whose it is, and where it was committed. Transactions
that commit on the same key do so at different timestamps, so records are never overwritten. -/
structure CommitRecord where
  startTs : ℕ
  commitTs : ℕ

/-- What a snapshot of the engine shows of a key. -/
structure Engine (K : Type) where
  lock : Option (Lock K) := none
  commits : List CommitRecord := []

/-- The shared state of a key: its entries in the engine, the writer that holds the mutex of
its `KeyHandle`, and the lock stored there. -/
structure Cell (K W : Type) extends Engine K where
  holder : Option W := none
  lockStore : Option (Lock K) := none

/-- How far a reader has come. -/
inductive ReaderPhase (K : Type)
  | start
  /-- `max_ts` has been raised to the read timestamp. -/
  | updated
  /-- The locks in memory have been checked. -/
  | checked
  | blocked
  | read (view : Engine K)

/-- A read of one key. -/
structure Reader (K : Type) where
  key : K
  readTs : ℕ
  bypassLocks : TsSet := []
  phase : ReaderPhase K := .start

/-- How far a writer has come. -/
inductive WriterPhase (K : Type)
  | idle
  /-- The lock is in memory and the guard is held. -/
  | published (lock : Lock K)
  /-- The lock or the commit record is in the engine, and the guard is held. -/
  | written (lock : Lock K)
  | released (lock : Lock K)
  | rolledBack

/-- The async-commit or one-phase prewrite of one key. -/
structure Writer (K : Type) where
  key : K
  /-- The lock the prewrite request asks for. -/
  request : Lock K
  maxCommitTs : ℕ := 0
  phase : WriterPhase K := .idle
  /-- The commit timestamp the transaction has used on this key. -/
  commitTs : Option ℕ := none

inductive ReaderEvent
  | updateMaxTs
  | readKeyCheck
  | snapshot

inductive WriterEvent
  | publish
  | writeLock
  | writeCommit (commitTs : ℕ)
  | dropGuard
  | abort
  | commit (commitTs : ℕ)
  | rollback

variable {K R W : Type}

namespace Cell

/-- The state of the key after its guard has been dropped. -/
def unlocked (c : Cell K W) : Cell K W := { c with holder := none, lockStore := none }

/-- `LockTable::check_key` with the check of a snapshot-isolation read. -/
def readKeyCheck [DecidableEq K] (c : Cell K W) (x : Reader K) : Except (ErrorInner K) Unit :=
  match c.lockStore with
  | none => .ok ()
  | some lock => lock.checkTsConflict x.key x.readTs x.bypassLocks .si

/-- The commit of `lock`: its place in the engine is taken by a commit record. -/
def committed (c : Cell K W) (lock : Lock K) (commitTs : ℕ) : Cell K W :=
  { c with lock := none, commits := ⟨lock.ts, commitTs⟩ :: c.commits }

/-- The engine has no lock on the key but a pessimistic lock of the transaction itself. -/
def Free (c : Cell K W) (x : Writer K) : Prop :=
  ∀ l, c.lock = some l → l.ts = x.request.ts ∧ l.isPessimisticLock = true

end Cell

/-- The steps of a reader: what they do to `max_ts` and to the reader. -/
inductive ReaderStep [DecidableEq K] (c : Cell K W) :
    ℕ × Reader K → ReaderEvent → ℕ × Reader K → Prop
  | updateMaxTs {m x} (hphase : x.phase = .start) :
      ReaderStep c (m, x) .updateMaxTs (updateMaxTs m x.readTs, { x with phase := .updated })
  | pass {m x} (hphase : x.phase = .updated) (hcheck : c.readKeyCheck x = .ok ()) :
      ReaderStep c (m, x) .readKeyCheck (m, { x with phase := .checked })
  | block {m x} (e) (hphase : x.phase = .updated) (hcheck : c.readKeyCheck x = .error e) :
      ReaderStep c (m, x) .readKeyCheck (m, { x with phase := .blocked })
  | snapshot {m x} (hphase : x.phase = .checked) :
      ReaderStep c (m, x) .snapshot (m, { x with phase := .read c.toEngine })

/-- The steps of the writer `w` at `max_ts = m`: what they do to the key and to the writer. -/
inductive WriterStep (w : W) (m : ℕ) :
    Cell K W × Writer K → WriterEvent → Cell K W × Writer K → Prop
  -- Under the latch of the key the prewrite has seen that no other transaction locks it.
  | publish {c x} (lock) (hphase : x.phase = .idle) (hmutex : c.holder = none) (hfree : c.Free x)
      (hlock : asyncCommitTimestamps m x.request x.request.ts x.request.forUpdateTs x.maxCommitTs =
        .ok lock) :
      WriterStep w m (c, x) .publish
        ({ c with holder := some w, lockStore := some lock }, { x with phase := .published lock })
  | writeLock {c x} (lock) (hphase : x.phase = .published lock) (honePc : lock.useOnePc = false) :
      WriterStep w m (c, x) .writeLock
        ({ c with lock := some lock }, { x with phase := .written lock })
  | writeCommit {c x} (lock commitTs) (hphase : x.phase = .published lock)
      (honePc : lock.useOnePc = true) (hle : lock.minCommitTs ≤ commitTs) :
      WriterStep w m (c, x) (.writeCommit commitTs) (c.committed lock commitTs,
        { x with phase := .written lock, commitTs := some commitTs })
  | dropGuard {c x} (lock) (hphase : x.phase = .written lock) :
      WriterStep w m (c, x) .dropGuard (c.unlocked, { x with phase := .released lock })
  -- The guard is dropped on an error, and when the transaction falls back to two phases.
  | abort {c x} (lock) (hphase : x.phase = .published lock) :
      WriterStep w m (c, x) .abort (c.unlocked, { x with phase := .idle })
  | commit {c x} (lock commitTs) (hphase : x.phase = .written lock ∨ x.phase = .released lock)
      (hlock : c.lock = some lock) (hcommit : x.commitTs = none)
      (hle : lock.minCommitTs ≤ commitTs) :
      WriterStep w m (c, x) (.commit commitTs)
        (c.committed lock commitTs, { x with commitTs := some commitTs })
  | rollback {c x} (lock) (hphase : x.phase = .released lock) (hlock : c.lock = some lock)
      (hcommit : x.commitTs = none) :
      WriterStep w m (c, x) .rollback ({ c with lock := none }, { x with phase := .rolledBack })

/-- The store, with its readers and writers. -/
structure Store (K R W : Type) where
  maxTs : ℕ
  cells : K → Cell K W
  readers : R → Reader K
  writers : W → Writer K

/-- The readers and writers take turns. -/
inductive Step [DecidableEq K] [DecidableEq R] [DecidableEq W] :
    Store K R W → (R × ReaderEvent) ⊕ (W × WriterEvent) → Store K R W → Prop
  | reader {s : Store K R W} {r e m x}
      (h : ReaderStep (s.cells (s.readers r).key) (s.maxTs, s.readers r) e (m, x)) :
      Step s (.inl (r, e)) { s with maxTs := m, readers := update s.readers r x }
  | writer {s : Store K R W} {w e c x}
      (h : WriterStep w s.maxTs (s.cells (s.writers w).key, s.writers w) e (c, x)) :
      Step s (.inr (w, e)) { s with
        cells := update s.cells (s.writers w).key c
        writers := update s.writers w x }

/-! ### What a single step keeps -/

/-- The lock a writer has published. -/
def WriterPhase.lock : WriterPhase K → Option (Lock K)
  | .published lock | .written lock | .released lock => some lock
  | .idle | .rolledBack => none

/-- The engine shows the lock, or the commit record of its transaction. -/
def Engine.Holds (engine : Engine K) (lock : Lock K) : Prop :=
  engine.lock = some lock ∨ ∃ r ∈ engine.commits, r.startTs = lock.ts

variable {c c' : Cell K W} {x x' : Reader K} {y y' : Writer K} {w w' : W} {m m' : ℕ}
  {lock : Lock K} {e : WriterEvent}

/-- What ties a writer to the state of its key. -/
structure Writer.Inv (w : W) (c : Cell K W) (y : Writer K) : Prop where
  /-- The lock stays in memory until the guard is dropped. -/
  guard : ∀ lock, y.phase = .published lock ∨ y.phase = .written lock →
    c.holder = some w ∧ c.lockStore = some lock
  lock : ∀ lock, y.phase.lock = some lock → lock.ts = y.request.ts ∧
    lock.lockType = y.request.lockType ∧ lock.ts < lock.minCommitTs
  free : ∀ lock, y.phase = .published lock → c.Free y
  /-- When the guard is dropped the lock is in the engine, and stays there until it is
  committed. -/
  held : ∀ lock, y.phase = .written lock ∨ y.phase = .released lock →
    lock.isPessimisticLock = false → c.Holds lock
  committed : ∀ ts, y.commitTs = some ts → ∃ lock,
    (y.phase = .written lock ∨ y.phase = .released lock) ∧ lock.minCommitTs ≤ ts

section

variable (h : WriterStep w m (c, y) e (c', y'))
include h

theorem WriterStep.key_eq : y'.key = y.key := by
  cases h <;> rfl

theorem WriterStep.request_eq :
    y'.request = y.request := by
  cases h <;> rfl

omit h in
theorem Cell.holds_committed (c : Cell K W) (lock : Lock K) (commitTs : ℕ) :
    (c.committed lock commitTs).Holds lock :=
  Or.inr ⟨⟨lock.ts, commitTs⟩, List.mem_cons_self, rfl⟩

/-- What the engine shows of a transaction goes away only when it is rolled back. -/
theorem WriterStep.holds (hy : y.Inv w c) (hlock : lock.isPessimisticLock = false)
    (hheld : c.Holds lock) (hroll : y'.phase = .rolledBack → lock.ts ≠ y.request.ts) :
    c'.Holds lock := by
  cases h with
  | publish => exact hheld
  | writeLock lock' hphase =>
    rcases hheld with hl | hr
    · -- The key was free when this lock was published, so it has no other lock.
      have := (hy.free lock' hphase lock hl).2
      simp [hlock] at this
    · exact Or.inr hr
  | writeCommit lock' commitTs hphase =>
    rcases hheld with hl | ⟨r, hr, hts⟩
    · have := (hy.free lock' hphase lock hl).2
      simp [hlock] at this
    · exact Or.inr ⟨r, List.mem_cons_of_mem _ hr, hts⟩
  | dropGuard | abort => exact hheld
  | commit lock' commitTs _ hl' =>
    rcases hheld with hl | ⟨r, hr, hts⟩
    · cases hl.symm.trans hl'
      exact c.holds_committed lock commitTs
    · exact Or.inr ⟨r, List.mem_cons_of_mem _ hr, hts⟩
  | rollback lock' hphase hl' =>
    rcases hheld with hl | hr
    · cases hl.symm.trans hl'
      exact absurd (hy.lock lock (by rw [hphase]; rfl)).1 (hroll rfl)
    · exact Or.inr hr

/-- A step of a writer keeps what holds of it and of the cell of its key. -/
theorem WriterStep.inv (hy : y.Inv w c) :
    y'.Inv w c' := by
  have hheld : ∀ lock : Lock K, lock.isPessimisticLock = false → c.Holds lock →
      (y'.phase = .rolledBack → lock.ts ≠ y.request.ts) → c'.Holds lock :=
    fun _ hp => h.holds hy hp
  cases h with
  | publish lock _ _ hfree hts =>
    obtain ⟨n, rfl, -, -, hlt, -⟩ := asyncCommitTimestamps_spec hts
    refine ⟨?_, ?_, fun _ _ => hfree, ?_, fun ts hc => ?_⟩
    · rintro l (hl | hl) <;> cases hl
      exact ⟨rfl, rfl⟩
    · intro l hl
      cases hl
      exact ⟨rfl, rfl, hlt⟩
    · rintro l (hl | hl) <;> cases hl
    · obtain ⟨l, hl | hl, -⟩ := hy.committed ts hc <;> simp_all
  | writeLock lock hphase =>
    refine ⟨?_, fun l hl => ?_, nofun, ?_, fun ts hc => ?_⟩
    · rintro l (hl | hl) <;> cases hl
      exact hy.guard lock (Or.inl hphase)
    · cases hl
      exact hy.lock lock (by rw [hphase]; rfl)
    · rintro l (hl | hl) - <;> cases hl
      exact Or.inl rfl
    · obtain ⟨l, hl | hl, -⟩ := hy.committed ts hc <;> simp_all
  | writeCommit lock commitTs hphase _ hle =>
    refine ⟨?_, fun l hl => ?_, nofun, ?_, fun ts hc => ?_⟩
    · rintro l (hl | hl) <;> cases hl
      exact hy.guard lock (Or.inl hphase)
    · cases hl
      exact hy.lock lock (by rw [hphase]; rfl)
    · rintro l (hl | hl) - <;> cases hl
      exact c.holds_committed lock commitTs
    · cases hc
      exact ⟨lock, Or.inl rfl, hle⟩
  | dropGuard lock hphase =>
    refine ⟨(by rintro l (hl | hl) <;> cases hl), fun l hl => ?_, nofun, ?_, fun ts hc => ?_⟩
    · cases hl
      exact hy.lock lock (by rw [hphase]; rfl)
    · rintro l (hl | hl) hp <;> cases hl
      exact hy.held lock (Or.inl hphase) hp
    · obtain ⟨l, hl | hl, hle⟩ := hy.committed ts hc
      · cases hphase.symm.trans hl
        exact ⟨lock, Or.inr rfl, hle⟩
      · cases hphase.symm.trans hl
  | abort lock hphase =>
    refine ⟨(by rintro l (hl | hl) <;> cases hl), nofun, nofun,
      (by rintro l (hl | hl) <;> cases hl),
      fun ts hc => ?_⟩
    obtain ⟨l, hl | hl, -⟩ := hy.committed ts hc <;> cases hphase.symm.trans hl
  | commit lock commitTs hphase hl _ hle =>
    refine ⟨hy.guard, hy.lock, fun l hl' => ?_, fun l hl' hp => ?_, fun ts hc => ?_⟩
    · rcases hphase with hphase | hphase <;> cases hphase.symm.trans hl'
    · have hnot : y.phase ≠ .rolledBack := by rcases hphase with h | h <;> simp [h]
      exact hheld l hp (hy.held l hl' hp) fun h => absurd h hnot
    · cases hc
      exact ⟨lock, hphase, hle⟩
  | rollback lock hphase hl hnone =>
    refine ⟨(by rintro l (hl | hl) <;> cases hl), nofun, nofun,
      (by rintro l (hl | hl) <;> cases hl),
      fun ts hc => ?_⟩
    cases hnone.symm.trans hc

/-- A writer leaves the locks of the other writers. -/
theorem WriterStep.inv_other (hy : y.Inv w c) (hne : w ≠ w') {z : Writer K}
    (hts : z.request.ts ≠ y.request.ts) (hz : z.Inv w' c) :
    z.Inv w' c' := by
  -- While the other writer holds the guard, this one does not.
  have hexcl : ∀ lock lock', (y.phase = .published lock ∨ y.phase = .written lock) →
      ¬ (z.phase = .published lock' ∨ z.phase = .written lock') := by
    intro lock lock' hyp hzp
    have hw := (hy.guard lock hyp).1.symm.trans (hz.guard lock' hzp).1
    exact hne (Option.some.inj hw)
  refine ⟨fun lock hp => ?_, hz.lock, fun lock hp => ?_, fun lock hp hpess => ?_, hz.committed⟩
  · have hold := hz.guard lock hp
    cases h with
    | publish _ _ hmutex => simp [hold.1] at hmutex
    | writeLock | writeCommit => exact hold
    | dropGuard lock' hphase => exact absurd hp (hexcl lock' lock (Or.inr hphase))
    | abort lock' hphase => exact absurd hp (hexcl lock' lock (Or.inl hphase))
    | commit | rollback => exact hold
  · have hold := hz.free lock hp
    cases h with
    | publish => exact hold
    | writeLock lock' hphase => exact absurd (Or.inl hp) (hexcl lock' lock (Or.inl hphase))
    | writeCommit => exact fun l hl => by cases hl
    | dropGuard | abort => exact hold
    | commit | rollback => exact fun l hl => by cases hl
  · refine h.holds hy hpess (hz.held lock hp hpess) fun _ => ?_
    rwa [(hz.lock lock (by rcases hp with hp | hp <;> rw [hp] <;> rfl)).1]

end

/-- Once a reader has started, `max_ts` is at least its timestamp. -/
def Reader.Inv (m : ℕ) (x : Reader K) : Prop :=
  x.readTs ≠ TimeStamp.max → x.phase ≠ .start → x.readTs ≤ m

/-- The reader's view of a writer: the check or the snapshot has met the lock or the commit
record, or the transaction commits after the read. -/
structure Seen (x : Reader K) (c : Cell K W) (y : Writer K) : Prop where
  checked : x.phase = .checked → ∀ lock, y.phase.lock = some lock →
    x.readTs < lock.minCommitTs ∨ c.Holds lock
  read : ∀ view, x.phase = .read view → ∀ lock, y.phase.lock = some lock →
    x.readTs < lock.minCommitTs ∨ view.Holds lock

/-- The reader would be blocked by the lock the writer asks for. -/
structure Watched (x : Reader K) (y : Writer K) : Prop where
  readTs : x.readTs ≠ TimeStamp.max
  lockType : y.request.lockType = .put ∨ y.request.lockType = .delete
  bypassLocks : y.request.ts ∉ x.bypassLocks

theorem Watched.not_pessimistic (h : Watched x y) (hy : y.Inv w c)
    (hlock : y.phase.lock = some lock) : lock.isPessimisticLock = false := by
  rw [Lock.isPessimisticLock, (hy.lock lock hlock).2.1]
  rcases h.lockType with h | h <;> rw [h] <;> rfl

section

variable [DecidableEq K]

/-- A lock in memory lets a reader pass only if its transaction commits after the read. -/
theorem Watched.lt_of_check (h : Watched x y) (hy : y.Inv w c) (hlock : y.phase.lock = some lock)
    (hcheck : lock.checkTsConflict x.key x.readTs x.bypassLocks .si = .ok ()) :
    x.readTs < lock.minCommitTs := by
  obtain ⟨hts, htype, hmin⟩ := hy.lock lock hlock
  have hpess := h.not_pessimistic hy hlock
  simp only [Lock.checkTsConflict, Lock.checkTsConflictSi, h.readTs] at hcheck
  split at hcheck
  · rename_i hpass
    rcases hpass with hgt | hl | hl
    · omega
    · rcases h.lockType with ht | ht <;> simp [htype, ht] at hl
    · simp [hpess] at hl
  · split at hcheck
    · assumption
    · split at hcheck
      · rename_i hmem
        exact absurd (hts ▸ hmem) h.bypassLocks
      · cases hcheck

variable {e : ReaderEvent}

section

variable (h : ReaderStep c (m, x) e (m', x'))
include h

theorem ReaderStep.eq_phase :
    ∃ p, x' = { x with phase := p } := by
  cases h <;> exact ⟨_, rfl⟩

theorem ReaderStep.le : m ≤ m' := by
  cases h
  · exact le_updateMaxTs _ _
  all_goals exact Nat.le_refl _

theorem ReaderStep.inv (hx : x.Inv m) : x'.Inv m' := by
  intro hmax _
  cases h with
  | updateMaxTs => exact ts_le_updateMaxTs hmax
  | pass hphase | block _ hphase | snapshot hphase => exact hx hmax (by simp [hphase])

/-- What a reader sees of a writer is true when it sees it. -/
theorem ReaderStep.seen (hxy : Watched x y) (hy : y.Inv w c) (hseen : Seen x c y) :
    Seen x' c y := by
  cases h with
  | updateMaxTs => exact ⟨nofun, nofun⟩
  | pass hphase hcheck =>
    refine ⟨fun _ lock hlock => ?_, nofun⟩
    -- The lock is still in memory and is checked, or it is already in the engine.
    rw [Cell.readKeyCheck] at hcheck
    cases hp : y.phase with
    | idle | rolledBack => simp [hp, WriterPhase.lock] at hlock
    | published l =>
      rw [(hy.guard l (Or.inl hp)).2] at hcheck
      rw [hp] at hlock
      cases hlock
      exact Or.inl (hxy.lt_of_check hy (by rw [hp]; rfl) hcheck)
    | written l =>
      rw [(hy.guard l (Or.inr hp)).2] at hcheck
      rw [hp] at hlock
      cases hlock
      exact Or.inl (hxy.lt_of_check hy (by rw [hp]; rfl) hcheck)
    | released l =>
      have hpess := hxy.not_pessimistic hy hlock
      rw [hp] at hlock
      cases hlock
      exact Or.inr (hy.held lock (Or.inr hp) hpess)
  | block => exact ⟨nofun, nofun⟩
  | snapshot hphase =>
    refine ⟨nofun, fun view hview lock hlock => ?_⟩
    cases hview
    exact hseen.checked hphase lock hlock

end

end

/-- What a reader has seen of a writer stays true when the writer goes on. -/
theorem WriterStep.seen (h : WriterStep w m (c, y) e (c', y')) (hxy : Watched x y)
    (hx : x.Inv m) (hy : y.Inv w c) (hseen : Seen x c y) : Seen x c' y' := by
  -- Either the lock is new, and then beyond `max_ts`, or it was published before.
  have hcase : ∀ lock, y'.phase.lock = some lock →
      m < lock.minCommitTs ∨ y.phase.lock = some lock := by
    intro lock hlock
    cases h with
    | publish lock' _ _ _ hts =>
      obtain ⟨n, rfl, -, hlt, -⟩ := asyncCommitTimestamps_spec hts
      cases hlock
      exact Or.inl hlt
    | writeLock lock' hphase | writeCommit lock' _ hphase | dropGuard lock' hphase =>
      exact Or.inr (by rw [hphase]; exact hlock)
    | abort => cases hlock
    | commit => exact Or.inr hlock
    | rollback => cases hlock
  refine ⟨fun hphase lock hlock => ?_, fun view hphase lock hlock => ?_⟩
  · rcases hcase lock hlock with hlt | hold
    · exact Or.inl (Nat.lt_of_le_of_lt (hx hxy.readTs (by simp [hphase])) hlt)
    · refine (hseen.checked hphase lock hold).imp_right fun hheld => ?_
      refine h.holds hy (hxy.not_pessimistic hy hold) hheld fun hroll => ?_
      rw [hroll] at hlock
      cases hlock
  · rcases hcase lock hlock with hlt | hold
    · exact Or.inl (Nat.lt_of_le_of_lt (hx hxy.readTs (by simp [hphase])) hlt)
    · exact hseen.read view hphase lock hold

theorem WriterStep.seen_other (h : WriterStep w m (c, y) e (c', y')) (hy : y.Inv w c)
    {z : Writer K} (hxz : Watched x z) (hts : z.request.ts ≠ y.request.ts) (hz : z.Inv w' c)
    (hseen : Seen x c z) : Seen x c' z := by
  refine ⟨fun hphase lock hlock => ?_, hseen.read⟩
  refine (hseen.checked hphase lock hlock).imp_right fun hheld => ?_
  refine h.holds hy (hxz.not_pessimistic hz hlock) hheld fun _ => ?_
  rwa [(hz.lock lock hlock).1]

/-! ### Whole runs -/

/-- Nothing has happened yet, and a start timestamp identifies a transaction. The engine may
hold anything. -/
structure Store.Initial (s : Store K R W) : Prop where
  reader : ∀ r, (s.readers r).phase = .start
  writer : ∀ w, (s.writers w).phase = .idle ∧ (s.writers w).commitTs = none
  handle : ∀ k, (s.cells k).holder = none ∧ (s.cells k).lockStore = none
  startTs : ∀ w w', w ≠ w' → (s.writers w).key = (s.writers w').key →
    (s.writers w).request.ts ≠ (s.writers w').request.ts

structure Store.Inv (s : Store K R W) : Prop where
  reader : ∀ r, (s.readers r).Inv s.maxTs
  writer : ∀ w, (s.writers w).Inv w (s.cells (s.writers w).key)
  seen : ∀ r w, (s.readers r).key = (s.writers w).key → Watched (s.readers r) (s.writers w) →
    Seen (s.readers r) (s.cells (s.writers w).key) (s.writers w)
  startTs : ∀ w w', w ≠ w' → (s.writers w).key = (s.writers w').key →
    (s.writers w).request.ts ≠ (s.writers w').request.ts

variable {s t : Store K R W}

theorem Store.Initial.inv (h : s.Initial) : s.Inv where
  reader r _ hphase := absurd (h.reader r) hphase
  writer w := by
    obtain ⟨hidle, hnone⟩ := h.writer w
    refine ⟨?_, ?_, ?_, ?_, ?_⟩ <;> simp [hidle, hnone, WriterPhase.lock]
  seen r w _ _ := by
    constructor <;> simp [h.reader r]
  startTs := h.startTs

/-- A view shows neither the lock nor the commit record of the transaction; a pessimistic lock
does not count. -/
def Engine.Unaware (view : Engine K) (y : Writer K) : Prop :=
  (∀ lock, view.lock = some lock → lock.isPessimisticLock = false → lock.ts ≠ y.request.ts) ∧
    ∀ r ∈ view.commits, r.startTs ≠ y.request.ts

/-- A step of a reader keeps what holds of the store. -/
theorem Store.Inv.readerStep [DecidableEq K] [DecidableEq R] (hs : s.Inv) {r : R} {e : ReaderEvent}
    (h : ReaderStep (s.cells (s.readers r).key) (s.maxTs, s.readers r) e (m, x)) :
    ({ s with maxTs := m, readers := update s.readers r x } : Store K R W).Inv := by
  obtain ⟨p, hx⟩ := h.eq_phase
  refine ⟨fun r' => ?_, hs.writer, fun r' w hkey hwatch => ?_, hs.startTs⟩
  · by_cases hr : r' = r
    · subst hr
      simpa using h.inv (hs.reader r')
    · simp only [update_of_ne hr]
      exact fun hmax hphase => Nat.le_trans (hs.reader r' hmax hphase) h.le
  · by_cases hr : r' = r
    · subst hr
      simp only [update_self] at hkey hwatch ⊢
      have hkey' : (s.readers r').key = (s.writers w).key := by rw [← hkey, hx]
      have hwatch' : Watched (s.readers r') (s.writers w) := by
        rw [hx] at hwatch
        exact { hwatch with }
      rw [hkey'] at h
      exact h.seen hwatch' (hs.writer w) (hs.seen r' w hkey' hwatch')
    · simp only [update_of_ne hr] at hkey hwatch ⊢
      exact hs.seen r' w hkey hwatch

/-- A step of a writer keeps what holds of the store. -/
theorem Store.Inv.writerStep [DecidableEq K] [DecidableEq W] (hs : s.Inv) {e : WriterEvent}
    (h : WriterStep w s.maxTs (s.cells (s.writers w).key, s.writers w) e (c, y)) :
    ({ s with
      cells := update s.cells (s.writers w).key c
      writers := update s.writers w y } : Store K R W).Inv := by
  have hkey := h.key_eq
  have hreq := h.request_eq
  -- The keys and start timestamps of the writers stay.
  have hst : ∀ w', (update s.writers w y w').key = (s.writers w').key ∧
      (update s.writers w y w').request = (s.writers w').request := by
    intro w'
    by_cases hw : w' = w
    · subst hw
      simp [hkey, hreq]
    · simp [hw]
  refine ⟨hs.reader, fun w' => ?_, fun r w' hrk hwatch => ?_, fun w₁ w₂ hne hk => ?_⟩
  · by_cases hw : w' = w
    · subst hw
      simp only [update_self, hkey]
      exact h.inv (hs.writer w')
    · simp only [update_of_ne hw]
      by_cases hk : (s.writers w').key = (s.writers w).key
      · rw [hk, update_self]
        exact h.inv_other (hs.writer w) (Ne.symm hw) (hs.startTs w' w hw hk) (hk ▸ hs.writer w')
      · rw [update_of_ne hk]
        exact hs.writer w'
  · by_cases hw : w' = w
    · subst hw
      simp only [update_self, hkey] at hrk hwatch ⊢
      have hwatch' : Watched (s.readers r) (s.writers w') :=
        ⟨hwatch.readTs, hreq ▸ hwatch.lockType, hreq ▸ hwatch.bypassLocks⟩
      exact h.seen hwatch' (hs.reader r) (hs.writer w') (hs.seen r w' hrk hwatch')
    · simp only [update_of_ne hw] at hrk hwatch ⊢
      by_cases hk : (s.writers w').key = (s.writers w).key
      · rw [hk, update_self]
        exact h.seen_other (hs.writer w) hwatch (hs.startTs w' w hw hk) (hk ▸ hs.writer w')
          (hk ▸ hs.seen r w' hrk hwatch)
      · rw [update_of_ne hk]
        exact hs.seen r w' hrk hwatch
  · simp only [(hst w₁).1, (hst w₂).1] at hk
    simp only [(hst w₁).2, (hst w₂).2]
    exact hs.startTs w₁ w₂ hne hk

variable [DecidableEq K] [DecidableEq R] [DecidableEq W]

theorem Store.Inv.step {e : (R × ReaderEvent) ⊕ (W × WriterEvent)} (hs : s.Inv)
    (h : Step s e t) : t.Inv := by
  cases h with
  | reader h => exact hs.readerStep h
  | writer h => exact hs.writerStep h

/-- **Snapshot isolation of async commit and one-phase commit.** In every run of any number of
readers and writers: if a reader that was not blocked has taken a snapshot that shows neither
the lock nor the commit record of a transaction with a Put or Delete on its key, and does not
bypass that transaction, then the transaction has committed after the read timestamp, if it
has committed. -/
theorem async_commit_isolation {es : List ((R × ReaderEvent) ⊕ (W × WriterEvent))}
    (hinit : s.Initial) (hrun : Exec Step s es t) (r : R) (w : W) (view : Engine K)
    (commitTs : ℕ) (hkey : (t.readers r).key = (t.writers w).key)
    (hts : (t.readers r).readTs ≠ TimeStamp.max)
    (htype : (t.writers w).request.lockType = .put ∨ (t.writers w).request.lockType = .delete)
    (hbypass : (t.writers w).request.ts ∉ (t.readers r).bypassLocks)
    (hread : (t.readers r).phase = .read view) (hview : view.Unaware (t.writers w))
    (hcommit : (t.writers w).commitTs = some commitTs) :
    (t.readers r).readTs < commitTs := by
  have ht : t.Inv := hrun.invariant (fun _ _ _ hs h => hs.step h) hinit.inv
  obtain ⟨lock, hphase, hle⟩ := (ht.writer w).committed commitTs hcommit
  have hlock : (t.writers w).phase.lock = some lock := by
    rcases hphase with h | h <;> rw [h] <;> rfl
  have hlts := ((ht.writer w).lock lock hlock).1
  have hwatch : Watched (t.readers r) (t.writers w) := ⟨hts, htype, hbypass⟩
  rcases (ht.seen r w hkey hwatch).read view hread lock hlock with h | h | h
  · exact Nat.lt_of_lt_of_le h hle
  · exact absurd hlts (hview.1 lock h (hwatch.not_pessimistic (ht.writer w) hlock))
  · obtain ⟨record, hmem, hrec⟩ := h
    exact absurd (hrec.trans hlts) (hview.2 record hmem)

/-- One reader at 10 and one async-commit writer that started at 3, on one key. -/
def oneReaderOneWriter (lockType : LockType) : Store Unit Unit Unit where
  maxTs := 5
  cells _ := {}
  readers _ := { key := (), readTs := 10 }
  writers _ := { key := (), request :=
    { lockType := lockType, primary := (), ts := 3, useAsyncCommit := true } }

theorem oneReaderOneWriter_initial (lockType : LockType) :
    (oneReaderOneWriter lockType).Initial where
  reader _ := rfl
  writer _ := ⟨rfl, rfl⟩
  handle _ := ⟨rfl, rfl⟩
  startTs _ _ hne _ := absurd rfl hne

/-- The lock of the writer with its `min_commit_ts`. -/
def asyncLock (lockType : LockType) (minCommitTs : ℕ) : Lock Unit :=
  { lockType := lockType, primary := (), ts := 3, minCommitTs := minCommitTs,
    useAsyncCommit := true }

/-- The reader is first: the writer commits at 11. -/
theorem async_commit_isolation_reader_first :
    ∃ es t, Exec Step (oneReaderOneWriter .put) es t ∧ (t.writers ()).commitTs = some 11 ∧
      (t.readers ()).readTs < 11 := by
  have hrun : ∃ es t, Exec Step (oneReaderOneWriter .put) es t ∧
      (t.readers ()).readTs = 10 ∧ (t.readers ()).bypassLocks = [] ∧
      (t.readers ()).phase = .read {} ∧ (t.writers ()).request.lockType = .put ∧
      (t.writers ()).commitTs = some 11 :=
    ⟨_, _, .cons (.reader (r := ()) (.updateMaxTs rfl)) <|
      .cons (.reader (r := ()) (.pass rfl rfl)) <|
      .cons (.reader (r := ()) (.snapshot rfl)) <|
      .cons (.writer (w := ()) (.publish (asyncLock .put 11) rfl rfl nofun rfl)) <|
      .cons (.writer (w := ()) (.writeLock (asyncLock .put 11) rfl rfl)) <|
      .cons (.writer (w := ()) (.dropGuard (asyncLock .put 11) rfl)) <|
      .cons (.writer (w := ()) (.commit (asyncLock .put 11) 11 (.inr rfl) rfl rfl (by decide))) <|
      .nil _, rfl, rfl, rfl, rfl, rfl⟩
  obtain ⟨es, t, hexec, hts, hbypass, hread, htype, hcommit⟩ := hrun
  refine ⟨es, t, hexec, hcommit, ?_⟩
  exact async_commit_isolation (oneReaderOneWriter_initial .put) hexec () () {} 11 rfl
    (by rw [hts]; decide) (Or.inl htype) (by rw [hbypass]; simp) hread
    ⟨nofun, nofun⟩ hcommit

/-- The lock of a Lock mutation blocks no reader: a reader at 10 passes the check while the
lock is in memory, its snapshot shows nothing, and the transaction commits at 6. -/
theorem lock_mutation_unseen :
    ∃ es t, (oneReaderOneWriter .lock).Initial ∧ Exec Step (oneReaderOneWriter .lock) es t ∧
      (t.readers ()).readTs = 10 ∧ (t.readers ()).bypassLocks = [] ∧
      (∃ view, (t.readers ()).phase = .read view ∧ view.Unaware (t.writers ())) ∧
      (t.writers ()).commitTs = some 6 :=
  ⟨_, _, oneReaderOneWriter_initial .lock,
    .cons (.writer (w := ()) (.publish (asyncLock .lock 6) rfl rfl nofun rfl)) <|
    .cons (.reader (r := ()) (.updateMaxTs rfl)) <|
    .cons (.reader (r := ()) (.pass rfl rfl)) <|
    .cons (.reader (r := ()) (.snapshot rfl)) <|
    .cons (.writer (w := ()) (.writeLock (asyncLock .lock 6) rfl rfl)) <|
    .cons (.writer (w := ()) (.dropGuard (asyncLock .lock 6) rfl)) <|
    .cons (.writer (w := ()) (.commit (asyncLock .lock 6) 6 (.inr rfl) rfl rfl (by decide))) <|
    .nil _, rfl, rfl, ⟨{}, rfl, nofun, nofun⟩, rfl⟩

end Tikv
