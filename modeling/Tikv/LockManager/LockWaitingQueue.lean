import Tikv.Foundation.BigEndian
import Tikv.Foundation.Execution
import Tikv.TxnTypes

/-!
# The lock waiting queue of a key

Pessimistic lock requests that meet a lock wait in a queue, which gives out the oldest
transaction first. When the lock is released, `pop_for_waking_up` wakes the first of them, and if
that is a legacy request (one that does not allow a lock with a conflict) it schedules a
`delayed_notify_all`, which is to wake the others that wait at this moment. An entry records the
counter of these wake-ups when it is pushed, and the delayed call stops at the first entry whose
record is not below its own count.

The queue is ordered by `start_ts` and not by arrival: an older transaction that comes later hides
the waiting ones behind it (`notify_shielded`). Those that are older than all later ones are woken
(`notify_wakes_waiting`).

The order in which the heap gives out entries with the same `start_ts` is an argument.
-/

namespace Tikv.LockWaiting

/-- `LockWaitEntry`: a request that waits for the lock of a key. -/
structure LockWaitEntry where
  key : Bytes
  lockWaitToken : ℕ
  startTs : ℕ
  primary : Bytes
  allowLockWithConflict : Bool
  legacyWakeUpIndex : Option ℕ
  deriving DecidableEq

namespace LockWaitEntry

variable {entry : LockWaitEntry}

/-- A legacy request does not allow a lock with a conflict. -/
abbrev IsLegacy (entry : LockWaitEntry) : Prop :=
  entry.allowLockWithConflict = false

/-- The entry was pushed when the counter of wake-ups had already reached `index`. -/
def pushedFrom (index : ℕ) (entry : LockWaitEntry) : Bool :=
  entry.legacyWakeUpIndex.any (index ≤ ·)

theorem pushedFrom_of_succ {index : ℕ} (h : entry.pushedFrom (index + 1)) :
    entry.pushedFrom index := by
  simp only [pushedFrom, Option.any_eq_true, decide_eq_true_eq] at h ⊢
  obtain ⟨n, hn, hlt⟩ := h
  exact ⟨n, hn, Nat.le_of_lt hlt⟩

end LockWaitEntry

open LockWaitEntry

/-- The `KeyLockWaitState` of a key and the counter that all keys allocate ids from. A key that
is not in the map has the state `KeyLockWaitState::new()`. -/
structure LockWaitQueues where
  legacyWakeUpIndex : ℕ := 0
  queue : List LockWaitEntry := []
  lastConflictStartTs : ℕ := 0
  lastConflictCommitTs : ℕ := 0
  delayedNotifyAllState : Option ℕ := none
  idAllocated : ℕ := 1
  /-- The entries left when `pop_for_waking_up` last woke a legacy request. The source does not
  keep them. -/
  waiting : List LockWaitEntry := []

/-- The operations on the queue. `order` is the order in which the heap gives out its entries. -/
inductive Event
  | pushLockWait (entry : LockWaitEntry) (isCanceled : Bool)
  | popForWakingUp (order : List LockWaitEntry) (startTs commitTs : ℕ)
  | delayedNotifyAll (order : List LockWaitEntry) (notifyId : ℕ)
  | removeByToken (token : ℕ)
  /-- `allocate_internal_id` for another key. -/
  | allocateInternalId

/-- The loop of `delayed_notify_all`: the legacy entries it wakes, the resumable one it stops
at, and the entries it leaves. -/
def notifyLoop (legacyWakeUpIndex : ℕ) : List LockWaitEntry →
    List LockWaitEntry × Option LockWaitEntry × List LockWaitEntry
  | [] => ([], none, [])
  | front :: rest =>
    -- The entry was added after the wake-up that issued the call: it and the others are kept.
    if front.pushedFrom legacyWakeUpIndex then ([], none, front :: rest)
    else if front.allowLockWithConflict then ([], some front, rest)
    else
      let (woken, resumable, rest) := notifyLoop legacyWakeUpIndex rest
      (front :: woken, resumable, rest)

section notifyLoop

variable {index : ℕ} {order : List LockWaitEntry} {x : LockWaitEntry}

theorem suffix_notifyLoop (index : ℕ) (order : List LockWaitEntry) :
    (notifyLoop index order).2.2 <:+ order := by
  fun_induction notifyLoop index order with
  | case1 | case2 => exact List.suffix_rfl
  | case3 front rest => exact List.suffix_cons front rest
  | case4 front rest _ _ _ _ _ hrest ih =>
    rw [hrest] at ih
    exact ih.trans (List.suffix_cons front rest)

/-- The loop wakes only legacy entries pushed before the counter reached `index`. -/
theorem of_mem_notifyLoop (h : x ∈ (notifyLoop index order).1) :
    x ∈ order ∧ x.IsLegacy ∧ ¬ x.pushedFrom index := by
  fun_induction notifyLoop index order with
  | case1 | case2 | case3 => contradiction
  | case4 front rest hpushed hlegacy _ _ _ hrest ih =>
    rcases List.mem_cons.mp h with rfl | h
    · exact ⟨.head _, Bool.of_not_eq_true hlegacy, hpushed⟩
    · rw [hrest] at ih
      obtain ⟨hx, hwoken⟩ := ih h
      exact ⟨.tail _ hx, hwoken⟩

/-- Where all are legacy, it wakes those that are older than the others. -/
theorem mem_notifyLoop (hlegacy : ∀ x ∈ order, x.IsLegacy)
    (hsorted : order.Pairwise (·.startTs ≤ ·.startTs)) (hx : x ∈ order)
    (holder : ∀ y ∈ order, y.pushedFrom index → x.startTs < y.startTs) :
    x ∈ (notifyLoop index order).1 := by
  induction order with
  | nil => contradiction
  | cons front rest ih =>
    rw [List.pairwise_cons] at hsorted
    have hle : front.startTs ≤ x.startTs := by
      rcases List.mem_cons.mp hx with rfl | hx
      · exact Nat.le_refl _
      · exact hsorted.1 x hx
    have hfront : ¬ front.pushedFrom index :=
      fun h => Nat.not_lt.mpr hle (holder front (.head _) h)
    rw [notifyLoop, if_neg hfront, if_neg (by simp [hlegacy front])]
    rcases List.mem_cons.mp hx with rfl | hx
    · exact .head _
    · exact .tail _ (ih (fun y hy => hlegacy y (.tail _ hy)) hsorted.2 hx
        fun y hy => holder y (.tail _ hy))

end notifyLoop

namespace LockWaitQueues

variable (s : LockWaitQueues) (order : List LockWaitEntry)

/-- The orders in which the heap may give out its entries. -/
def IsOrder : Prop :=
  order.Perm s.queue ∧ order.Pairwise (·.startTs ≤ ·.startTs)

instance (s : LockWaitQueues) (order : List LockWaitEntry) : Decidable (s.IsOrder order) :=
  inferInstanceAs (Decidable (_ ∧ _))

/-- `remove_if_mut`: the state is dropped with the last entry. -/
def removeIfEmpty : LockWaitQueues :=
  if s.queue.isEmpty then { idAllocated := s.idAllocated, waiting := s.waiting } else s

/-- The error that a woken legacy request is given. -/
def conflictError (entry : LockWaitEntry) : ErrorInner Bytes :=
  .writeConflict entry.startTs s.lastConflictStartTs s.lastConflictCommitTs entry.key
    (some entry.primary) .pessimisticRetry

/-- `push_lock_wait`. The request may have been canceled while it was not in the queue. -/
def pushLockWait (entry : LockWaitEntry) (isCanceled : Bool) : LockWaitQueues :=
  if isCanceled then s
  else
    let entry := { entry with
      legacyWakeUpIndex := some (entry.legacyWakeUpIndex.getD s.legacyWakeUpIndex) }
    { s with queue := entry :: s.queue.filter (·.lockWaitToken ≠ entry.lockWaitToken) }

/-- `handle_delayed_wake_up`: a call that is already scheduled is only delayed further. -/
def handleDelayedWakeUp : LockWaitQueues :=
  if s.delayedNotifyAllState.isSome then s
  else { s with delayedNotifyAllState := some s.idAllocated, idAllocated := s.idAllocated + 1 }

/-- `pop_for_waking_up`. -/
def popForWakingUp (startTs commitTs : ℕ) : LockWaitQueues :=
  let s := { s with lastConflictStartTs := startTs, lastConflictCommitTs := commitTs }
  removeIfEmpty <| match order with
    | [] => s
    | entry :: queue =>
      if entry.allowLockWithConflict then { s with queue }
      else
        let legacyWakeUpIndex := s.legacyWakeUpIndex + 1
        let s := { s with queue, legacyWakeUpIndex, waiting := queue }
        if queue.isEmpty then s else s.handleDelayedWakeUp

/-- `delayed_notify_all`: the callbacks it calls with their errors, and the resumable entry it
returns. -/
def delayedNotifyAll (notifyId : ℕ) :
    List (LockWaitEntry × ErrorInner Bytes) × Option LockWaitEntry × LockWaitQueues :=
  if s.delayedNotifyAllState = some notifyId then
    let (woken, resumable, queue) := notifyLoop s.legacyWakeUpIndex order
    (woken.map fun entry => (entry, s.conflictError entry), resumable,
      removeIfEmpty { s with delayedNotifyAllState := none, queue })
  else ([], none, s)

/-- `remove_by_token`. -/
def removeByToken (token : ℕ) : LockWaitQueues :=
  removeIfEmpty { s with queue := s.queue.filter (·.lockWaitToken ≠ token) }

/-- One operation. -/
def step : Event → LockWaitQueues
  | .pushLockWait entry isCanceled => s.pushLockWait entry isCanceled
  | .popForWakingUp order startTs commitTs => s.popForWakingUp order startTs commitTs
  | .delayedNotifyAll order notifyId => (s.delayedNotifyAll order notifyId).2.2
  | .removeByToken token => s.removeByToken token
  | .allocateInternalId => { s with idAllocated := s.idAllocated + 1 }

/-- How the operations are used. A legacy request is pushed once, with no record of the counter:
only a resumable one that is woken and meets a lock again comes back. -/
def Allowed : Event → Prop
  | .pushLockWait entry _ => entry.IsLegacy → entry.legacyWakeUpIndex = none
  | .popForWakingUp order _ _ | .delayedNotifyAll order _ => s.IsOrder order
  | _ => True

def Step (e : Event) (t : LockWaitQueues) : Prop :=
  t = s.step e ∧ s.Allowed e

/-- The records of the legacy entries do not exceed the counter, and while a delayed call is
scheduled those below the counter are of the entries that were waiting. -/
structure Inv : Prop where
  queue : ∀ x ∈ s.queue, x.IsLegacy → ¬ x.pushedFrom (s.legacyWakeUpIndex + 1)
  waiting : s.delayedNotifyAllState.isSome → ∀ x ∈ s.waiting, x.IsLegacy →
    ¬ x.pushedFrom s.legacyWakeUpIndex
  before : s.delayedNotifyAllState.isSome → ∀ x ∈ s.queue, x.IsLegacy →
    ¬ x.pushedFrom s.legacyWakeUpIndex → x ∈ s.waiting

namespace Inv

variable {s : LockWaitQueues} {queue : List LockWaitEntry}

theorem removeIfEmpty (h : s.Inv) : s.removeIfEmpty.Inv := by
  rw [LockWaitQueues.removeIfEmpty]
  split
  · exact ⟨nofun, nofun, nofun⟩
  · exact h

theorem of_subset (h : s.Inv) (hqueue : ∀ x ∈ queue, x ∈ s.queue) : Inv { s with queue } :=
  ⟨fun x hx => h.queue x (hqueue x hx), h.waiting, fun hs x hx => h.before hs x (hqueue x hx)⟩

theorem pushLockWait (h : s.Inv) {entry : LockWaitEntry}
    (hentry : entry.IsLegacy → entry.legacyWakeUpIndex = none) (isCanceled : Bool) :
    (s.pushLockWait entry isCanceled).Inv := by
  rw [LockWaitQueues.pushLockWait]
  split
  · exact h
  · refine ⟨fun x hx => ?_, h.waiting, fun hs x hx => ?_⟩
    · rcases List.mem_cons.mp hx with rfl | hx
      · intro hlegacy
        simp [pushedFrom, hentry hlegacy]
      · exact h.queue x (List.mem_of_mem_filter hx)
    · rcases List.mem_cons.mp hx with rfl | hx
      · intro hlegacy
        simp [pushedFrom, hentry hlegacy]
      · exact h.before hs x (List.mem_of_mem_filter hx)

/-- A legacy request is woken: all the others are waiting. -/
theorem wakeLegacy {t : LockWaitQueues} (h : s.Inv) (hqueue : ∀ x ∈ t.queue, x ∈ s.queue)
    (hwaiting : t.waiting = t.queue) (hindex : t.legacyWakeUpIndex = s.legacyWakeUpIndex + 1) :
    t.Inv := by
  have hbelow : ∀ x ∈ t.queue, x.IsLegacy → ¬ x.pushedFrom t.legacyWakeUpIndex :=
    hindex ▸ fun x hx => h.queue x (hqueue x hx)
  exact ⟨fun x hx hlegacy hpushed => hbelow x hx hlegacy (pushedFrom_of_succ hpushed),
    fun _ => hwaiting ▸ hbelow, fun _ x hx _ _ => hwaiting ▸ hx⟩

theorem popForWakingUp (h : s.Inv) {order : List LockWaitEntry} (horder : s.IsOrder order)
    (startTs commitTs : ℕ) : (s.popForWakingUp order startTs commitTs).Inv := by
  refine removeIfEmpty ?_
  cases order with
  | nil => exact { h with }
  | cons entry queue =>
    have hqueue : ∀ x ∈ queue, x ∈ s.queue := fun x hx => horder.1.mem_iff.mp (.tail _ hx)
    dsimp only
    split
    · obtain ⟨hq, hw, hb⟩ := h.of_subset hqueue
      exact ⟨hq, hw, hb⟩
    · split
      · exact h.wakeLegacy hqueue rfl rfl
      · rw [handleDelayedWakeUp]
        split <;> exact h.wakeLegacy hqueue rfl rfl

/-- **Every call keeps the invariant.** -/
theorem step {e : Event} {t : LockWaitQueues} (h : s.Inv) (hstep : Step s e t) : t.Inv := by
  obtain ⟨rfl, he⟩ := hstep
  cases e with
  | pushLockWait entry isCanceled => exact h.pushLockWait he isCanceled
  | popForWakingUp order startTs commitTs => exact h.popForWakingUp he startTs commitTs
  | delayedNotifyAll order notifyId =>
    rw [LockWaitQueues.step, delayedNotifyAll]
    split
    · have hqueue : ∀ x ∈ (notifyLoop s.legacyWakeUpIndex order).2.2, x ∈ s.queue :=
        fun x hx => he.1.mem_iff.mp ((suffix_notifyLoop _ _).subset hx)
      exact removeIfEmpty ⟨(h.of_subset hqueue).queue, nofun, nofun⟩
    · exact h
  | removeByToken token => exact (h.of_subset fun _ => List.mem_of_mem_filter).removeIfEmpty
  | allocateInternalId => exact { h with }

end Inv

/-- A delayed call whose id is current wakes only entries that were waiting when a legacy request
was last woken. Where no resumable request is in the queue, it wakes those of them that are still
there and older than every entry that came later. -/
theorem notify_wakes_waiting {s : LockWaitQueues} {es : List Event} {notifyId : ℕ}
    (h : Exec Step {} es s)
    (hcurrent : s.delayedNotifyAllState = some notifyId) :
    (∃ order, s.IsOrder order) ∧ ∀ order, s.IsOrder order → ∃ woken : List LockWaitEntry,
      (s.delayedNotifyAll order notifyId).1 = woken.map (fun x => (x, s.conflictError x)) ∧
      (∀ x ∈ woken, x ∈ s.waiting ∧ x ∈ s.queue) ∧
      ((∀ x ∈ s.queue, x.IsLegacy) → ∀ x ∈ s.waiting, x ∈ s.queue →
        (∀ y ∈ s.queue, y ∉ s.waiting → x.startTs < y.startTs) → x ∈ woken) := by
  have hinv : s.Inv :=
    h.invariant (fun _ _ _ => Inv.step) ⟨nofun, nofun, nofun⟩
  have hsome : s.delayedNotifyAllState.isSome := by simp [hcurrent]
  refine ⟨⟨s.queue.mergeSort (·.startTs ≤ ·.startTs), List.mergeSort_perm .., ?_⟩,
    fun order horder => ⟨(notifyLoop s.legacyWakeUpIndex order).1, ?_, ?_, ?_⟩⟩
  · exact (List.pairwise_mergeSort (by simp; omega) (by simp; omega) _).imp (by simp)
  · rw [delayedNotifyAll, if_pos hcurrent]
  · intro x hx
    obtain ⟨hx, hlegacy, hpushed⟩ := of_mem_notifyLoop hx
    have hx : x ∈ s.queue := horder.1.mem_iff.mp hx
    exact ⟨hinv.before hsome x hx hlegacy hpushed, hx⟩
  · intro hlegacy x hx hx' hyounger
    have hmem : ∀ y, y ∈ order ↔ y ∈ s.queue := fun y => horder.1.mem_iff
    refine mem_notifyLoop (fun y hy => hlegacy y ((hmem y).mp hy)) horder.2 ((hmem x).mpr hx') ?_
    intro y hy hpushed
    have hy : y ∈ s.queue := (hmem y).mp hy
    exact hyounger y hy fun hy' => hinv.waiting hsome y hy' (hlegacy y hy) hpushed

/-- The request of a transaction. -/
def waiter (token startTs : ℕ) (legacyWakeUpIndex : Option ℕ) : LockWaitEntry :=
  ⟨[], token, startTs, [], false, legacyWakeUpIndex⟩

/-- Requests of the transactions 10 and 30 wait, 10 is woken, and another request comes. -/
theorem exec_waiters (startTs : ℕ) :
    Exec Step {}
      [.pushLockWait (waiter 1 10 none) false, .pushLockWait (waiter 2 30 none) false,
        .popForWakingUp [waiter 1 10 (some 0), waiter 2 30 (some 0)] 5 6,
        .pushLockWait (waiter 3 startTs none) false]
      ⟨1, [waiter 3 startTs (some 1), waiter 2 30 (some 0)], 5, 6, some 1, 2,
        [waiter 2 30 (some 0)]⟩ :=
  .cons ⟨rfl, fun _ => rfl⟩ <| .cons ⟨rfl, fun _ => rfl⟩ <|
    .cons ⟨rfl, show IsOrder _ _ by decide⟩ <| .cons ⟨rfl, fun _ => rfl⟩ <| .nil _

/-- The delayed call stops at the request of 20, and 30 is not woken. -/
theorem notify_shielded : ∃ (es : List Event) (s : LockWaitQueues) (order : List LockWaitEntry),
    Exec Step {} es s ∧
    s.delayedNotifyAllState = some 1 ∧ s.IsOrder order ∧ (∀ x ∈ s.queue, x.IsLegacy) ∧
    waiter 2 30 (some 0) ∈ s.waiting ∧ waiter 2 30 (some 0) ∈ s.queue ∧
    (s.delayedNotifyAll order 1).1 = [] :=
  ⟨_, _, [waiter 3 20 (some 1), waiter 2 30 (some 0)], exec_waiters 20, rfl, by decide,
    by decide, by decide, by decide, rfl⟩

/-- A request of 40 does not hide the one of 30. -/
theorem notify_wakes_waiting_younger : ∃ (s : LockWaitQueues) (order woken : List LockWaitEntry),
    (s.delayedNotifyAll order 1).1 = woken.map (fun x => (x, s.conflictError x)) ∧
      waiter 2 30 (some 0) ∈ woken := by
  obtain ⟨-, hwoken⟩ := notify_wakes_waiting (exec_waiters 40) rfl
  obtain ⟨woken, heq, -, hall⟩ :=
    hwoken [waiter 2 30 (some 0), waiter 3 40 (some 1)] (by decide)
  exact ⟨_, _, woken, heq, hall (by decide) _ (by decide) (by decide) (by decide)⟩

end LockWaitQueues

end Tikv.LockWaiting
