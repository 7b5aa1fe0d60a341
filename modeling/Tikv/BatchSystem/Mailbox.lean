import Mathlib.Logic.Function.Basic
import Tikv.Foundation.Execution

/-!
# The mailbox of an FSM

A mailbox has the channel of the messages to an FSM, and an `FsmState`, two atomics (a status and a
pointer) that hold the FSM while nobody works on it. A sender puts its message in the channel and
then takes the FSM, if it is idle, to schedule it to a poller. A poller handles messages and then
releases the FSM, and takes it again if the channel has changed meanwhile.

`Mailbox.step` is one atomic operation of one thread: a `compare_exchange` or a `swap`, a send, a
receive or a read of the length. `Pc` tells between which two operations of which method a thread
is. A thread that is in two of the methods, such as a handler that sends to its own mailbox, counts
as two threads.
-/

namespace Tikv.BatchSystem

/-- The status of an `FsmState`. -/
inductive Status
  /-- `NOTIFYSTATE_NOTIFIED` -/
  | notified
  /-- `NOTIFYSTATE_IDLE` -/
  | idle
  /-- `NOTIFYSTATE_DROP` -/
  | drop
  deriving DecidableEq, Repr

/-- What the batch system asks of an FSM: whether it has its mailbox, and `is_stopped`. -/
structure Fsm where
  hasMailbox : Bool
  stopped : Bool
  deriving DecidableEq, Repr

/-- `set_mailbox`. -/
def Fsm.setMailbox (fsm : Fsm) : Fsm := { fsm with hasMailbox := true }

/-- `take_mailbox`. -/
def Fsm.takeMailbox (fsm : Fsm) : Fsm := { fsm with hasMailbox := false }

/-- Who calls `take_fsm`. -/
inductive Taker
  /-- `notify` -/
  | notifier
  /-- `Batch::release` -/
  | poller
  deriving DecidableEq, Repr

/-- What follows `FsmState::release`: in `Batch::release` the length is compared, in `Batch::remove`
nothing follows. -/
inductive AfterRelease
  | compare (expectedLen : ℕ)
  | done
  deriving DecidableEq, Repr

/-- Where a thread is. -/
inductive Pc (M : Type)
  | idle
  /-- `send`: the sender was connected -/
  | sending (msg : M)
  /-- `notify`: before the `compare_exchange` of `take_fsm` -/
  | notifying
  /-- `take_fsm`: before the `swap` -/
  | taking (taker : Taker)
  /-- `notify`: before `schedule` -/
  | scheduling (fsm : Fsm)
  /-- the FSM is in the batch of the poller -/
  | polling (fsm : Fsm)
  /-- the FSM is in the batch, with the policy `Release(expected_len)` -/
  | toRelease (fsm : Fsm) (expectedLen : ℕ)
  /-- `Batch::remove`: the channel was empty -/
  | removing (fsm : Fsm)
  /-- `FsmState::release`: before the `compare_exchange` -/
  | releasing (next : AfterRelease)
  /-- `FsmState::release`: the status was `DROP`, before the `swap` -/
  | discarding (next : AfterRelease)
  /-- `Batch::release`: before the length is compared -/
  | checking (expectedLen : ℕ)
  /-- `Batch::release`: before the `compare_exchange` of `take_fsm` -/
  | retaking
  /-- `close`: before the `swap` of the status -/
  | closing
  /-- `clear`: the FSM was idle, before the `swap` of the pointer -/
  | clearing
  /-- a panic of `take_fsm` or of `release`, an `unwrap` that fails, or a null pointer in a box -/
  | panicked

/-- The operations. -/
inductive Event (T M : Type)
  | send (t : T) (msg : M)
  | push (t : T)
  | takeStatus (t : T)
  | takeData (t : T)
  | schedule (t : T)
  | fetch (t : T)
  | receive (t : T)
  | leave (t : T) (expectedLen : ℕ)
  | stop (t : T)
  | remove (t : T)
  | releaseData (t : T)
  | releaseStatus (t : T)
  | discard (t : T)
  | checkLen (t : T)
  | closeSender (t : T)
  | clearStatus (t : T)
  | clearData (t : T)

/-- A mailbox with all that works on it: the channel, the status and the pointer of the `FsmState`,
the poll queue as far as this FSM is in it, how often the FSM was dropped, and the threads. The last
handler that let go of the FSM chose to leave `left` in the channel, and to be called again when the
length is not `expected`. -/
structure Mailbox (T M : Type) where
  connected : Bool
  channel : List M
  status : Status
  data : Option Fsm
  queue : List Fsm
  dropped : ℕ
  pc : T → Pc M
  left : List M
  expected : ℕ

namespace Mailbox

variable {T M : Type}

/-- `BasicMailbox::new`. -/
def new : Mailbox T M where
  connected := true
  channel := []
  status := .idle
  data := some ⟨false, false⟩
  queue := []
  dropped := 0
  pc _ := .idle
  left := []
  expected := 0

variable [DecidableEq T] (s : Mailbox T M)

/-- A thread goes on. -/
def goto (t : T) (pc : Pc M) : Mailbox T M :=
  { s with pc := Function.update s.pc t pc }

@[simp]
theorem goto_pc_self (t : T) (pc : Pc M) : (s.goto t pc).pc t = pc :=
  Function.update_self ..

theorem goto_pc_of_ne {t u : T} (h : u ≠ t) (s : Mailbox T M) (pc : Pc M) :
    (s.goto t pc).pc u = s.pc u :=
  Function.update_of_ne h ..

theorem forall_pc_goto {P : Pc M → Prop} {s : Mailbox T M} {t : T} {pc : Pc M} (hpc : P pc)
    (h : ∀ u, u ≠ t → P (s.pc u)) (u : T) : P ((s.goto t pc).pc u) := by
  by_cases hu : u = t
  · subst hu
    rwa [goto_pc_self]
  · rw [goto_pc_of_ne hu]
    exact h u hu

/-- The `compare_exchange` of `take_fsm`. -/
def takeStatus (t : T) (taker : Taker) : Mailbox T M :=
  match s.status with
  | .idle => { s with status := .notified }.goto t (.taking taker)
  | .notified | .drop => s.goto t .idle

/-- The `swap` of `take_fsm`, and what is done with the FSM. -/
def takeData (t : T) (taker : Taker) : Mailbox T M :=
  match s.data with
  | none => s.goto t .panicked
  | some fsm =>
    match taker with
    | .notifier => { s with data := none }.goto t (.scheduling fsm.setMailbox)
    | .poller => { s with data := none }.goto t (.polling fsm.setMailbox)

/-- The first `swap` of `FsmState::release`. -/
def releaseData (t : T) (fsm : Fsm) (next : AfterRelease) : Mailbox T M :=
  match s.data with
  | some _ => { s with data := some fsm }.goto t .panicked
  | none => { s with data := some fsm }.goto t (.releasing next)

/-- Where a thread is after `FsmState::release`. -/
def afterRelease : AfterRelease → Pc M
  | .compare expectedLen => .checking expectedLen
  | .done => .idle

/-- The `compare_exchange` of `FsmState::release`. -/
def releaseStatus (t : T) (next : AfterRelease) : Mailbox T M :=
  match s.status with
  | .notified => { s with status := .idle }.goto t (afterRelease next)
  | .drop => s.goto t (.discarding next)
  | .idle => s.goto t .panicked

/-- The FSM is dropped, and with it the receiver of the channel. -/
def dropFsm : Mailbox T M :=
  { s with data := none, dropped := s.dropped + 1, connected := false }

/-- One operation of one thread, if the thread is there. -/
def step : Event T M → Option (Mailbox T M)
  | .send t msg =>
    match s.pc t with
    | .idle => if s.connected then some (s.goto t (.sending msg)) else none
    | _ => none
  | .push t =>
    match s.pc t with
    | .sending msg =>
      -- without a receiver the channel refuses the message
      if s.dropped = 0 then some ({ s with channel := s.channel ++ [msg] }.goto t .notifying)
      else some (s.goto t .idle)
    | _ => none
  | .takeStatus t =>
    match s.pc t with
    | .notifying => some (s.takeStatus t .notifier)
    | .retaking => some (s.takeStatus t .poller)
    | _ => none
  | .takeData t =>
    match s.pc t with
    | .taking taker => some (s.takeData t taker)
    | _ => none
  | .schedule t =>
    match s.pc t with
    -- `notify`, or the policy `Schedule` of a poller
    | .scheduling fsm | .polling fsm => some ({ s with queue := s.queue ++ [fsm] }.goto t .idle)
    | _ => none
  | .fetch t =>
    match s.pc t, s.queue with
    | .idle, fsm :: queue => some ({ s with queue }.goto t (.polling fsm))
    | _, _ => none
  | .receive t =>
    match s.pc t, s.channel with
    | .polling _, _ :: channel => some { s with channel }
    | _, _ => none
  | .leave t expectedLen =>
    match s.pc t with
    | .polling fsm =>
      if fsm.stopped = false ∧ expectedLen ≤ s.channel.length then
        some ({ s with left := s.channel, expected := expectedLen }.goto t
          (.toRelease fsm expectedLen))
      else none
    | _ => none
  | .stop t =>
    match s.pc t with
    -- a handler stops an FSM only when its mailbox is closed
    | .polling fsm =>
      if s.connected then none else some (s.goto t (.polling { fsm with stopped := true }))
    | _ => none
  | .remove t =>
    match s.pc t with
    | .polling fsm =>
      if fsm.stopped then
        if fsm.hasMailbox then
          if s.channel.isEmpty then some (s.goto t (.removing fsm)) else some s
        else some (s.goto t .panicked)
      else none
    | _ => none
  | .releaseData t =>
    match s.pc t with
    | .toRelease fsm expectedLen =>
      if fsm.hasMailbox then some (s.releaseData t fsm.takeMailbox (.compare expectedLen))
      else some (s.goto t .panicked)
    | .removing fsm => some (s.releaseData t fsm.takeMailbox .done)
    | _ => none
  | .releaseStatus t =>
    match s.pc t with
    | .releasing next => some (s.releaseStatus t next)
    | _ => none
  | .discard t =>
    match s.pc t with
    | .discarding next =>
      match s.data with
      | some _ => some (s.dropFsm.goto t (afterRelease next))
      | none => some (s.goto t .panicked)
    | _ => none
  | .checkLen t =>
    match s.pc t with
    | .checking expectedLen =>
      some (s.goto t (if s.channel.length = expectedLen then .idle else .retaking))
    | _ => none
  | .closeSender t =>
    match s.pc t with
    | .idle => some ({ s with connected := false }.goto t .closing)
    | _ => none
  | .clearStatus t =>
    match s.pc t with
    | .closing =>
      some ({ s with status := .drop }.goto t (if s.status = Status.idle then .clearing else .idle))
    | _ => none
  | .clearData t =>
    match s.pc t with
    | .clearing =>
      match s.data with
      | some _ => some (s.dropFsm.goto t .idle)
      | none => some (s.goto t .idle)
    | _ => none

/-- The runs. -/
def Step (e : Event T M) (s' : Mailbox T M) : Prop := s.step e = some s'

end Mailbox

/-! ### Where the FSM is -/

/-- The FSM that a thread has in its hands. -/
def Pc.fsm? {M : Type} : Pc M → Option Fsm
  | .scheduling fsm | .polling fsm | .toRelease fsm _ | .removing fsm => some fsm
  | _ => none

/-- The places of the FSM. In transit it is with the thread. -/
inductive Place (T : Type)
  | slot
  | thread (t : T)
  | queue
  | dropped

namespace Mailbox

variable {T M : Type}

/-- How often the FSM is at a place. -/
def copies (s : Mailbox T M) : Place T → ℕ
  | .slot => s.data.toList.length
  | .thread t => (s.pc t).fsm?.toList.length
  | .queue => s.queue.length
  | .dropped => s.dropped

end Mailbox

/-- In the middle of an operation: all but the threads that do nothing and the pollers with the FSM
in their batch. -/
def Pc.Busy {M : Type} : Pc M → Prop
  | .idle | .polling _ | .toRelease .. => False
  | _ => True

end Tikv.BatchSystem
