import Mathlib.Data.Option.Basic
import Tikv.BatchSystem.Mailbox

/-!
# The FSM has one owner

At every moment one place or one thread is responsible for the FSM: the slot, when it is idle, the
poll queue, the batch of a poller, a thread in the middle of `take_fsm`, `release` or `clear`, or
nobody any more, when it was dropped. `OwnedBy` says what the shared state and the threads are like
under each owner. The panics of `take_fsm` and `release` need an owner other than the thread itself,
so no step panics (`Inv.moves`), and every step hands the FSM from one owner to the next
(`OwnedBy.moves`).
-/

namespace Tikv.BatchSystem

open Option Mailbox

variable {T M : Type} {s s' : Mailbox T M}

/-- What a thread is about to do with the FSM. -/
inductive Role
  | taking
  | held
  | releasing
  | discarding
  | clearing
  deriving DecidableEq, Repr

def Pc.role : Pc M → Option Role
  | .taking _ => some .taking
  | .scheduling _ | .polling _ | .toRelease .. | .removing _ => some .held
  | .releasing _ => some .releasing
  | .discarding _ => some .discarding
  | .clearing => some .clearing
  | _ => none

/-- Who is responsible for the FSM. -/
inductive Owner (T : Type)
  | slot
  | queue
  | dropped
  | thread (t : T) (role : Role)

namespace Owner

/-- Whether the pointer to the FSM is in the slot. -/
def inSlot : Owner T → Bool
  | .slot => true
  | .queue | .dropped => false
  | .thread _ role => role ≠ .held

/-- How often the FSM is in the poll queue. -/
def queued : Owner T → ℕ
  | .queue => 1
  | _ => 0

/-- How often the FSM was dropped. -/
def timesDropped : Owner T → ℕ
  | .dropped => 1
  | _ => 0

variable [DecidableEq T]

/-- The role of each thread. -/
def roleOf : Owner T → T → Option Role
  | .thread t role, u => if u = t then some role else none
  | _, _ => none

theorem eq_thread {o : Owner T} {t : T} {role : Role} (h : o.roleOf t = some role) :
    o = .thread t role := by
  cases o with
  | thread u role' =>
    rw [roleOf] at h
    split_ifs at h with hut
    rw [hut, some_injective _ h]
  | _ => cases h

@[simp]
theorem roleOf_thread_self (t : T) (role : Role) : (thread t role).roleOf t = some role :=
  if_pos rfl

theorem roleOf_thread_of_ne {t u : T} (h : u ≠ t) (role : Role) : (thread t role).roleOf u = none :=
  if_neg h

end Owner

open Owner

/-- The shared state and the threads under an owner. -/
structure OwnedBy [DecidableEq T] (s : Mailbox T M) (o : Owner T) : Prop where
  data : s.data.isSome = o.inSlot
  idle_iff : s.status = .idle ↔ o = .slot
  queue : s.queue.length = o.queued
  dropped : s.dropped = o.timesDropped
  role : ∀ t, (s.pc t).role = o.roleOf t

variable [DecidableEq T] {o : Owner T}

namespace OwnedBy

theorem eq_thread (h : OwnedBy s o) {t : T} {r : Role} (hrole : (s.pc t).role = some r) :
    o = .thread t r :=
  Owner.eq_thread ((h.role t).symm.trans hrole)

theorem eq_of_role (h : OwnedBy s o) {t u : T} {role role' : Role}
    (ht : (s.pc t).role = some role) (hu : (s.pc u).role = some role') : u = t := by
  have := (h.eq_thread ht).symm.trans (h.eq_thread hu)
  cases this
  rfl

/-- The pointer is in the slot while a thread takes, releases or drops the FSM. -/
theorem exists_data (h : OwnedBy s o) {t : T} {r : Role} (hrole : (s.pc t).role = some r)
    (hr : r ≠ .held) : ∃ fsm, s.data = some fsm := by
  rw [← isSome_iff_exists, h.data, h.eq_thread hrole]
  exact decide_eq_true hr

theorem idle_iff_of_ne {o' : Owner T} (h : OwnedBy s o) (ho : o ≠ .slot) (ho' : o' ≠ .slot) :
    s.status = .idle ↔ o' = .slot :=
  ⟨fun hidle => absurd (h.idle_iff.mp hidle) ho, fun heq => absurd heq ho'⟩

/-- The owner's next owner is itself or a place that is no thread. -/
theorem goto {s₁ : Mailbox T M} {o' : Owner T} {t : T} {pc : Pc M} (h : OwnedBy s o)
    (hpc : s₁.pc = s.pc) (hdata : s₁.data.isSome = o'.inSlot)
    (hidle : s₁.status = .idle ↔ o' = .slot)
    (hqueue : s₁.queue.length = o'.queued) (hdropped : s₁.dropped = o'.timesDropped)
    (hrole : pc.role = o'.roleOf t) (hother : ∀ u, u ≠ t → o.roleOf u = o'.roleOf u) :
    OwnedBy (s₁.goto t pc) o' where
  data := hdata
  idle_iff := hidle
  queue := hqueue
  dropped := hdropped
  role u := by
    by_cases hu : u = t
    · subst hu
      rw [goto_pc_self, hrole]
    · rw [goto_pc_of_ne hu, hpc, h.role, hother u hu]

/-- A thread that has no role goes to a point where it has none. -/
theorem move {s₁ : Mailbox T M} {t : T} {pc : Pc M} (h : OwnedBy s o) (hpc : s₁.pc = s.pc)
    (hdata : s₁.data = s.data) (hstatus : s₁.status = s.status) (hqueue : s₁.queue = s.queue)
    (hdropped : s₁.dropped = s.dropped) (hrole : (s.pc t).role = pc.role) :
    OwnedBy (s₁.goto t pc) o :=
  h.goto hpc (hdata ▸ h.data) (hstatus ▸ h.idle_iff) (hqueue ▸ h.queue) (hdropped ▸ h.dropped)
    (hrole ▸ h.role t) fun _ _ => rfl

end OwnedBy

/-! ### What a step does -/

/-- The steps that do not panic. -/
inductive Moves (s : Mailbox T M) : Event T M → Mailbox T M → Prop
  | send {t : T} {msg : M} (hpc : s.pc t = .idle) (hconnected : s.connected = true) :
      Moves s (.send t msg) (s.goto t (.sending msg))
  | push {t : T} {msg : M} (hpc : s.pc t = .sending msg) (hdropped : s.dropped = 0) :
      Moves s (.push t) ({ s with channel := s.channel ++ [msg] }.goto t .notifying)
  | refused {t : T} {msg : M} (hpc : s.pc t = .sending msg) (hdropped : s.dropped ≠ 0) :
      Moves s (.push t) (s.goto t .idle)
  | take {t : T} {taker : Taker} (hpc : s.pc t = .notifying ∨ s.pc t = .retaking)
      (hidle : s.status = .idle) :
      Moves s (.takeStatus t) ({ s with status := .notified }.goto t (.taking taker))
  | notIdle {t : T} (hpc : s.pc t = .notifying ∨ s.pc t = .retaking) (hidle : s.status ≠ .idle) :
      Moves s (.takeStatus t) (s.goto t .idle)
  | taken {t : T} {taker : Taker} {fsm : Fsm} {pc : Pc M} (hpc : s.pc t = .taking taker)
      (hdata : s.data = some fsm)
      (hnext : pc = .scheduling fsm.setMailbox ∨ pc = .polling fsm.setMailbox) :
      Moves s (.takeData t) ({ s with data := none }.goto t pc)
  | schedule {t : T} {fsm : Fsm} (hpc : s.pc t = .scheduling fsm ∨ s.pc t = .polling fsm) :
      Moves s (.schedule t) ({ s with queue := s.queue ++ [fsm] }.goto t .idle)
  | fetch {t : T} {fsm : Fsm} {queue : List Fsm} (hpc : s.pc t = .idle)
      (hqueue : s.queue = fsm :: queue) :
      Moves s (.fetch t) ({ s with queue }.goto t (.polling fsm))
  | receive {t : T} {fsm : Fsm} {msg : M} {channel : List M} (hpc : s.pc t = .polling fsm)
      (hchannel : s.channel = msg :: channel) : Moves s (.receive t) { s with channel }
  | leave {t : T} {fsm : Fsm} {expectedLen : ℕ} (hpc : s.pc t = .polling fsm)
      (hlen : expectedLen ≤ s.channel.length) :
      Moves s (.leave t expectedLen)
        ({ s with left := s.channel, expected := expectedLen }.goto t (.toRelease fsm expectedLen))
  | stop {t : T} {fsm : Fsm} (hpc : s.pc t = .polling fsm) (hconnected : s.connected = false) :
      Moves s (.stop t) (s.goto t (.polling { fsm with stopped := true }))
  | remove {t : T} {fsm : Fsm} (hpc : s.pc t = .polling fsm) (hstopped : fsm.stopped = true) :
      Moves s (.remove t) (s.goto t (.removing fsm))
  | keep {t : T} : Moves s (.remove t) s
  | release {t : T} {fsm : Fsm} {next : AfterRelease}
      (hpc : (∃ expectedLen, next = .compare expectedLen ∧ s.pc t = .toRelease fsm expectedLen) ∨
        next = .done ∧ s.pc t = .removing fsm)
      (hdata : s.data = none) :
      Moves s (.releaseData t) ({ s with data := some fsm.takeMailbox }.goto t (.releasing next))
  | released {t : T} {next : AfterRelease} (hpc : s.pc t = .releasing next)
      (hstatus : s.status = .notified) :
      Moves s (.releaseStatus t)
        ({ s with status := .idle }.goto t (afterRelease next))
  | wasDropped {t : T} {next : AfterRelease} (hpc : s.pc t = .releasing next)
      (hstatus : s.status = .drop) : Moves s (.releaseStatus t) (s.goto t (.discarding next))
  | discard {t : T} {next : AfterRelease} (hpc : s.pc t = .discarding next) :
      Moves s (.discard t) (s.dropFsm.goto t (afterRelease next))
  | sameLen {t : T} {expectedLen : ℕ} (hpc : s.pc t = .checking expectedLen)
      (hlen : s.channel.length = expectedLen) : Moves s (.checkLen t) (s.goto t .idle)
  | otherLen {t : T} {expectedLen : ℕ} (hpc : s.pc t = .checking expectedLen)
      (hlen : s.channel.length ≠ expectedLen) : Moves s (.checkLen t) (s.goto t .retaking)
  | close {t : T} (hpc : s.pc t = .idle) :
      Moves s (.closeSender t) ({ s with connected := false }.goto t .closing)
  | clearIdle {t : T} (hpc : s.pc t = .closing) (hidle : s.status = .idle) :
      Moves s (.clearStatus t) ({ s with status := .drop }.goto t .clearing)
  | clearTaken {t : T} (hpc : s.pc t = .closing) (hidle : s.status ≠ .idle) :
      Moves s (.clearStatus t) ({ s with status := .drop }.goto t .idle)
  | clear {t : T} (hpc : s.pc t = .clearing) : Moves s (.clearData t) (s.dropFsm.goto t .idle)

/-- The FSM has an owner, and those that may have to release it have its mailbox. -/
structure Inv (s : Mailbox T M) : Prop where
  owned : ∃ o, OwnedBy s o
  hasMailbox : ∀ t fsm, (s.pc t).fsm? = some fsm → fsm.hasMailbox
  queued : ∀ fsm ∈ s.queue, fsm.hasMailbox
  notPanicked : ∀ t, s.pc t ≠ .panicked

/-- No step panics. -/
theorem Inv.moves {e : Event T M} (h : Inv s) (hstep : s.step e = some s') : Moves s e s' := by
  obtain ⟨o, ho⟩ := h.owned
  cases e with rw [step] at hstep
  | send t msg =>
    split at hstep
    · split_ifs at hstep with hconnected
      cases hstep
      exact .send ‹_› hconnected
    · cases hstep
  | push t =>
    split at hstep
    · split_ifs at hstep with hdropped <;> cases hstep
      · exact .push ‹_› hdropped
      · exact .refused ‹_› hdropped
    · cases hstep
  | takeStatus t =>
    have htake : ∀ {taker}, (s.pc t = .notifying ∨ s.pc t = .retaking) →
        Moves s (.takeStatus t) (s.takeStatus t taker) := by
      intro taker hpc
      rw [takeStatus]
      cases hstatus : s.status with
      | idle => exact .take hpc hstatus
      | notified | drop => exact .notIdle hpc (by rw [hstatus]; nofun)
    split at hstep <;> cases hstep
    · exact htake (.inl ‹_›)
    · exact htake (.inr ‹_›)
  | takeData t =>
    split at hstep <;> cases hstep
    case h_1.refl taker hpc =>
      obtain ⟨fsm, hfsm⟩ := ho.exists_data (r := .taking) (by rw [hpc]; rfl) nofun
      rw [takeData, hfsm]
      cases taker with
      | notifier => exact .taken hpc hfsm (.inl rfl)
      | poller => exact .taken hpc hfsm (.inr rfl)
  | schedule t =>
    split at hstep <;> cases hstep
    · exact .schedule (.inl ‹_›)
    · exact .schedule (.inr ‹_›)
  | fetch t =>
    split at hstep <;> cases hstep
    exact .fetch ‹_› ‹_›
  | receive t =>
    split at hstep <;> cases hstep
    exact .receive ‹_› ‹_›
  | leave t expectedLen =>
    split at hstep
    · split_ifs at hstep with hlen
      cases hstep
      exact .leave ‹_› hlen.2
    · cases hstep
  | stop t =>
    split at hstep
    · split_ifs at hstep with hconnected
      cases hstep
      exact .stop ‹_› (by simpa using hconnected)
    · cases hstep
  | remove t =>
    split at hstep
    case h_1 fsm hpc =>
      have hmailbox := h.hasMailbox t fsm (by rw [hpc]; rfl)
      split_ifs at hstep with hstopped hempty <;> cases hstep
      · exact .remove hpc hstopped
      · exact .keep
    · cases hstep
  | releaseData t =>
    have hnone : (s.pc t).role = some .held → s.data = none := by
      intro hrole
      have hdata : s.data.isSome = false := by rw [ho.data, ho.eq_thread hrole]; rfl
      simpa using hdata
    split at hstep
    case h_1 fsm expectedLen hpc =>
      rw [if_pos (h.hasMailbox t fsm (by rw [hpc]; rfl))] at hstep
      have hdata := hnone (by rw [hpc]; rfl)
      cases hstep
      rw [releaseData, hdata]
      exact .release (.inl ⟨_, rfl, hpc⟩) hdata
    case h_2 fsm hpc =>
      have hdata := hnone (by rw [hpc]; rfl)
      cases hstep
      rw [releaseData, hdata]
      exact .release (.inr ⟨rfl, hpc⟩) hdata
    · cases hstep
  | releaseStatus t =>
    split at hstep <;> cases hstep
    case h_1.refl next hpc =>
      have howner := ho.eq_thread (r := .releasing) (by rw [hpc]; rfl)
      rw [releaseStatus]
      cases hstatus : s.status with
      | notified => exact .released hpc hstatus
      | drop => exact .wasDropped hpc hstatus
      | idle => exact nomatch (ho.idle_iff.mp hstatus).symm.trans howner
  | discard t =>
    split at hstep
    case h_1 next hpc =>
      obtain ⟨fsm, hfsm⟩ := ho.exists_data (r := .discarding) (by rw [hpc]; rfl) nofun
      rw [hfsm] at hstep
      cases hstep
      exact .discard hpc
    · cases hstep
  | checkLen t =>
    split at hstep <;> cases hstep
    split_ifs with hlen
    · exact .sameLen ‹_› hlen
    · exact .otherLen ‹_› hlen
  | closeSender t =>
    split at hstep <;> cases hstep
    exact .close ‹_›
  | clearStatus t =>
    split at hstep <;> cases hstep
    split_ifs with hidle
    · exact .clearIdle ‹_› hidle
    · exact .clearTaken ‹_› hidle
  | clearData t =>
    split at hstep
    case h_1 hpc =>
      obtain ⟨fsm, hfsm⟩ := ho.exists_data (r := .clearing) (by rw [hpc]; rfl) nofun
      rw [hfsm] at hstep
      cases hstep
      exact .clear hpc
    · cases hstep

/-- Every step hands the FSM to its next owner. -/
theorem OwnedBy.moves {e : Event T M} (h : OwnedBy s o) (hmoves : Moves s e s') :
    ∃ o', OwnedBy s' o' := by
  -- the next owner of a thread that has a role is no other thread
  have hother : ∀ {t : T} {r : Role} {o' : Owner T}, o = .thread t r →
      (∀ u, u ≠ t → o'.roleOf u = none) →
      ∀ u, u ≠ t → o.roleOf u = o'.roleOf u := by
    intro t r o' howner hnone u hu
    rw [howner, roleOf_thread_of_ne hu, hnone u hu]
  have hself : ∀ {t : T} {r : Role} (u : T), u ≠ t → (thread t r).roleOf u = none :=
    fun u hu => roleOf_thread_of_ne hu _
  cases hmoves with
  | send hpc | push hpc | refused hpc | leave hpc | stop hpc | remove hpc | sameLen hpc
  | otherLen hpc | close hpc =>
    exact ⟨o, h.move rfl rfl rfl rfl rfl (by rw [hpc]; rfl)⟩
  | @take t taker hpc hidle =>
    obtain rfl := h.idle_iff.mp hidle
    refine ⟨.thread t .taking, h.goto rfl h.data ⟨nofun, nofun⟩ h.queue h.dropped ?_ ?_⟩
    · exact (roleOf_thread_self t .taking).symm
    · exact fun u hu => (hself u hu).symm
  | notIdle hpc hidle =>
    refine ⟨o, h.move rfl rfl rfl rfl rfl ?_⟩
    rcases hpc with hpc | hpc <;> rw [hpc] <;> rfl
  | @taken t taker fsm pc hpc hdata hnext =>
    obtain rfl := h.eq_thread (r := .taking) (by rw [hpc]; rfl)
    refine ⟨.thread t .held, h.goto rfl rfl ?_ h.queue h.dropped ?_
      (hother rfl hself)⟩
    · exact h.idle_iff_of_ne nofun nofun
    · rw [roleOf_thread_self]
      rcases hnext with rfl | rfl <;> rfl
  | @schedule t fsm hpc =>
    obtain rfl := h.eq_thread (r := .held) (by rcases hpc with hpc | hpc <;> rw [hpc] <;> rfl)
    refine ⟨.queue, h.goto rfl h.data ?_ ?_ h.dropped rfl
      (hother rfl fun _ _ => rfl)⟩
    · exact h.idle_iff_of_ne nofun nofun
    · rw [List.length_append, h.queue]
      rfl
  | @fetch t fsm queue hpc hqueue =>
    have hlen := h.queue
    rw [hqueue] at hlen
    obtain rfl : o = .queue := by
      cases o with
      | queue => rfl
      | _ => exact absurd hlen (Nat.succ_ne_zero _)
    refine ⟨.thread t .held, h.goto rfl h.data ?_ (Nat.succ.inj hlen) h.dropped
      (roleOf_thread_self t _).symm ?_⟩
    · exact h.idle_iff_of_ne nofun nofun
    · intro u hu
      rw [hself u hu]
      rfl
  | receive hpc hchannel => exact ⟨o, h.data, h.idle_iff, h.queue, h.dropped, h.role⟩
  | keep => exact ⟨o, h⟩
  | @release t fsm next hpc hdata =>
    obtain rfl := h.eq_thread (t := t) (r := .held)
      (by rcases hpc with ⟨_, -, hpc⟩ | ⟨-, hpc⟩ <;> rw [hpc] <;> rfl)
    refine ⟨.thread t .releasing, h.goto rfl rfl ?_ h.queue h.dropped
      (roleOf_thread_self t _).symm (hother rfl hself)⟩
    exact h.idle_iff_of_ne nofun nofun
  | @released t next hpc hstatus =>
    obtain rfl := h.eq_thread (r := .releasing) (by rw [hpc]; rfl)
    refine ⟨.slot, h.goto rfl h.data ⟨fun _ => rfl, fun _ => rfl⟩ h.queue
      h.dropped ?_ (hother rfl fun _ _ => rfl)⟩
    cases next <;> rfl
  | @wasDropped t next hpc hstatus =>
    obtain rfl := h.eq_thread (r := .releasing) (by rw [hpc]; rfl)
    refine ⟨.thread t .discarding, h.goto rfl h.data ?_ h.queue
      h.dropped (roleOf_thread_self t _).symm (hother rfl hself)⟩
    exact ⟨fun hidle => absurd (hstatus.symm.trans hidle) nofun, nofun⟩
  | @discard t next hpc =>
    obtain rfl := h.eq_thread (r := .discarding) (by rw [hpc]; rfl)
    refine ⟨.dropped, h.goto rfl rfl ?_ h.queue ?_ ?_ (hother rfl fun _ _ => rfl)⟩
    · exact h.idle_iff_of_ne nofun nofun
    · rw [dropFsm, h.dropped]
      rfl
    · cases next <;> rfl
  | @clearIdle t hpc hidle =>
    obtain rfl := h.idle_iff.mp hidle
    refine ⟨.thread t .clearing, h.goto rfl h.data ⟨nofun, nofun⟩ h.queue h.dropped ?_ ?_⟩
    · exact (roleOf_thread_self t .clearing).symm
    · exact fun u hu => (hself u hu).symm
  | @clearTaken t hpc hidle =>
    refine ⟨o, h.goto rfl h.data ⟨nofun, fun hslot => absurd (h.idle_iff.mpr hslot) hidle⟩ h.queue
      h.dropped ?_ fun _ _ => rfl⟩
    rw [← h.role, hpc]
    rfl
  | @clear t hpc =>
    obtain rfl := h.eq_thread (r := .clearing) (by rw [hpc]; rfl)
    refine ⟨.dropped, h.goto rfl rfl ?_ h.queue ?_ rfl (hother rfl fun _ _ => rfl)⟩
    · exact h.idle_iff_of_ne nofun nofun
    · rw [dropFsm, h.dropped]
      rfl

/-- **Every step keeps the invariant.** -/
theorem Inv.step {e : Event T M} (h : Inv s) (hstep : s.step e = some s') : Inv s' := by
  have hmoves := h.moves hstep
  obtain ⟨o, ho⟩ := h.owned
  have hmailbox : ∀ {t : T} {pc : Pc M}, (∀ fsm, pc.fsm? = some fsm → fsm.hasMailbox) →
      ∀ u fsm, ((s.goto t pc).pc u).fsm? = some fsm → fsm.hasMailbox := fun hpc =>
    forall_pc_goto (P := fun pc => ∀ fsm, pc.fsm? = some fsm → fsm.hasMailbox) hpc
      fun u _ => h.hasMailbox u
  have hpanicked : ∀ {t : T} {pc : Pc M}, pc ≠ .panicked → ∀ u, (s.goto t pc).pc u ≠ .panicked :=
    fun hpc => forall_pc_goto (P := (· ≠ .panicked)) hpc fun u _ => h.notPanicked u
  have howned := ho.moves hmoves
  cases hmoves with
  | send | push | refused | take | notIdle | release | wasDropped | sameLen | otherLen | close
  | clearIdle | clearTaken | clear => exact ⟨howned, hmailbox nofun, h.queued, hpanicked nofun⟩
  | taken hpc hdata hnext =>
    rcases hnext with rfl | rfl <;>
      exact ⟨howned, hmailbox fun fsm hfsm => some.inj hfsm ▸ rfl, h.queued, hpanicked nofun⟩
  | @schedule t fsm hpc =>
    have hfsm : fsm.hasMailbox :=
      h.hasMailbox t fsm (by rcases hpc with hpc | hpc <;> rw [hpc] <;> rfl)
    refine ⟨howned, hmailbox nofun, fun fsm' hmem => ?_, hpanicked nofun⟩
    rcases List.mem_append.mp hmem with hmem | hmem
    · exact h.queued fsm' hmem
    · exact List.mem_singleton.mp hmem ▸ hfsm
  | @fetch t fsm queue hpc hqueue =>
    have hqueued : ∀ fsm' ∈ fsm :: queue, fsm'.hasMailbox := hqueue ▸ h.queued
    exact ⟨howned, hmailbox fun fsm' hfsm => some.inj hfsm ▸ hqueued fsm (.head _),
      fun fsm' hmem => hqueued fsm' (List.mem_cons_of_mem _ hmem), hpanicked nofun⟩
  | receive => exact ⟨howned, h.hasMailbox, h.queued, h.notPanicked⟩
  | @leave t fsm _ hpc | @stop t fsm hpc | @remove t fsm hpc =>
    have hfsm := h.hasMailbox t fsm (by rw [hpc]; rfl)
    exact ⟨howned, hmailbox fun fsm' heq => some.inj heq ▸ hfsm, h.queued, hpanicked nofun⟩
  | keep => exact h
  | @released _ next | @discard _ next =>
    cases next <;> exact ⟨howned, hmailbox nofun, h.queued, hpanicked nofun⟩

theorem inv_new : Inv (new : Mailbox T M) where
  owned := ⟨.slot, rfl, ⟨fun _ => rfl, fun _ => rfl⟩, rfl, rfl, fun _ => rfl⟩
  hasMailbox := nofun
  queued := nofun
  notPanicked := nofun

/-- Where the FSM is under an owner. -/
def Owner.place : Owner T → Place T
  | .slot => .slot
  | .queue => .queue
  | .dropped => .dropped
  | .thread t .held => .thread t
  | .thread _ _ => .slot

/-- The FSM is at the place of its owner, once, and nowhere else. -/
theorem OwnedBy.copies_eq (h : OwnedBy s o) (p : Place T) [Decidable (p = o.place)] :
    s.copies p = if p = o.place then 1 else 0 := by
  cases p with
  | slot =>
    have hlen : s.data.toList.length = if o.inSlot then 1 else 0 := by
      rw [← h.data]
      cases s.data <;> rfl
    rw [copies, hlen]
    cases o with
    | thread t role => cases role <;> simp [inSlot, place]
    | _ => simp [inSlot, place]
  | thread t =>
    have hlen : (s.pc t).fsm?.toList.length = if (s.pc t).role = some .held then 1 else 0 := by
      cases s.pc t <;> rfl
    rw [copies, hlen, h.role]
    cases o with
    | thread u role =>
      cases role <;> by_cases hu : t = u <;> simp [roleOf, place]
    | _ => simp [roleOf, place]
  | queue =>
    rw [copies, h.queue]
    cases o with
    | thread t role => cases role <;> simp [queued, place]
    | _ => simp [queued, place]
  | dropped =>
    rw [copies, h.dropped]
    cases o with
    | thread t role => cases role <;> simp [timesDropped, place]
    | _ => simp [timesDropped, place]

end Tikv.BatchSystem
