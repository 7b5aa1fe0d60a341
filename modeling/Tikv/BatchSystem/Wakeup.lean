import Tikv.BatchSystem.Ownership

/-!
# No message is forgotten

While the mailbox is open, an idle FSM with messages that its last handler did not leave in the
channel is about to be taken: by a sender that has sent and not yet notified, or by the poller that
has released the FSM and not yet compared the length (`Watched.pending`). A message that arrives
before the status is `IDLE` again is seen by this comparison, since the handler chose its number
before; a message that arrives later is followed by a `compare_exchange` that finds `IDLE`.

Together with the one owner of the FSM this gives `wakes_of_exec`.
-/

namespace Tikv.BatchSystem

open Option Mailbox

variable {T M : Type} {s s' : Mailbox T M}

/-- The points that only threads of a closed mailbox reach. -/
def Pc.NeedsClosed : Pc M → Prop
  | .removing _ | .releasing .done | .discarding _ | .closing | .clearing => True
  | _ => False

/-- The FSM is to be released with the given number. -/
def Pc.Releases (pc : Pc M) (expectedLen : ℕ) : Prop :=
  pc = .releasing (.compare expectedLen) ∨ ∃ fsm, pc = .toRelease fsm expectedLen

/-- Some number is to be released with. -/
def Pc.MayRelease : Pc M → Prop
  | .releasing (.compare _) | .toRelease .. => True
  | _ => False

theorem Pc.Releases.mayRelease {pc : Pc M} {n : ℕ} (h : pc.Releases n) : pc.MayRelease := by
  rcases h with rfl | ⟨fsm, rfl⟩ <;> trivial

/-- A thread that tries to take the FSM, or compares the length with the given number first. -/
def Pc.Retries (pc : Pc M) (expectedLen : ℕ) : Prop :=
  pc = .notifying ∨ pc = .checking expectedLen ∨ pc = .retaking

/-- Since the last handler chose what to leave, messages were only added. -/
def Mailbox.Extends (s : Mailbox T M) (expectedLen : ℕ) : Prop :=
  expectedLen = s.expected ∧ expectedLen ≤ s.left.length ∧ s.left <+: s.channel

/-- What holds while the mailbox is open. -/
structure Watched (s : Mailbox T M) : Prop where
  drop : s.status = .drop → s.connected = false
  dropped : s.dropped ≠ 0 → s.connected = false
  closed : ∀ t, (s.pc t).NeedsClosed → s.connected = false
  stopped : ∀ t fsm, (s.pc t).fsm? = some fsm → fsm.stopped → s.connected = false
  slotStopped : ∀ fsm, s.data = some fsm → fsm.stopped → s.connected = false
  queueStopped : ∀ fsm ∈ s.queue, fsm.stopped → s.connected = false
  releases : ∀ t n, (s.pc t).Releases n → s.Extends n
  idle : s.status = .idle → s.connected = true → s.Extends s.expected
  pending : s.status = .idle → s.connected = true →
    s.channel.length = s.expected ∨ ∃ t, (s.pc t).Retries s.expected

theorem watched_new : Watched (new : Mailbox T M) where
  drop := nofun
  dropped h := absurd rfl h
  closed _ := False.elim
  stopped := nofun
  slotStopped fsm hfsm hstopped := by
    obtain rfl := some.inj hfsm
    cases hstopped
  queueStopped := nofun
  releases t n h := by rcases h with h | ⟨fsm, h⟩ <;> cases h
  idle _ _ := ⟨rfl, Nat.le_refl 0, List.prefix_rfl⟩
  pending _ _ := .inl rfl

variable [DecidableEq T]

namespace Watched

section

variable (h : Watched s)
include h

/-- A thread goes on, and the shared state changes as far as the others allow. -/
theorem goto {s₁ : Mailbox T M} {t : T} {pc : Pc M} (hpc : s₁.pc = s.pc)
    (hconnected : s.connected = false → s₁.connected = false)
    (hdrop : s₁.status = .drop → s₁.connected = false)
    (hdropped : s₁.dropped ≠ 0 → s₁.connected = false)
    (hclosed : pc.NeedsClosed → s₁.connected = false)
    (hstopped : ∀ fsm, pc.fsm? = some fsm → fsm.stopped → s₁.connected = false)
    (hslot : ∀ fsm, s₁.data = some fsm → fsm.stopped → s₁.connected = false)
    (hqueue : ∀ fsm ∈ s₁.queue, fsm.stopped → s₁.connected = false)
    (hreleases : ∀ n, pc.Releases n → s₁.Extends n)
    (hother : ∀ u n, u ≠ t → (s.pc u).Releases n → s₁.Extends n)
    (hidle : s₁.status = .idle → s₁.connected = true → s₁.Extends s₁.expected)
    (hpending : s₁.status = .idle → s₁.connected = true → s₁.channel.length = s₁.expected ∨
      ∃ u, ((s₁.goto t pc).pc u).Retries s₁.expected) :
    Watched (s₁.goto t pc) where
  drop := hdrop
  dropped := hdropped
  closed := forall_pc_goto (P := fun pc => pc.NeedsClosed → s₁.connected = false) hclosed
    fun u _ hu => hconnected (h.closed u (hpc ▸ hu))
  stopped := forall_pc_goto
    (P := fun pc => ∀ fsm, pc.fsm? = some fsm → fsm.stopped → s₁.connected = false) hstopped
    fun u _ fsm hu hfsm => hconnected (h.stopped u fsm (hpc ▸ hu) hfsm)
  slotStopped := hslot
  queueStopped := hqueue
  releases := forall_pc_goto (P := fun pc => ∀ n, pc.Releases n → s₁.Extends n) hreleases
    fun u hu n hn => hother u n hu (hpc ▸ hn)
  idle := hidle
  pending := hpending

/-- A thread goes on and nothing else changes. -/
theorem move {t : T} {pc : Pc M} (hclosed : pc.NeedsClosed → s.connected = false)
    (hstopped : ∀ fsm, pc.fsm? = some fsm → fsm.stopped → s.connected = false)
    (hreleases : ∀ n, pc.Releases n → s.Extends n)
    (hpending : s.status = .idle → (s.pc t).Retries s.expected →
      s.channel.length = s.expected ∨ pc.Retries s.expected) : Watched (s.goto t pc) := by
  refine h.goto rfl id h.drop h.dropped hclosed hstopped h.slotStopped h.queueStopped hreleases
    (fun u n _ => h.releases u n) h.idle fun hidle hconnected => ?_
  rcases h.pending hidle hconnected with hlen | ⟨u, hu⟩
  · exact .inl hlen
  · by_cases hut : u = t
    · subst hut
      refine (hpending hidle hu).imp_right fun hpc => ⟨u, ?_⟩
      rwa [goto_pc_self]
    · refine .inr ⟨u, ?_⟩
      rwa [goto_pc_of_ne hut]

/-- The owner of the FSM goes on, and the FSM is not idle: nobody else is to release it. -/
theorem goto_owner {s₁ : Mailbox T M} {t : T} {pc : Pc M}
    (hunique : ∀ u r, (s.pc u).role = some r → u = t) (hpc : s₁.pc = s.pc)
    (hconnected : s₁.connected = s.connected) (hstatus : s₁.status = s.status)
    (hidle : s.status ≠ .idle) (hdropped : s₁.dropped = s.dropped)
    (hclosed : pc.NeedsClosed → s.connected = false)
    (hstopped : ∀ fsm, pc.fsm? = some fsm → fsm.stopped → s.connected = false)
    (hslot : ∀ fsm, s₁.data = some fsm → fsm.stopped → s.connected = false)
    (hqueue : ∀ fsm ∈ s₁.queue, fsm.stopped → s.connected = false)
    (hreleases : ∀ n, pc.Releases n → s₁.Extends n) : Watched (s₁.goto t pc) := by
  refine h.goto hpc (hconnected ▸ id) (hstatus ▸ hconnected ▸ h.drop)
    (hdropped ▸ hconnected ▸ h.dropped) (hconnected ▸ hclosed) (hconnected ▸ hstopped)
    (hconnected ▸ hslot) (hconnected ▸ hqueue) hreleases (fun u n hu hreleases => ?_)
    (fun h => absurd (hstatus ▸ h) hidle) (fun h => absurd (hstatus ▸ h) hidle)
  rcases hreleases with hu' | ⟨fsm, hu'⟩ <;> exact absurd (hunique u _ (by rw [hu']; rfl)) hu

/-- When the mailbox is closed, only the numbers of those that release matter. -/
theorem goto_closed {s₁ : Mailbox T M} {t : T} {pc : Pc M} (hpc : s₁.pc = s.pc)
    (hconnected : s₁.connected = false) (hextends : ∀ n, s.Extends n → s₁.Extends n)
    (hreleases : ¬pc.MayRelease) : Watched (s₁.goto t pc) :=
  h.goto hpc (fun _ => hconnected) (fun _ => hconnected) (fun _ => hconnected) (fun _ => hconnected)
    (fun _ _ _ => hconnected) (fun _ _ _ => hconnected) (fun _ _ _ => hconnected)
    (fun _ hn => absurd hn.mayRelease hreleases) (fun u n _ hn => hextends n (h.releases u n hn))
    (fun _ h => nomatch hconnected.symm.trans h)
    (fun _ h => nomatch hconnected.symm.trans h)

/-- Every step keeps watch. -/
theorem moves {o : Owner T} {e : Event T M} (howned : OwnedBy s o) (hmoves : Moves s e s') :
    Watched s' := by
  have hunique : ∀ {t : T} {r : Role}, (s.pc t).role = some r →
      ∀ u r', (s.pc u).role = some r' → u = t := fun ht u r' hu => howned.eq_of_role ht hu
  have hbusy : ∀ {t : T} {r : Role}, (s.pc t).role = some r → s.status ≠ .idle := by
    intro t r ht hidle
    exact nomatch (howned.idle_iff.mp hidle).symm.trans (howned.eq_thread ht)
  have hnone : ∀ {pc : Pc M} {P : ℕ → Prop}, ¬pc.MayRelease → ∀ n, pc.Releases n → P n :=
    fun hnot n hn => absurd hn.mayRelease hnot
  cases hmoves with
  | send hpc | refused hpc =>
    refine h.move nofun nofun (hnone id) fun _ hretries => ?_
    rw [hpc] at hretries
    rcases hretries with hpc | hpc | hpc <;> cases hpc
  | @push t msg hpc hdropped =>
    have hextends : ∀ n, s.Extends n → s.left <+: s.channel ++ [msg] :=
      fun n hn => hn.2.2.trans (List.prefix_append _ _)
    refine h.goto rfl id h.drop h.dropped nofun nofun h.slotStopped h.queueStopped
      (hnone id) (fun u n _ hn => ?_) (fun hidle hconnected => ?_)
      fun _ _ => .inr ⟨t, ?_⟩
    · have hs := h.releases u n hn
      exact ⟨hs.1, hs.2.1, hextends n hs⟩
    · have hs := h.idle hidle hconnected
      exact ⟨hs.1, hs.2.1, hextends _ hs⟩
    · rw [goto_pc_self]
      exact .inl rfl
  | @take t taker hpc hidle =>
    exact h.goto rfl id nofun h.dropped nofun nofun h.slotStopped h.queueStopped
      (hnone id)
      (fun u n _ => h.releases u n) nofun nofun
  | @notIdle t hpc hidle =>
    exact h.move nofun nofun (hnone id) fun hs => absurd hs hidle
  | @taken t taker fsm pc hpc hdata hnext =>
    have hrole : (s.pc t).role = some .taking := by rw [hpc]; rfl
    have hfsm : pc.fsm? = some fsm.setMailbox := by rcases hnext with rfl | rfl <;> rfl
    refine h.goto_owner (hunique hrole) rfl rfl rfl (hbusy hrole) rfl ?_ ?_ nofun h.queueStopped ?_
    · rcases hnext with rfl | rfl <;> exact False.elim
    · intro fsm' heq hstopped
      obtain rfl := mem_unique hfsm heq
      exact h.slotStopped fsm hdata hstopped
    · rcases hnext with rfl | rfl <;> exact hnone id
  | @schedule t fsm hpc =>
    have hrole : (s.pc t).role = some .held := by rcases hpc with hpc | hpc <;> rw [hpc] <;> rfl
    have hfsm : (s.pc t).fsm? = some fsm := by rcases hpc with hpc | hpc <;> rw [hpc] <;> rfl
    refine h.goto_owner (hunique hrole) rfl rfl rfl (hbusy hrole) rfl nofun nofun h.slotStopped
      (fun fsm' hmem hstopped => ?_) (hnone id)
    rcases List.mem_append.mp hmem with hmem | hmem
    · exact h.queueStopped fsm' hmem hstopped
    · obtain rfl := List.mem_singleton.mp hmem
      exact h.stopped t fsm' hfsm hstopped
  | @fetch t fsm queue hpc hqueue =>
    refine h.goto rfl id h.drop h.dropped nofun (fun fsm' heq hstopped => ?_) h.slotStopped
      (fun fsm' hmem hstopped => ?_)
      (hnone id)
      (fun u n _ => h.releases u n) h.idle fun hidle hconnected => ?_
    · obtain rfl := some.inj heq
      exact h.queueStopped _ (hqueue ▸ List.mem_cons_self) hstopped
    · exact h.queueStopped fsm' (hqueue ▸ List.mem_cons_of_mem _ hmem) hstopped
    · -- the FSM is in the poll queue, so it is not idle
      have hlen := howned.queue
      rw [howned.idle_iff.mp hidle, hqueue] at hlen
      exact absurd hlen (Nat.succ_ne_zero _)
  | @receive t fsm msg channel hpc hchannel =>
    have hrole : (s.pc t).role = some .held := by rw [hpc]; rfl
    refine ⟨h.drop, h.dropped, h.closed, h.stopped, h.slotStopped, h.queueStopped, fun u n hn => ?_,
      fun hidle => absurd hidle (hbusy hrole), fun hidle => absurd hidle (hbusy hrole)⟩
    obtain rfl : u = t := by
      rcases hn with hu | ⟨fsm, hu⟩ <;> exact hunique hrole u _
        (by rw [show s.pc u = _ from hu]; rfl)
    rcases hn with hu | ⟨fsm, hu⟩ <;> exact nomatch hpc.symm.trans hu
  | @leave t fsm expectedLen hpc hlen =>
    have hrole : (s.pc t).role = some .held := by rw [hpc]; rfl
    refine h.goto_owner (hunique hrole) rfl rfl rfl (hbusy hrole) rfl nofun ?_ h.slotStopped
      h.queueStopped fun n hn => ?_
    · intro fsm' heq
      obtain rfl := some.inj heq
      exact h.stopped t fsm (by rw [hpc]; rfl)
    · rcases hn with hn | ⟨fsm', hn⟩ <;> cases hn
      exact ⟨rfl, hlen, List.prefix_rfl⟩
  | @stop t fsm hpc hconnected =>
    exact h.goto_closed rfl hconnected (fun _ => id) id
  | @remove t fsm hpc hstopped =>
    exact h.goto_closed rfl (h.stopped t fsm (by rw [hpc]; rfl) hstopped) (fun _ => id) id
  | keep => exact h
  | @release t fsm next hpc hdata =>
    have hrole : (s.pc t).role = some .held := by
      rcases hpc with ⟨_, -, hpc⟩ | ⟨-, hpc⟩ <;> rw [hpc] <;> rfl
    have hfsm : (s.pc t).fsm? = some fsm := by
      rcases hpc with ⟨_, -, hpc⟩ | ⟨-, hpc⟩ <;> rw [hpc] <;> rfl
    refine h.goto_owner (hunique hrole) rfl rfl rfl (hbusy hrole) rfl ?_ nofun ?_ h.queueStopped ?_
    · rcases hpc with ⟨n, rfl, -⟩ | ⟨rfl, hpc⟩
      · exact False.elim
      · exact fun _ => h.closed t (by rw [hpc]; trivial)
    · intro fsm' heq hstopped
      obtain rfl := some.inj heq
      exact h.stopped t fsm hfsm hstopped
    · intro n hn
      rcases hn with hn | ⟨fsm, hn⟩ <;> cases hn
      rcases hpc with ⟨_, heq, hpc⟩ | ⟨heq, -⟩
      · cases heq
        exact h.releases t n (.inr ⟨fsm, hpc⟩)
      · cases heq
  | @released t next hpc hstatus =>
    cases next with
    | compare n =>
      have hs := h.releases t n (.inl hpc)
      refine h.goto rfl id nofun h.dropped nofun nofun h.slotStopped h.queueStopped
        (hnone id) (fun u n _ => h.releases u n)
        (fun _ _ => ⟨rfl, hs.1 ▸ hs.2.1, hs.2.2⟩) fun _ _ => .inr ⟨t, ?_⟩
      rw [goto_pc_self]
      exact .inr (.inl (congrArg Pc.checking hs.1))
    | done =>
      exact h.goto_closed rfl (h.closed t (by rw [hpc]; trivial)) (fun _ => id) id
  | @wasDropped t next hpc hstatus =>
    exact h.goto_closed rfl (h.drop hstatus) (fun _ => id) id
  | @discard t next hpc =>
    exact h.goto_closed rfl rfl (fun _ => id) (by cases next <;> exact id)
  | @sameLen t expectedLen hpc hlen =>
    refine h.move nofun nofun (hnone id) fun _ hretries => .inl ?_
    rw [hpc] at hretries
    rcases hretries with hpc | hpc | hpc <;> cases hpc
    exact hlen
  | @otherLen t expectedLen hpc hlen =>
    exact h.move nofun nofun (hnone id) fun _ _ => .inr (.inr (.inr rfl))
  | @clearIdle t hpc | @clearTaken t hpc =>
    exact h.goto_closed rfl (h.closed t (by rw [hpc]; trivial)) (fun _ => id) id
  | close | clear => exact h.goto_closed rfl rfl (fun _ => id) id

end

end Watched

/-! ### Runs -/

/-- No thread is in the middle of an operation. -/
def Mailbox.Quiet (s : Mailbox T M) : Prop := ∀ t, ¬(s.pc t).Busy

omit [DecidableEq T] in
/-- In a quiet and open mailbox, an idle FSM has no message but those that its last handler left. -/
theorem Watched.channel_eq_left (h : Watched s) (hconnected : s.connected = true) (hquiet : s.Quiet)
    (hidle : s.status = .idle) : s.channel = s.left ∧ s.channel.length = s.expected := by
  have hextends := h.idle hidle hconnected
  rcases h.pending hidle hconnected with hlen | ⟨t, ht⟩
  · have hle : s.channel.length ≤ s.left.length := hlen ▸ hextends.2.1
    exact ⟨(hextends.2.2.eq_of_length_le hle).symm, hlen⟩
  · refine absurd ?_ (hquiet t)
    rcases ht with ht | ht | ht <;> rw [ht] <;> trivial

/-- In a quiet and open mailbox, an FSM that is not idle is in the poll queue or in a batch. -/
theorem OwnedBy.scheduled {o : Owner T} (h : OwnedBy s o) (hwatched : Watched s)
    (hconnected : s.connected = true) (hquiet : s.Quiet) (hidle : s.status ≠ .idle) :
    s.copies .queue = 1 ∨ ∃ t, s.copies (.thread t) = 1 := by
  cases o with
  | slot => exact absurd (h.idle_iff.mpr rfl) hidle
  | queue => exact .inl h.queue
  | dropped =>
    have hclosed := hwatched.dropped (by rw [h.dropped]; exact Nat.one_ne_zero)
    exact nomatch hconnected.symm.trans hclosed
  | thread t role =>
    have hrole : (s.pc t).role = some role := (h.role t).trans (Owner.roleOf_thread_self t role)
    have hcalm := hquiet t
    refine .inr ⟨t, ?_⟩
    rw [copies]
    cases hpc : s.pc t <;> rw [hpc] at hrole hcalm
    case polling => rfl
    case toRelease => rfl
    all_goals first | exact absurd trivial hcalm | cases hrole

/-- The FSM is at one place, nothing has panicked, and when nobody is in the middle of an operation
an idle FSM of an open mailbox has nothing to do, while one that is not idle is scheduled. -/
structure Mailbox.Sound (s : Mailbox T M) : Prop where
  place : ∃ p, s.copies p = 1 ∧ ∀ q, q ≠ p → s.copies q = 0
  notPanicked : ∀ t, s.pc t ≠ .panicked
  idle : s.connected = true → s.Quiet → s.status = .idle →
    s.channel = s.left ∧ s.channel.length = s.expected
  scheduled : s.connected = true → s.Quiet → s.status ≠ .idle →
    s.copies .queue = 1 ∨ ∃ t, s.copies (.thread t) = 1

/-- **No FSM is lost or doubled and no message is forgotten**, in every run. -/
theorem wakes_of_exec {es : List (Event T M)} (h : Exec Mailbox.Step new es s) :
    s.Sound := by
  classical
  obtain ⟨hinv, hwatched⟩ : Inv s ∧ Watched s := by
    refine h.invariant (I := fun s => Inv s ∧ Watched s) ?_ ⟨inv_new, watched_new⟩
    rintro s e s' ⟨hinv, hwatched⟩ hstep
    obtain ⟨o, howned⟩ := hinv.owned
    exact ⟨hinv.step hstep, hwatched.moves howned (hinv.moves hstep)⟩
  obtain ⟨o, howned⟩ := hinv.owned
  refine ⟨⟨o.place, ?_, fun q hq => ?_⟩, hinv.notPanicked, fun hconnected hquiet =>
    hwatched.channel_eq_left hconnected hquiet, fun hconnected hquiet =>
    howned.scheduled hwatched hconnected hquiet⟩
  · rw [howned.copies_eq, if_pos rfl]
  · rw [howned.copies_eq, if_neg hq]

/-- A message is sent after the handler has chosen to leave nothing and before it releases the FSM:
the sender finds it taken, and the poller takes it again. -/
private def lateMessageEvents : List (Event Bool ℕ) :=
  [.send true 1, .push true, .takeStatus true, .takeData true, .schedule true, .fetch false,
    .receive false, .leave false 0, .send true 2, .push true, .takeStatus true, .releaseData false,
    .releaseStatus false, .checkLen false, .takeStatus false, .takeData false]

theorem wakes_of_exec_lateMessage : ∃ s : Mailbox Bool ℕ,
    Exec Mailbox.Step new lateMessageEvents s ∧ s.channel = [2] ∧
    s.copies (.thread false) = 1 ∧ s.Sound := by
  have hrun : Exec Mailbox.Step (new : Mailbox Bool ℕ) lateMessageEvents _ :=
    .of_foldlM (Eq.refl (some _))
  exact ⟨_, hrun, rfl, rfl, wakes_of_exec hrun⟩

end Tikv.BatchSystem
