import Mathlib.Algebra.Order.Ring.Int
import Tikv.Foundation.Execution
import Tikv.Foundation.Fallible

/-!
# The leader lease and its remote copies

A leader answers reads by itself as long as its `Lease` is valid. The threads that read have a
`RemoteLease`, an atomic that the lease writes: the bound of the lease, packed into 64 bits. A
remote is written only when the bound has moved far enough, and packing rounds it down, so it may
be behind the lease. It is never ahead of it (**`remote_within_lease`**).

A `Timespec` is the number of its nanoseconds. Its constructor asserts that the nanoseconds of a
second are below `10^9`, so that its fields are quotient and remainder and its order is that of the
numbers.
-/

namespace Tikv.Raftstore

abbrev Timespec := ℤ

/-- The assertions of `timespec_to_u64` and `Timespec::new`, and an `unreachable!`. -/
inductive LeasePanic
  | outOfRange
  | badNsec
  | mustExpireFirst
  deriving DecidableEq, Repr

def nsecPerSec : ℕ := 1000000000

/-- `TIMESPEC_NSEC_SHIFT` -/
def timespecNsecShift : ℕ := 20

/-- `TIMESPEC_SEC_SHIFT` -/
def timespecSecShift : ℕ := 10

/-- What `timespec_to_u64` accepts. -/
def Timespec.InRange (ts : Timespec) : Prop :=
  0 ≤ ts ∧ ts < 2 ^ (64 - timespecSecShift) * nsecPerSec

instance (ts : Timespec) : Decidable ts.InRange := inferInstanceAs (Decidable (_ ∧ _))

def timespecToU64 (ts : Timespec) : Except LeasePanic ℕ :=
  if ts.InRange then
    let sec := ts.toNat / nsecPerSec
    let nsec := ts.toNat % nsecPerSec
    .ok (sec <<< timespecSecShift ||| nsec >>> timespecNsecShift)
  else .error .outOfRange

def u64ToTimespec (u : ℕ) : Except LeasePanic Timespec :=
  let sec := u >>> timespecSecShift
  let nsec := (u % 2 ^ timespecSecShift) <<< timespecNsecShift
  if nsec < nsecPerSec then .ok ((sec * nsecPerSec + nsec : ℕ) : ℤ) else .error .badNsec

inductive LeaseState
  | suspect
  | valid
  | expired
  deriving DecidableEq, Repr

/-- The shared fields of a remote and its clones. -/
structure RemoteLease where
  expiredTime : ℕ
  term : ℕ
  deriving DecidableEq, Repr

def RemoteLease.inspect (r : RemoteLease) (ts : Timespec) : Except LeasePanic LeaseState := do
  let bound ← u64ToTimespec r.expiredTime
  return if ts < bound then .valid else .expired

/-- The two sides of the `Either`. -/
inductive Bound
  | suspect (ts : Timespec)
  | valid (ts : Timespec)
  deriving DecidableEq, Repr

def Bound.ts : Bound → Timespec
  | suspect ts | valid ts => ts

/-- A lease. `old` are the remotes it has taken back, as it has left them: the lease does not write
them any more. -/
structure Lease where
  bound : Option Bound
  maxLease : ℤ
  maxDrift : ℤ
  lastUpdate : Timespec
  remote : Option RemoteLease
  old : List RemoteLease
  deriving DecidableEq, Repr

namespace Lease

/-- `max_drift` is a third of `max_lease`, up to the rounding of `Duration`. -/
def new (maxLease maxDrift : ℤ) : Lease where
  bound := none
  maxLease
  maxDrift
  lastUpdate := 0
  remote := none
  old := []

variable (l : Lease) (sendTs : Timespec)

def nextExpiredTime : Timespec := sendTs + l.maxLease

/-- `Lease::renew` up to the remote. -/
def renewBound : Lease :=
  let bound := l.nextExpiredTime sendTs
  match l.bound with
  | some b => if b.ts ≤ bound then { l with bound := some (.valid bound) } else l
  | none => { l with bound := some (.valid bound) }

/-- `Lease::renew` from there on. -/
def renewRemote : Except LeasePanic Lease :=
  match l.bound with
  | some (.valid bound) =>
    if bound - l.lastUpdate > l.maxDrift then
      match l.remote with
      | some r => do
        let expiredTime ← timespecToU64 bound
        return { l with lastUpdate := bound, remote := some { r with expiredTime } }
      | none => .ok { l with lastUpdate := bound }
    else .ok l
  | _ => .ok l

def renew : Except LeasePanic Lease :=
  (l.renewBound sendTs).renewRemote

def expireRemoteLease : Lease :=
  match l.remote with
  | some r => { l with remote := none, old := l.old ++ [{ r with expiredTime := 0 }] }
  | none => l

def suspect : Lease :=
  { l.expireRemoteLease with bound := some (.suspect (l.nextExpiredTime sendTs)) }

def expire : Lease := { l.expireRemoteLease with bound := none }

def inspect (ts : Timespec) : LeaseState :=
  match l.bound with
  | some (.suspect _) => .suspect
  | some (.valid bound) => if ts < bound then .valid else .expired
  | none => .expired

/-- What a new remote holds. -/
def expiredTime : Except LeasePanic ℕ :=
  match l.bound with
  | some (.valid ts) => timespecToU64 ts
  | _ => .ok 0

def maybeNewRemoteLease (term : ℕ) : Except LeasePanic Lease :=
  match l.remote with
  | some r => if r.term = term then .ok l else .error .mustExpireFirst
  | none => do
    let expiredTime ← l.expiredTime
    return { l with remote := some { expiredTime, term } }

/-- The remotes that have been handed out, in order. -/
def handedOut : List RemoteLease := l.old ++ l.remote.toList

end Lease

inductive LeaseCall
  | renew (sendTs : Timespec)
  | suspect (sendTs : Timespec)
  | expire
  | expireRemoteLease
  | maybeNewRemoteLease (term : ℕ)
  deriving DecidableEq, Repr

namespace Lease

def call (l : Lease) : LeaseCall → Except LeasePanic Lease
  | .renew sendTs => l.renew sendTs
  | .suspect sendTs => .ok (l.suspect sendTs)
  | .expire => .ok l.expire
  | .expireRemoteLease => .ok l.expireRemoteLease
  | .maybeNewRemoteLease term => l.maybeNewRemoteLease term

/-- A bound is within the range, and a new remote is asked for in the term of the last one, or
after that has expired. -/
def Allowed (l : Lease) : LeaseCall → Prop
  | .renew sendTs => (l.nextExpiredTime sendTs).InRange
  | .maybeNewRemoteLease term => ∀ r, l.remote = some r → r.term = term
  | .suspect _ | .expire | .expireRemoteLease => True

/-- The calls that take the remote back. -/
def Revokes : LeaseCall → Prop
  | .suspect _ | .expire | .expireRemoteLease => True
  | .renew _ | .maybeNewRemoteLease _ => False

def Step (l : Lease) (c : LeaseCall) (l' : Lease) : Prop := l.Allowed c ∧ l.call c = .ok l'

end Lease

/-! ### Packing rounds down -/

/-- A time that is packed comes back at most rounded down. -/
theorem timespecToU64_spec {ts : Timespec} (h : ts.InRange) :
    ∃ u t, timespecToU64 ts = .ok u ∧ u64ToTimespec u = .ok t ∧ t ≤ ts := by
  have hnonneg := h.1
  have hts := Nat.div_add_mod ts.toNat nsecPerSec
  have hnsec : ts.toNat % nsecPerSec < nsecPerSec := Nat.mod_lt _ (by decide)
  rw [timespecToU64, if_pos h]
  generalize ts.toNat / nsecPerSec = sec at hts ⊢
  generalize ts.toNat % nsecPerSec = nsec at hts hnsec ⊢
  simp only [nsecPerSec] at hts hnsec
  have hms : nsec >>> timespecNsecShift = nsec / 2 ^ 20 := Nat.shiftRight_eq_div_pow ..
  -- the seconds and the milliseconds do not share a bit
  have hpack : sec <<< timespecSecShift ||| nsec >>> timespecNsecShift =
      sec * 2 ^ 10 + nsec / 2 ^ 20 := by
    rw [← Nat.shiftLeft_add_eq_or_of_lt, Nat.shiftLeft_eq, hms, timespecSecShift]
    rw [timespecSecShift]
    omega
  refine ⟨_, ((sec * nsecPerSec + nsec / 2 ^ 20 * 2 ^ 20 : ℕ) : ℤ), congrArg _ hpack, ?_, ?_⟩
  · have hback : (sec * 2 ^ 10 + nsec / 2 ^ 20) / 2 ^ 10 = sec ∧
        (sec * 2 ^ 10 + nsec / 2 ^ 20) % 2 ^ 10 = nsec / 2 ^ 20 := by omega
    simp only [u64ToTimespec, timespecSecShift, timespecNsecShift, Nat.shiftRight_eq_div_pow,
      Nat.shiftLeft_eq, hback.1, hback.2, nsecPerSec]
    exact if_pos (by omega)
  · have hle : sec * nsecPerSec + nsec / 2 ^ 20 * 2 ^ 20 ≤ ts.toNat := by
      rw [nsecPerSec]
      omega
    exact (Int.ofNat_le.mpr hle).trans_eq (Int.toNat_of_nonneg hnonneg)

theorem RemoteLease.inspect_of_zero {r : RemoteLease} (h : r.expiredTime = 0) {ts : Timespec}
    (hts : ts.InRange) : r.inspect ts = .ok .expired := by
  rw [inspect, h]
  exact congrArg Except.ok (if_neg hts.1.not_gt)

namespace Lease

variable {l l' : Lease} {c : LeaseCall}

/-! ### What a call does -/

/-- A remote is not ahead of a bound: it has expired, or holds the bound of a valid lease, rounded
down. -/
def Within (bound : Option Bound) (expiredTime : ℕ) : Prop :=
  expiredTime = 0 ∨ ∃ b t, bound = some (.valid b) ∧ u64ToTimespec expiredTime = .ok t ∧ t ≤ b

structure Inv (l : Lease) : Prop where
  inRange : ∀ b, l.bound = some (.valid b) → b.InRange
  remote : ∀ r ∈ l.remote, Within l.bound r.expiredTime
  old : ∀ r ∈ l.old, r.expiredTime = 0

theorem inv_new (maxLease maxDrift : ℤ) : (new maxLease maxDrift).Inv where
  inRange := nofun
  remote := nofun
  old := nofun

/-- `renew` leaves the bound or sets it to the new one, which is then not before a valid one. -/
theorem renewBound_spec (l : Lease) (sendTs : Timespec) :
    (l.renewBound sendTs = l ∨
      l.renewBound sendTs = { l with bound := some (.valid (l.nextExpiredTime sendTs)) }) ∧
    ∀ b, l.bound = some (.valid b) →
      ∃ b', (l.renewBound sendTs).bound = some (.valid b') ∧ b ≤ b' := by
  unfold renewBound
  split
  · rename_i b hb
    by_cases hle : b.ts ≤ l.nextExpiredTime sendTs
    · rw [if_pos hle]
      refine ⟨.inr rfl, fun b' hb' => ⟨_, rfl, ?_⟩⟩
      obtain rfl := Option.some.inj (hb.symm.trans hb')
      exact hle
    · rw [if_neg hle]
      exact ⟨.inl rfl, fun b' hb' => ⟨b', hb', le_rfl⟩⟩
  · rename_i hb
    exact ⟨.inr rfl, fun b' hb' => nomatch hb.symm.trans hb'⟩

section

variable (h : l.Inv)
include h

theorem Inv.renewBound {sendTs : Timespec} (hrange : (l.nextExpiredTime sendTs).InRange) :
    (l.renewBound sendTs).Inv ∧ (l.renewBound sendTs).old = l.old := by
  obtain ⟨heq, hle⟩ := renewBound_spec l sendTs
  rcases heq with heq | heq
  · rw [heq]
    exact ⟨h, rfl⟩
  · rw [heq] at hle ⊢
    refine ⟨⟨?_, fun r hr => (h.remote r hr).imp_right ?_, h.old⟩, rfl⟩
    · rintro b hb
      cases hb
      exact hrange
    · rintro ⟨b, t, hb, ht, htb⟩
      obtain ⟨b', hb', hbb'⟩ := hle b hb
      exact ⟨b', t, hb', ht, htb.trans hbb'⟩

/-- What is written to a remote is the bound, rounded down, or nothing. -/
theorem Inv.expiredTime_spec : ∃ u, l.expiredTime = .ok u ∧ Within l.bound u := by
  unfold expiredTime
  split
  · rename_i b hb
    obtain ⟨u, t, hu, ht, hle⟩ := timespecToU64_spec (h.inRange b hb)
    exact ⟨u, hu, .inr ⟨b, t, hb, ht, hle⟩⟩
  · exact ⟨0, rfl, .inl rfl⟩

theorem Inv.setRemote {lastUpdate : Timespec} {r : RemoteLease}
    (hr : Within l.bound r.expiredTime) : { l with lastUpdate, remote := some r }.Inv where
  inRange := h.inRange
  remote _ hr' := Option.some.inj hr' ▸ hr
  old := h.old

theorem Inv.renewRemote :
    ∃ l', l.renewRemote = .ok l' ∧ l'.Inv ∧ l'.bound = l.bound ∧ l'.old = l.old := by
  obtain ⟨u, hu, hwithin⟩ := h.expiredTime_spec
  unfold Lease.renewRemote
  split
  · rename_i bound hbound
    have hu : timespecToU64 bound = .ok u := by rwa [expiredTime, hbound] at hu
    split_ifs
    · split
      · rw [hu]
        exact ⟨_, rfl, h.setRemote hwithin, rfl, rfl⟩
      · exact ⟨_, rfl, { h with }, rfl, rfl⟩
    · exact ⟨l, rfl, h, rfl, rfl⟩
  · exact ⟨l, rfl, h, rfl, rfl⟩

theorem Inv.maybeNewRemoteLease {term : ℕ} (hterm : ∀ r, l.remote = some r → r.term = term) :
    ∃ l', l.maybeNewRemoteLease term = .ok l' ∧ l'.Inv ∧ l'.bound = l.bound ∧ l'.old = l.old := by
  unfold Lease.maybeNewRemoteLease
  cases hremote : l.remote with
  | some r => exact ⟨l, if_pos (hterm r hremote), h, rfl, rfl⟩
  | none =>
    obtain ⟨u, hu, hwithin⟩ := h.expiredTime_spec
    rw [hu]
    exact ⟨_, rfl, h.setRemote (r := ⟨u, term⟩) hwithin, rfl, rfl⟩

/-- What becomes of the bound and of the remotes in a call. -/
structure Moves (l : Lease) (c : LeaseCall) (l' : Lease) : Prop where
  inv : l'.Inv
  bound : ∀ b b', l.bound = some (.valid b) → l'.bound = some (.valid b') → b ≤ b'
  old : l.old.length ≤ l'.old.length
  revoked : Revokes c → l.handedOut.length ≤ l'.old.length

omit h in
/-- A bound that is not a new one does not move. -/
theorem le_of_bound {bound : Option Bound}
    (h : ∀ b, bound = some (.valid b) → l.bound = some (.valid b)) (b b' : Timespec)
    (hb : l.bound = some (.valid b)) (hb' : bound = some (.valid b')) : b ≤ b' :=
  (Bound.valid.inj (Option.some.inj (hb.symm.trans (h b' hb')))).le

omit h in
theorem expireRemoteLease_spec (l : Lease) :
    l.expireRemoteLease.bound = l.bound ∧ l.expireRemoteLease.remote = none ∧
    l.expireRemoteLease.old.length = l.handedOut.length ∧
    ∀ r ∈ l.expireRemoteLease.old, r ∈ l.old ∨ r.expiredTime = 0 := by
  unfold expireRemoteLease handedOut
  cases hremote : l.remote with
  | some r =>
    refine ⟨rfl, rfl, by simp, fun r' hr' => (List.mem_append.mp hr').imp_right fun hr' => ?_⟩
    rw [List.mem_singleton.mp hr']
  | none => exact ⟨rfl, hremote, by simp, fun r hr => .inl hr⟩

theorem Inv.revoked (bound : Option Bound)
    (hbound : ∀ b, bound = some (.valid b) → l.bound = some (.valid b)) :
    Moves l c { l.expireRemoteLease with bound } := by
  obtain ⟨-, hremote, hlen, hold⟩ := expireRemoteLease_spec l
  refine ⟨⟨fun b hb => h.inRange b (hbound b hb), fun r hr => ?_, fun r hr => ?_⟩,
    le_of_bound hbound, ?_, fun _ => hlen.ge⟩
  · exact nomatch hremote.symm.trans hr
  · exact (hold r hr).elim (h.old r) id
  · simp [hlen, handedOut]

/-- **Every call that is allowed goes through**, and moves the lease as it says. -/
theorem Inv.call (hallowed : l.Allowed c) :
    ∃ l', l.call c = .ok l' ∧ Moves l c l' := by
  cases c with
  | renew sendTs =>
    obtain ⟨hinv, hold⟩ := h.renewBound hallowed
    obtain ⟨l', heq, hinv', hbound, hold'⟩ := hinv.renewRemote
    refine ⟨l', heq, hinv', fun b b' hb hb' => ?_, by rw [hold', hold], nofun⟩
    obtain ⟨b'', hb'', hle⟩ := (renewBound_spec l sendTs).2 b hb
    rw [hbound, hb''] at hb'
    cases hb'
    exact hle
  | suspect sendTs | expire => exact ⟨_, rfl, h.revoked _ nofun⟩
  | expireRemoteLease =>
    exact ⟨_, rfl, h.revoked _ fun b hb => (expireRemoteLease_spec l).1 ▸ hb⟩
  | maybeNewRemoteLease term =>
    obtain ⟨l', heq, hinv, hbound, hold⟩ := h.maybeNewRemoteLease hallowed
    exact ⟨l', heq, hinv, le_of_bound fun b hb => hbound ▸ hb, hold.symm ▸ le_rfl, nofun⟩

theorem Inv.step (hstep : Step l c l') : Moves l c l' := by
  obtain ⟨l₁, heq, hmoves⟩ := h.call hstep.1
  obtain rfl := Except.ok.inj (heq.symm.trans hstep.2)
  exact hmoves

/-- A remote that is valid at a time is not ahead of the lease. -/
theorem Inv.inspect {r : RemoteLease} (hr : r ∈ l.handedOut) {ts : Timespec} (hts : ts.InRange) :
    ∃ state, r.inspect ts = .ok state ∧ (state = .valid → l.inspect ts = .valid) := by
  have hwithin : Within l.bound r.expiredTime := by
    rcases List.mem_append.mp hr with hr | hr
    · exact .inl (h.old r hr)
    · exact h.remote r (Option.mem_toList.mp hr)
  rcases hwithin with hzero | ⟨b, t, hb, ht, hle⟩
  · exact ⟨_, RemoteLease.inspect_of_zero hzero hts, nofun⟩
  · refine ⟨if ts < t then .valid else .expired, by rw [RemoteLease.inspect, ht]; rfl, fun hv => ?_⟩
    have hlt : ts < t := by
      by_contra hge
      rw [if_neg hge] at hv
      cases hv
    rw [Lease.inspect, hb]
    exact if_pos (hlt.trans_le hle)

end

/-- **A remote lease never outlives the lease.** After any allowed calls on a new lease: no allowed
call panics; a remote that was ever handed out is valid at a time only if the lease is; after a
call that takes the remote back, no remote handed out before is ever valid again; and a call that
leaves the lease valid does not move its bound backwards. -/
theorem remote_within_lease {maxLease maxDrift : ℤ} {calls : List LeaseCall}
    (h : Exec Step (new maxLease maxDrift) calls l) :
    (∀ c, l.Allowed c → ∃ l', l.call c = .ok l') ∧
    (∀ r ∈ l.handedOut, ∀ ts : Timespec, ts.InRange →
      ∃ state, r.inspect ts = .ok state ∧ (state = .valid → l.inspect ts = .valid)) ∧
    (∀ c l' calls' l'', Revokes c → Step l c l' → Exec Step l' calls' l'' →
      ∀ r ∈ l''.handedOut.take l.handedOut.length, ∀ ts : Timespec, ts.InRange →
        r.inspect ts = .ok .expired) ∧
    ∀ c l' b b', Step l c l' → l.bound = some (.valid b) → l'.bound = some (.valid b') →
      b ≤ b' := by
  have hinv : l.Inv := h.invariant (fun _ _ _ hl hstep => (hl.step hstep).inv) (inv_new ..)
  refine ⟨fun c hc => ?_, fun r hr ts hts => hinv.inspect hr hts,
    fun c l' calls' l'' hc hstep hrun r hr ts hts => ?_,
    fun c l' b b' hstep hb hb' => (hinv.step hstep).bound b b' hb hb'⟩
  · obtain ⟨l', heq, -⟩ := hinv.call hc
    exact ⟨l', heq⟩
  · -- the remotes handed out before stay among those that were taken back
    obtain ⟨hlast, hle⟩ : l''.Inv ∧ l.handedOut.length ≤ l''.old.length := by
      refine hrun.invariant (I := fun l'' => l''.Inv ∧ l.handedOut.length ≤ l''.old.length) ?_
        ⟨(hinv.step hstep).inv, (hinv.step hstep).revoked hc⟩
      rintro l₁ c l₂ ⟨hl₁, hle⟩ hstep
      exact ⟨(hl₁.step hstep).inv, hle.trans (hl₁.step hstep).old⟩
    have hr : r ∈ (l''.old ++ l''.remote.toList).take l.handedOut.length := hr
    rw [List.take_append_of_le_length hle] at hr
    exact RemoteLease.inspect_of_zero (hlast.old r (List.mem_of_mem_take hr)) hts

/-- A lease of ten seconds is renewed, handed out and suspected. -/
theorem remote_within_lease_suspected : ∃ l : Lease,
    Exec Step (new 10000000000 3333333333)
      [.renew 5, .maybeNewRemoteLease 6, .renew 4000000000, .suspect 7] l ∧
    ∀ r ∈ l.handedOut, ∀ ts : Timespec, ts.InRange →
      ∃ state, r.inspect ts = .ok state ∧ (state = .valid → l.inspect ts = .valid) := by
  have hrun : Exec Step (new 10000000000 3333333333)
      [.renew 5, .maybeNewRemoteLease 6, .renew 4000000000, .suspect 7] _ :=
    .cons ⟨show Timespec.InRange (5 + 10000000000) by decide, rfl⟩ <| .cons ⟨nofun, rfl⟩ <|
    .cons ⟨show Timespec.InRange (4000000000 + 10000000000) by decide, rfl⟩ <|
    .cons ⟨trivial, rfl⟩ (.nil _)
  exact ⟨_, hrun, (remote_within_lease hrun).2.1⟩

end Lease

end Tikv.Raftstore
