import Mathlib.Algebra.Order.Group.Multiset
import Mathlib.Tactic.Abel
import Tikv.Raftstore.AdminCmd

/-!
# The peers of a region and the raft configuration

A change of the peers is applied to the roles of the peers in the region, one change after the
other; the raft configuration is computed from the roles (`confStateFromRegion`). A single change is
made at once. Several changes enter the joint state: a voter that is added is an incoming voter and
one that becomes a learner is a demoting voter until the joint state is left.

On the side of raft a configuration is changed as a whole (`RaftConfig.simple`, `enterJoint`,
`leaveJoint`). The two agree (**`confState_applyConfChange`**), because the peers that leave a role
and those that take it are counted by the changes (`balance_applyConfChange`), each of them being on
a store of its own.
-/

namespace Tikv.Raftstore

open List

universe u

variable {K : Type u}

/-! ### The configuration of a region -/

/-- `ConfState`. -/
structure ConfState where
  voters : List ℕ := []
  votersOutgoing : List ℕ := []
  learners : List ℕ := []
  learnersNext : List ℕ := []

/-- One round of the loop of `conf_state_from_region`, with the flag of the joint state. -/
def ConfState.addPeer (s : ConfState × Bool) (p : Peer) : ConfState × Bool :=
  let (conf, inJoint) := s
  match p.role with
  | .voter =>
    ({ conf with
      voters := conf.voters ++ [p.id]
      votersOutgoing := conf.votersOutgoing ++ [p.id] }, inJoint)
  | .learner => ({ conf with learners := conf.learners ++ [p.id] }, inJoint)
  | .incomingVoter => ({ conf with voters := conf.voters ++ [p.id] }, true)
  | .demotingVoter =>
    ({ conf with
      votersOutgoing := conf.votersOutgoing ++ [p.id]
      learnersNext := conf.learnersNext ++ [p.id] }, true)

/-- `conf_state_from_region`. -/
def confStateFromRegion (region : Region K) : ConfState :=
  let (conf, inJoint) := region.peers.foldl ConfState.addPeer ({}, false)
  if !inJoint then { conf with votersOutgoing := [] } else conf

/-! ### The configuration on the side of raft -/

/-- A raft configuration: which peers vote, and which do in the configuration that is being left. -/
@[ext] structure RaftConfig where
  voters : Multiset ℕ
  votersOutgoing : Multiset ℕ
  learners : Multiset ℕ
  learnersNext : Multiset ℕ

def ConfState.config (conf : ConfState) : RaftConfig where
  voters := conf.voters
  votersOutgoing := conf.votersOutgoing
  learners := conf.learners
  learnersNext := conf.learnersNext

/-- What changes of the peers ask for. -/
structure AskedChanges where
  promoted : Multiset ℕ
  demoted : Multiset ℕ
  addedVoters : Multiset ℕ
  addedLearners : Multiset ℕ
  removedVoters : Multiset ℕ
  removedLearners : Multiset ℕ

namespace RaftConfig

/-- The configuration after a change that is made at once. -/
def simple (config : RaftConfig) (asked : AskedChanges) : RaftConfig where
  voters := config.voters - (asked.demoted + asked.removedVoters) +
    (asked.promoted + asked.addedVoters)
  votersOutgoing := 0
  learners := config.learners - (asked.promoted + asked.removedLearners) +
    (asked.demoted + asked.addedLearners)
  learnersNext := 0

/-- The joint configuration: the old voters are the outgoing ones, and a demoted voter becomes a
learner only when the joint configuration is left. -/
def enterJoint (config : RaftConfig) (asked : AskedChanges) : RaftConfig where
  voters := config.voters - asked.demoted + (asked.promoted + asked.addedVoters)
  votersOutgoing := config.voters
  learners := config.learners - (asked.promoted + asked.removedLearners) + asked.addedLearners
  learnersNext := asked.demoted

def leaveJoint (config : RaftConfig) : RaftConfig where
  voters := config.voters
  votersOutgoing := 0
  learners := config.learners + config.learnersNext
  learnersNext := 0

end RaftConfig

open RaftConfig

/-- The role of the peer that the region has on the store of a change. -/
def roleOn (region : Region K) (c : ChangePeerRequest) : Option PeerRole :=
  (region.findPeer c.peer.storeId).map (·.role)

/-- The ids of the peers of the changes that meet the condition. -/
def idsWhere (changes : List ChangePeerRequest) (p : ChangePeerRequest → Bool) : Multiset ℕ :=
  (changes.filter p).map (·.peer.id)

/-- The changes whose type is `t` and that find the role `role` on their store. -/
def idsOf (region : Region K) (changes : List ChangePeerRequest) (t : ConfChangeType)
    (role : Option PeerRole) : Multiset ℕ :=
  idsWhere changes fun c => c.changeType = t ∧ roleOn region c = role

/-- What the changes ask for, by what the region has on their stores. -/
def askedChanges (region : Region K) (changes : List ChangePeerRequest) : AskedChanges where
  promoted := idsOf region changes .addNode (some .learner)
  demoted := idsOf region changes .addLearnerNode (some .voter)
  addedVoters := idsOf region changes .addNode none
  addedLearners := idsOf region changes .addLearnerNode none
  removedVoters := idsOf region changes .removeNode (some .voter)
  removedLearners := idsOf region changes .removeNode (some .learner)

/-! ### Peers by role -/

/-- The ids of the peers with a role. -/
def byRole (peers : List Peer) (role : PeerRole) : Multiset ℕ :=
  (peers.filter (·.role = role)).map (·.id)

/-- The id, if the condition holds. -/
def idIf (p : Prop) [Decidable p] (id : ℕ) : Multiset ℕ := if p then {id} else 0

@[simp] theorem idIf_none (role : PeerRole) (id : ℕ) : idIf (none = some role) id = 0 := rfl

theorem idIf_some (role role' : PeerRole) (id : ℕ) :
    idIf (some role = some role') id = idIf (role = role') id := by
  simp only [Option.some.injEq]

theorem byRole_cons (p : Peer) (peers : List Peer) (role : PeerRole) :
    byRole (p :: peers) role = idIf (p.role = role) p.id + byRole peers role := by
  rw [byRole, filter_cons, idIf]
  by_cases h : p.role = role
  · rw [if_pos (decide_eq_true h), if_pos h]
    rfl
  · rw [if_neg (by simpa using h), if_neg h]
    rfl

@[simp] theorem byRole_nil (role : PeerRole) : byRole [] role = 0 := rfl

theorem byRole_append (peers peers' : List Peer) (role : PeerRole) :
    byRole (peers ++ peers') role = byRole peers role + byRole peers' role := by
  rw [byRole, filter_append, map_append]
  rfl

variable {peers : List Peer} {p : Peer}

/-- Where a peer is found: to change or to erase the first peer that meets the condition is to do so
there. -/
theorem exists_split_of_find? {q : Peer → Bool} (h : peers.find? q = some p) :
    ∃ as bs, peers = as ++ p :: bs ∧ (∀ f, modifyFirst q f peers = as ++ f p :: bs) ∧
      peers.eraseP q = as ++ bs := by
  obtain ⟨hp, as, bs, rfl, has⟩ := find?_eq_some_iff_append.mp h
  have has' : ∀ a ∈ as, ¬ q a = true := fun a ha => by simpa using has a ha
  refine ⟨as, bs, rfl, fun f => ?_, ?_⟩
  · clear h has
    induction as with
    | nil => exact if_pos hp
    | cons a as ih =>
      rw [forall_mem_cons] at has'
      rw [cons_append, modifyFirst, if_neg has'.1, ih has'.2, cons_append]
  · rw [eraseP_append_right _ has', eraseP_cons_of_pos hp]

/-! ### One change -/

/-- The role after a change. -/
def nextRole (kind : ConfChangeKind) (old : Option PeerRole) (t : ConfChangeType) :
    Option PeerRole :=
  match t with
  | .addNode => if kind = .simple then some .voter else some .incomingVoter
  | .addLearnerNode =>
    if kind ≠ .simple ∧ old = some .voter then some .demotingVoter else some .learner
  | .removeNode => none

/-- The changes that are accepted for what is on their store. -/
inductive Accepted (kind : ConfChangeKind) : Option PeerRole → ConfChangeType → Prop
  | addVoter : Accepted kind none .addNode
  | addLearner : Accepted kind none .addLearnerNode
  | promote : Accepted kind (some .learner) .addNode
  | demote : Accepted kind (some .voter) .addLearnerNode
  | removeLearner : Accepted kind (some .learner) .removeNode
  | removeVoter (h : kind ≠ .enterJoint) : Accepted kind (some .voter) .removeNode

variable {kind : ConfChangeKind} {original region region' : Region K} {c : ChangePeerRequest}
  {changes : List ChangePeerRequest}

/-- What an accepted change does: its peer leaves one role and takes another, and nothing changes on
the other stores. -/
structure ChangeApplied (kind : ConfChangeKind) (region region' : Region K)
    (c : ChangePeerRequest) : Prop where
  accepted : Accepted kind (roleOn region c) c.changeType
  id : ∀ p, region.findPeer c.peer.storeId = some p → p.id = c.peer.id
  balance : ∀ role, byRole region'.peers role + idIf (roleOn region c = some role) c.peer.id =
    byRole region.peers role +
      idIf (nextRole kind (roleOn region c) c.changeType = some role) c.peer.id
  other : ∀ s, s ≠ c.peer.storeId → region'.findPeer s = region.findPeer s

/-- A peer is added where the store has none. -/
theorem applied_pushPeer {role : PeerRole} (hnone : region.findPeer c.peer.storeId = none)
    (haccepted : Accepted kind none c.changeType)
    (hrole : nextRole kind none c.changeType = some role) :
    ChangeApplied kind region (region.pushPeer { c.peer with role }) c := by
  have hroleOn : roleOn region c = none := by rw [roleOn, hnone]; rfl
  refine ⟨hroleOn ▸ haccepted, fun p hp => ?_, fun r => ?_, fun s hs => ?_⟩
  · rw [hnone] at hp
    cases hp
  · rw [hroleOn, hrole, Region.pushPeer, byRole_append, byRole_cons, byRole_nil, idIf_none,
      idIf_some, add_zero, add_zero]
  · have hne : (c.peer.storeId == s) = false := beq_eq_false_iff_ne.mpr hs.symm
    rw [Region.findPeer, Region.pushPeer, find?_append, find?_cons]
    rw [hne, find?_nil, Option.or_none, Region.findPeer]

section

variable {as bs : List Peer} {role : PeerRole}
  (hsome : region.findPeer c.peer.storeId = some p) (hid : p.id = c.peer.id)
  (haccepted : Accepted kind (some p.role) c.changeType)
include hsome hid haccepted

/-- The peer on the store of a change leaves its role, and those in its place take theirs. -/
theorem applied_replace (new : List Peer) (hold : region.peers = as ++ p :: bs)
    (hnew : region'.peers = as ++ (new ++ bs)) (hstore : ∀ a ∈ new, a.storeId = p.storeId)
    (hroles : ∀ role, byRole new role =
      idIf (nextRole kind (some p.role) c.changeType = some role) c.peer.id) :
    ChangeApplied kind region region' c := by
  have hroleOn : roleOn region c = some p.role := by rw [roleOn, hsome]; rfl
  refine ⟨hroleOn ▸ haccepted, fun q hq => Option.mem_unique hsome hq ▸ hid,
    fun r => ?_, fun s hs => ?_⟩
  · rw [hroleOn, hold, hnew, byRole_append, byRole_append, byRole_append, byRole_cons, hroles, hid,
      idIf_some]
    abel
  · have hp : p.storeId = c.peer.storeId := by simpa using find?_some hsome
    have hnone : new.find? (·.storeId == s) = none := by
      rw [find?_eq_none]
      intro a ha has
      exact hs ((beq_iff_eq.mp has).symm.trans ((hstore a ha).trans hp))
    rw [Region.findPeer, Region.findPeer, hold, hnew, find?_append, find?_append,
      find?_append, hnone, Option.none_or,
      find?_cons_of_neg (by simpa using fun h => hs (h.symm.trans hp))]

theorem applied_setRole (hrole : nextRole kind (some p.role) c.changeType = some role) :
    ChangeApplied kind region (region.setRole c.peer.storeId role) c := by
  obtain ⟨as, bs, hold, hmodify, -⟩ := exists_split_of_find? hsome
  refine applied_replace hsome hid haccepted [{ p with role }] hold (hmodify _) (by simp)
    fun r => ?_
  rw [byRole_cons, byRole_nil, add_zero, hrole, idIf_some, hid]

theorem applied_removePeer (htype : c.changeType = .removeNode) :
    ChangeApplied kind region (region.removePeer c.peer.storeId) c := by
  obtain ⟨as, bs, hold, -, herase⟩ := exists_split_of_find? hsome
  refine applied_replace hsome hid haccepted [] hold herase nofun fun r => ?_
  rw [byRole_nil, htype, nextRole, idIf_none]

end

/-- A change that goes through does what `ChangeApplied` says. -/
theorem applyChangePeer_applied (hkind : kind ≠ .leaveJoint)
    (h : applyChangePeer kind original region c = .ok region') :
    ChangeApplied kind region region' c := by
  have hrole : ∀ {simple enterJoint role}, kind.role simple enterJoint =
      (.ok role : Except (Failure K) PeerRole) →
      role = if kind = .simple then simple else enterJoint := by
    intro simple enterJoint role hr
    cases kind with
    | simple | enterJoint => exact (Except.ok.inj hr).symm
    | leaveJoint => exact absurd rfl hkind
  unfold applyChangePeer at h
  dsimp only at h
  split at h
  · next hfind htype =>
    obtain ⟨role, hr, rfl⟩ := map_eq_ok.mp h
    obtain rfl := hrole hr
    refine applied_pushPeer hfind (htype ▸ .addVoter) ?_
    rw [htype, nextRole]
    split <;> rfl
  · next hfind htype =>
    obtain rfl := Except.ok.inj h
    refine applied_pushPeer hfind (htype ▸ .addLearner) ?_
    rw [htype, nextRole, if_neg (fun h => nomatch h.2)]
  · exact absurd h (by simp)
  · next p hfind =>
    split_ifs at h with hjoint hremove hvoter hpeer hdup
    · -- The peer is removed as the request shows it.
      obtain rfl := not_ne_iff.mp hpeer
      obtain rfl := Except.ok.inj h
      refine applied_removePeer hfind rfl ?_ hremove
      rw [hremove]
      cases hp : c.peer.role with
      | voter => exact .removeVoter fun hk => hvoter ⟨hk, hp⟩
      | learner => exact .removeLearner
      | incomingVoter => exact absurd (.inl hp) hjoint
      | demotingVoter => exact absurd (.inr hp) hjoint
    · -- The peer is there with the other role.
      have hid : p.id = c.peer.id := not_ne_iff.mp fun hne => hdup (.inl hne)
      split at h
      · next hp htype =>
        obtain ⟨role, hr, rfl⟩ := map_eq_ok.mp h
        obtain rfl := hrole hr
        refine applied_setRole hfind hid (by rw [hp, htype]; exact .demote) ?_
        rw [hp, htype, nextRole]
        by_cases hsimple : kind = .simple
        · rw [if_pos hsimple, if_neg fun h => h.1 hsimple]
        · rw [if_neg hsimple, if_pos ⟨hsimple, rfl⟩]
      · next hp htype =>
        obtain ⟨role, hr, rfl⟩ := map_eq_ok.mp h
        obtain rfl := hrole hr
        refine applied_setRole hfind hid (by rw [hp, htype]; exact .promote) ?_
        rw [htype, nextRole]
        split <;> rfl
      · cases h

/-! ### All the changes -/

theorem idsWhere_cons (c : ChangePeerRequest) (changes : List ChangePeerRequest)
    (p : ChangePeerRequest → Bool) :
    idsWhere (c :: changes) p = idIf (p c = true) c.peer.id + idsWhere changes p := by
  rw [idsWhere, filter_cons, idIf]
  split
  · rfl
  · rw [zero_add]
    rfl

theorem idsWhere_congr {p q : ChangePeerRequest → Bool} (h : ∀ c ∈ changes, p c = q c) :
    idsWhere changes p = idsWhere changes q := by
  rw [idsWhere, filter_congr h, idsWhere]

/-- The ids of changes of two disjoint kinds. -/
theorem idsWhere_add {p q r : ChangePeerRequest → Bool}
    (h : ∀ c ∈ changes, p c = (q c || r c) ∧ ¬ (q c = true ∧ r c = true)) :
    idsWhere changes p = idsWhere changes q + idsWhere changes r := by
  induction changes with
  | nil => rfl
  | cons c changes ih =>
    obtain ⟨hc, hdisjoint⟩ := h c mem_cons_self
    have hid : idIf (p c = true) c.peer.id =
        idIf (q c = true) c.peer.id + idIf (r c = true) c.peer.id := by
      rw [hc]
      cases hq : q c with
      | false => rw [Bool.false_or]; exact (zero_add _).symm
      | true =>
        have hr : r c = false := Bool.eq_false_iff.mpr fun hr => hdisjoint ⟨hq, hr⟩
        rw [hr]
        rfl
    rw [idsWhere_cons, idsWhere_cons, idsWhere_cons, hid,
      ih fun c' hc' => h c' (mem_cons_of_mem _ hc')]
    abel

/-- Of the peers with a role, those that leave it and those that take it are counted by the
changes. -/
theorem balance_applyConfChange (hkind : kind ≠ .leaveJoint)
    (hstores : (changes.map (·.peer.storeId)).Nodup)
    (h : changes.foldlM (applyChangePeer kind original) region = .ok region') :
    (∀ c ∈ changes, Accepted kind (roleOn region c) c.changeType) ∧
    (∀ c ∈ changes, ∀ p, region.findPeer c.peer.storeId = some p → p.id = c.peer.id) ∧
    ∀ role, byRole region'.peers role + idsWhere changes (fun c => roleOn region c = some role) =
      byRole region.peers role +
        idsWhere changes (fun c => nextRole kind (roleOn region c) c.changeType = some role) := by
  induction changes generalizing region with
  | nil =>
    obtain rfl := Except.ok.inj h
    exact ⟨nofun, nofun, fun _ => rfl⟩
  | cons c changes ih =>
    rw [map_cons, nodup_cons] at hstores
    rw [foldlM_cons, bind_eq_ok] at h
    obtain ⟨region₁, happly, h⟩ := h
    have happlied := applyChangePeer_applied hkind happly
    obtain ⟨haccepted, hid, hbalance⟩ := ih hstores.2 h
    -- The later changes are on other stores.
    have hfind : ∀ c' ∈ changes,
        region₁.findPeer c'.peer.storeId = region.findPeer c'.peer.storeId := fun c' hc' =>
      happlied.other _ fun heq => hstores.1 (heq ▸ mem_map_of_mem hc')
    have hother : ∀ c' ∈ changes, roleOn region₁ c' = roleOn region c' := fun c' hc' => by
      rw [roleOn, hfind c' hc', roleOn]
    refine ⟨?_, ?_, ?_⟩
    · intro c' hc'
      rcases mem_cons.mp hc' with rfl | hc''
      · exact happlied.accepted
      · exact hother c' hc'' ▸ haccepted c' hc''
    · intro c' hc'
      rcases mem_cons.mp hc' with rfl | hc''
      · exact happlied.id
      · exact hfind c' hc'' ▸ hid c' hc''
    · intro role
      have hout : idsWhere changes (fun c => roleOn region₁ c = some role) =
          idsWhere changes fun c => roleOn region c = some role :=
        idsWhere_congr fun c' hc' => by rw [hother c' hc']
      have hin : idsWhere changes (fun c =>
            nextRole kind (roleOn region₁ c) c.changeType = some role) =
          idsWhere changes fun c => nextRole kind (roleOn region c) c.changeType = some role :=
        idsWhere_congr fun c' hc' => by rw [hother c' hc']
      have h₁ := happlied.balance role
      have h₂ := hbalance role
      rw [hout, hin] at h₂
      rw [idsWhere_cons, idsWhere_cons]
      simp only [decide_eq_true_eq]
      calc byRole region'.peers role + (idIf (roleOn region c = some role) c.peer.id +
              idsWhere changes fun c => roleOn region c = some role)
          = (byRole region'.peers role + idsWhere changes fun c => roleOn region c = some role) +
              idIf (roleOn region c = some role) c.peer.id := by abel
        _ = (byRole region₁.peers role + idIf (roleOn region c = some role) c.peer.id) +
              idsWhere changes fun c =>
                nextRole kind (roleOn region c) c.changeType = some role := by rw [h₂]; abel
        _ = _ := by rw [h₁]; abel

/-! ### The configuration by roles -/

/-- The region is in the joint state. -/
def InJoint (region : Region K) : Prop :=
  ∃ p ∈ region.peers, p.role = .incomingVoter ∨ p.role = .demotingVoter

/-- The configuration with the peers `peers` besides. -/
def RaftConfig.addPeers (config : RaftConfig) (peers : List Peer) : RaftConfig where
  voters := config.voters + (byRole peers .voter + byRole peers .incomingVoter)
  votersOutgoing := config.votersOutgoing + (byRole peers .voter + byRole peers .demotingVoter)
  learners := config.learners + byRole peers .learner
  learnersNext := config.learnersNext + byRole peers .demotingVoter

theorem config_addPeer (conf : ConfState) (inJoint : Bool) (p : Peer) :
    (ConfState.addPeer (conf, inJoint) p).1.config = conf.config.addPeers [p] := by
  cases hp : p.role <;>
    simp [ConfState.addPeer, ConfState.config, addPeers, byRole_cons, hp, idIf,
      ← Multiset.coe_add]

theorem RaftConfig.addPeers_cons (config : RaftConfig) (p : Peer) (peers : List Peer) :
    config.addPeers (p :: peers) = (config.addPeers [p]).addPeers peers := by
  rw [addPeers, addPeers, addPeers]
  simp only [byRole_cons]
  congr 1 <;> abel

theorem foldl_addPeer (peers : List Peer) (conf : ConfState) (inJoint : Bool) :
    (peers.foldl ConfState.addPeer (conf, inJoint)).1.config = conf.config.addPeers peers ∧
    (peers.foldl ConfState.addPeer (conf, inJoint)).2 =
      (inJoint || peers.any fun p => p.role = .incomingVoter ∨ p.role = .demotingVoter) := by
  induction peers generalizing conf inJoint with
  | nil =>
    refine ⟨?_, (Bool.or_false _).symm⟩
    rw [addPeers]
    simp only [byRole_nil, add_zero]
    rfl
  | cons p peers ih =>
    obtain ⟨hconf, hjoint⟩ := ih (ConfState.addPeer (conf, inJoint) p).1
      (ConfState.addPeer (conf, inJoint) p).2
    refine ⟨?_, ?_⟩
    · rw [addPeers_cons, ← config_addPeer conf inJoint p]
      exact hconf
    · refine Eq.trans hjoint ?_
      cases hp : p.role <;> simp [ConfState.addPeer, hp]

theorem exists_role_of_mem {role : PeerRole} {id : ℕ} (h : id ∈ byRole peers role) :
    ∃ p ∈ peers, p.role = role := by
  obtain ⟨p, hp, -⟩ := mem_map.mp (Multiset.mem_coe.mp h)
  obtain ⟨hmem, hrole⟩ := mem_filter.mp hp
  exact ⟨p, hmem, of_decide_eq_true hrole⟩

theorem byRole_eq_zero_of_not_inJoint (h : ¬ InJoint region) {role : PeerRole}
    (hrole : role = .incomingVoter ∨ role = .demotingVoter) : byRole region.peers role = 0 := by
  refine Multiset.eq_zero_of_forall_notMem fun id hid => ?_
  obtain ⟨p, hp, rfl⟩ := exists_role_of_mem hid
  exact h ⟨p, hp, hrole⟩

theorem any_joint_iff : (region.peers.any fun p =>
    p.role = .incomingVoter ∨ p.role = .demotingVoter) = true ↔ InJoint region := by
  simp only [any_eq_true, decide_eq_true_eq, InJoint]

/-- In the joint state incoming and demoting voters count on one side each. -/
theorem config_of_inJoint (h : InJoint region) :
    (confStateFromRegion region).config = {
      voters := byRole region.peers .voter + byRole region.peers .incomingVoter
      votersOutgoing := byRole region.peers .voter + byRole region.peers .demotingVoter
      learners := byRole region.peers .learner
      learnersNext := byRole region.peers .demotingVoter } := by
  obtain ⟨hconf, hjoint⟩ := foldl_addPeer region.peers {} false
  rw [Bool.false_or, any_joint_iff.mpr h] at hjoint
  rw [confStateFromRegion]
  dsimp only
  rw [hjoint, Bool.not_true, if_neg Bool.false_ne_true, hconf, addPeers]
  simp only [ConfState.config, Multiset.coe_nil, zero_add]

/-- Out of the joint state there are only voters and learners. -/
theorem config_of_not_inJoint (h : ¬ InJoint region) :
    (confStateFromRegion region).config = {
      voters := byRole region.peers .voter
      votersOutgoing := 0
      learners := byRole region.peers .learner
      learnersNext := 0 } := by
  obtain ⟨hconf, hjoint⟩ := foldl_addPeer region.peers {} false
  rw [Bool.false_or, Bool.eq_false_iff.mpr (mt any_joint_iff.mp h)] at hjoint
  have hempty : ∀ role, role = .incomingVoter ∨ role = .demotingVoter →
      byRole region.peers role = 0 := fun _ => byRole_eq_zero_of_not_inJoint h
  have hconf' := RaftConfig.ext_iff.mp hconf
  rw [confStateFromRegion]
  dsimp only
  rw [hjoint, Bool.not_false]
  refine RaftConfig.ext ?_ rfl ?_ ?_
  · exact hconf'.1.trans (by simp [RaftConfig.addPeers, ConfState.config, hempty])
  · exact hconf'.2.2.1.trans (by simp [RaftConfig.addPeers, ConfState.config])
  · exact hconf'.2.2.2.trans (by simp [RaftConfig.addPeers, ConfState.config, hempty])

/-! ### Changes and the configuration -/

/-- Some change is about a voter. -/
def TouchesVoters (region : Region K) (changes : List ChangePeerRequest) : Prop :=
  ∃ c ∈ changes, c.changeType = .addNode ∨ roleOn region c = some .voter

theorem not_inJoint_iff : ¬ InJoint region ↔
    ∀ p ∈ region.peers, p.role = .voter ∨ p.role = .learner := by
  simp only [InJoint, not_exists, not_and]
  refine forall₂_congr fun p _ => ?_
  cases p.role <;> simp

theorem mem_idsOf {t : ConfChangeType} {o : Option PeerRole} (hc : c ∈ changes)
    (ht : c.changeType = t) (ho : roleOn region c = o) : c.peer.id ∈ idsOf region changes t o :=
  Multiset.mem_coe.mpr (mem_map_of_mem
    (mem_filter.mpr ⟨hc, decide_eq_true ⟨ht, ho⟩⟩))

section Accepted

variable {P : Option PeerRole → ConfChangeType → Bool}
  (haccepted : ∀ c ∈ changes, Accepted kind (roleOn region c) c.changeType)
include haccepted

theorem idsWhere_two (t t' : ConfChangeType) (o o' : Option PeerRole)
    (h : ∀ old u, Accepted kind old u →
      P old u = (decide (u = t ∧ old = o) || decide (u = t' ∧ old = o')) ∧
      ¬ (decide (u = t ∧ old = o) = true ∧ decide (u = t' ∧ old = o') = true) := by
        rintro _ _ ⟨⟩ <;> decide) :
    idsWhere changes (fun c => P (roleOn region c) c.changeType) =
      idsOf region changes t o + idsOf region changes t' o' :=
  idsWhere_add fun c hc => h _ _ (haccepted c hc)

theorem idsWhere_one {t : ConfChangeType} {o : Option PeerRole}
    (h : ∀ old u, Accepted kind old u → P old u = decide (u = t ∧ old = o) := by
      rintro _ _ ⟨⟩ <;> decide) :
    idsWhere changes (fun c => P (roleOn region c) c.changeType) = idsOf region changes t o :=
  idsWhere_congr fun c hc => h _ _ (haccepted c hc)

theorem idsWhere_zero
    (h : ∀ old u, Accepted kind old u → P old u = false := by rintro _ _ ⟨⟩ <;> decide) :
    idsWhere changes (fun c => P (roleOn region c) c.changeType) = 0 := by
  rw [idsWhere, filter_eq_nil_iff.mpr]
  · rfl
  · intro c hc
    rw [h _ _ (haccepted c hc)]
    exact Bool.false_ne_true

end Accepted

section

variable (hstores : (changes.map (·.peer.storeId)).Nodup)
  (hid : ∀ c ∈ changes, ∀ p, region.findPeer c.peer.storeId = some p → p.id = c.peer.id)
  (role : PeerRole)
include hstores hid role

/-- The peers that changes on different stores find with a role, which are different peers. -/
theorem exists_found :
    ∃ found : List Peer, found.Nodup ∧ found ⊆ region.peers.filter (·.role = role) ∧
      (∀ p ∈ found, p.storeId ∈ changes.map (·.peer.storeId)) ∧
      found.map (·.id) =
        (changes.filter fun c => roleOn region c = some role).map (·.peer.id) := by
  induction changes with
  | nil => exact ⟨[], .nil, nil_subset _, nofun, rfl⟩
  | cons c changes ih =>
    rw [map_cons, nodup_cons] at hstores
    obtain ⟨found, hnodup, hsub, hin, hids⟩ := ih hstores.2 fun c' hc' =>
      hid c' (mem_cons_of_mem _ hc')
    by_cases hrole : roleOn region c = some role
    · obtain ⟨p, hfind, rfl⟩ := Option.map_eq_some_iff.mp hrole
      have hstore : p.storeId = c.peer.storeId := beq_iff_eq.mp
        (find?_some (p := fun q : Peer => q.storeId == c.peer.storeId) hfind)
      refine ⟨p :: found, nodup_cons.mpr ⟨fun hp => ?_, hnodup⟩, ?_, ?_, ?_⟩
      · exact hstores.1 (hstore ▸ hin p hp)
      · exact cons_subset.mpr ⟨mem_filter.mpr
          ⟨mem_of_find?_eq_some hfind, decide_eq_true rfl⟩, hsub⟩
      · intro q hq
        rcases mem_cons.mp hq with rfl | hq'
        · exact hstore ▸ mem_cons_self
        · exact mem_cons_of_mem _ (hin q hq')
      · rw [filter_cons, if_pos (decide_eq_true hrole), map_cons, map_cons, hids,
          hid c mem_cons_self p hfind]
    · refine ⟨found, hnodup, hsub, fun q hq => ?_, ?_⟩
      · rw [map_cons]
        exact mem_cons_of_mem _ (hin q hq)
      · rw [filter_cons_of_neg (by simpa using hrole), hids]

theorem idsWhere_le_byRole :
    idsWhere changes (fun c => roleOn region c = some role) ≤ byRole region.peers role := by
  obtain ⟨found, hnodup, hsub, -, hids⟩ := exists_found hstores hid role
  rw [idsWhere, ← hids]
  exact Multiset.map_le_map (f := Peer.id) (Multiset.coe_le.mpr (hnodup.subperm hsub))

end

theorem eq_tsub_add {a b x y : Multiset ℕ} (h : y + a = x + b) (hle : a ≤ x) : y = x - a + b := by
  refine add_right_cancel (b := a) ?_
  rw [h, add_right_comm, Multiset.sub_add_cancel hle]

/-- The changes were accepted one after the other. -/
structure AllApplied (kind : ConfChangeKind) (region region' : Region K)
    (changes : List ChangePeerRequest) : Prop where
  accepted : ∀ c ∈ changes, Accepted kind (roleOn region c) c.changeType
  le : ∀ role, idsWhere changes (fun c => roleOn region c = some role) ≤ byRole region.peers role
  balance : ∀ role,
    byRole region'.peers role + idsWhere changes (fun c => roleOn region c = some role) =
      byRole region.peers role +
        idsWhere changes (fun c => nextRole kind (roleOn region c) c.changeType = some role)

theorem allApplied_of_ok (hkind : kind ≠ .leaveJoint)
    (hstores : (changes.map (·.peer.storeId)).Nodup)
    (h : applyConfChange kind region changes = .ok region') :
    AllApplied kind region region' changes ∧
      region'.regionEpoch.confVer = region.regionEpoch.confVer + changes.length := by
  obtain ⟨region₁, hfold, rfl⟩ := map_eq_ok.mp h
  obtain ⟨haccepted, hid, hbalance⟩ := balance_applyConfChange hkind hstores hfold
  have hepoch := foldlM_regionEpoch (fun _ _ _ => applyChangePeer_regionEpoch) hfold
  refine ⟨⟨haccepted, idsWhere_le_byRole hstores hid, hbalance⟩, ?_⟩
  rw [← hepoch]
  rfl

theorem not_inJoint_of_byRole (hincoming : byRole region.peers .incomingVoter = 0)
    (hdemoting : byRole region.peers .demotingVoter = 0) : ¬ InJoint region := by
  rintro ⟨p, hp, hrole⟩
  have hmem : ∀ role, p.role = role → p.id ∈ byRole region.peers role := fun role heq =>
    Multiset.mem_coe.mpr (mem_map_of_mem (mem_filter.mpr ⟨hp, decide_eq_true heq⟩))
  rcases hrole with hrole | hrole
  · have := hmem _ hrole
    rw [hincoming] at this
    exact Multiset.notMem_zero _ this
  · have := hmem _ hrole
    rw [hdemoting] at this
    exact Multiset.notMem_zero _ this

section Config

variable (h : AllApplied kind region region' changes)
include h

theorem AllApplied.out_voter : idsWhere changes (fun c => roleOn region c = some .voter) =
    idsOf region changes .addLearnerNode (some .voter) +
      idsOf region changes .removeNode (some .voter) :=
  idsWhere_two (P := fun old _ => old = some .voter) h.accepted _ _ _ _

theorem AllApplied.out_learner : idsWhere changes (fun c => roleOn region c = some .learner) =
    idsOf region changes .addNode (some .learner) +
      idsOf region changes .removeNode (some .learner) :=
  idsWhere_two (P := fun old _ => old = some .learner) h.accepted _ _ _ _

theorem AllApplied.out_joint {role : PeerRole}
    (hrole : role = .incomingVoter ∨ role = .demotingVoter) :
    idsWhere changes (fun c => roleOn region c = some role) = 0 :=
  idsWhere_zero (P := fun old _ => old = some role) h.accepted (by
    rcases hrole with rfl | rfl <;> rintro _ _ ⟨⟩ <;> decide)

end Config

/-- A single change of roles is the single change of the configuration. -/
theorem config_simple (hjoint : ¬ InJoint region) (h : AllApplied .simple region region' changes) :
    (confStateFromRegion region').config =
      (confStateFromRegion region).config.simple (askedChanges region changes) := by
  have hvoters := eq_tsub_add (h.balance .voter) (h.le .voter)
  have hlearners := eq_tsub_add (h.balance .learner) (h.le .learner)
  rw [h.out_voter, idsWhere_two (P := fun old u => nextRole .simple old u = some .voter) h.accepted
    .addNode .addNode (some .learner) none] at hvoters
  rw [h.out_learner, idsWhere_two (P := fun old u => nextRole .simple old u = some .learner)
    h.accepted .addLearnerNode .addLearnerNode (some .voter) none] at hlearners
  have hzero : ∀ role, role = .incomingVoter ∨ role = .demotingVoter →
      byRole region'.peers role = 0 := by
    intro role hrole
    have hbalance := h.balance role
    rwa [h.out_joint hrole, byRole_eq_zero_of_not_inJoint hjoint hrole,
      idsWhere_zero (P := fun old u => nextRole .simple old u = some role) h.accepted
        (by rcases hrole with rfl | rfl <;> rintro _ _ ⟨⟩ <;> decide), add_zero,
      add_zero] at hbalance
  rw [config_of_not_inJoint hjoint, config_of_not_inJoint
    (not_inJoint_of_byRole (hzero _ (.inl rfl)) (hzero _ (.inr rfl))), hvoters, hlearners]
  rfl

/-- Several changes of roles are the joint change of the configuration. -/
theorem config_enterJoint (hjoint : ¬ InJoint region) (htouches : TouchesVoters region changes)
    (h : AllApplied .enterJoint region region' changes) :
    InJoint region' ∧ (confStateFromRegion region').config =
      (confStateFromRegion region).config.enterJoint (askedChanges region changes) := by
  -- No voter is removed, and the old voters stay or are demoted.
  have hvoters := h.balance .voter
  rw [idsWhere_one (t := .addLearnerNode) (o := some .voter) (P := fun old _ => old = some .voter)
      h.accepted (by rintro _ _ (_ | _ | _ | _ | _ | hk) <;> first | decide | exact absurd rfl hk),
    idsWhere_zero (P := fun old u => nextRole .enterJoint old u = some .voter) h.accepted,
    add_zero] at hvoters
  have hlearners := eq_tsub_add (h.balance .learner) (h.le .learner)
  rw [h.out_learner, idsWhere_one (t := .addLearnerNode) (o := none)
    (P := fun old u => nextRole .enterJoint old u = some .learner) h.accepted] at hlearners
  have hincoming := h.balance .incomingVoter
  rw [h.out_joint (.inl rfl), byRole_eq_zero_of_not_inJoint hjoint (.inl rfl),
    idsWhere_two (P := fun old u => nextRole .enterJoint old u = some .incomingVoter) h.accepted
      .addNode .addNode (some .learner) none, add_zero, zero_add] at hincoming
  have hdemoting := h.balance .demotingVoter
  rw [h.out_joint (.inr rfl), byRole_eq_zero_of_not_inJoint hjoint (.inr rfl),
    idsWhere_one (t := .addLearnerNode) (o := some .voter)
      (P := fun old u => nextRole .enterJoint old u = some .demotingVoter) h.accepted,
    add_zero, zero_add] at hdemoting
  have hin : InJoint region' := by
    obtain ⟨c, hc, htouches⟩ := htouches
    have hacc := h.accepted c hc
    rcases htouches with htype | hrole
    · -- A voter is added or promoted.
      have hmem : c.peer.id ∈ byRole region'.peers .incomingVoter := by
        rw [hincoming, Multiset.mem_add]
        rw [htype] at hacc
        cases hold : roleOn region c with
        | none => exact .inr (mem_idsOf hc htype hold)
        | some role =>
          rw [hold] at hacc
          cases hacc
          exact .inl (mem_idsOf hc htype hold)
      obtain ⟨p, hp, hrole⟩ := exists_role_of_mem hmem
      exact ⟨p, hp, .inl hrole⟩
    · -- A voter is demoted; it cannot be removed.
      rw [hrole] at hacc
      have htype : c.changeType = .addLearnerNode := by
        generalize c.changeType = t at hacc
        cases hacc with
        | demote => rfl
        | removeVoter hk => exact absurd rfl hk
      obtain ⟨p, hp, hrole⟩ := exists_role_of_mem (hdemoting ▸ mem_idsOf hc htype hrole)
      exact ⟨p, hp, .inr hrole⟩
  refine ⟨hin, ?_⟩
  rw [config_of_not_inJoint hjoint, config_of_inJoint hin, hlearners, hincoming, hdemoting, hvoters,
    RaftConfig.enterJoint]
  refine RaftConfig.ext ?_ rfl rfl rfl
  change _ = byRole region.peers .voter - idsOf region changes .addLearnerNode (some .voter) + _
  rw [← hvoters, Multiset.add_sub_cancel_right]
  rfl

/-! ### Leaving the joint state -/

/-- Whether the role of the peer changes when the joint state is left. -/
def changesOnLeaving (p : Peer) : Bool := (leaveJoint p).role ≠ p.role

theorem changesOnLeaving_eq (p : Peer) :
    changesOnLeaving p = decide (p.role = .incomingVoter ∨ p.role = .demotingVoter) := by
  rw [changesOnLeaving, leaveJoint]
  cases hp : p.role <;> simp [hp]

theorem byRole_map_leaveJoint (peers : List Peer) :
    byRole (peers.map leaveJoint) .voter = byRole peers .voter + byRole peers .incomingVoter ∧
    byRole (peers.map leaveJoint) .learner = byRole peers .learner + byRole peers .demotingVoter ∧
    byRole (peers.map leaveJoint) .incomingVoter = 0 ∧
    byRole (peers.map leaveJoint) .demotingVoter = 0 := by
  induction peers with
  | nil => exact ⟨rfl, rfl, rfl, rfl⟩
  | cons p peers ih =>
    obtain ⟨hvoter, hlearner, hincoming, hdemoting⟩ := ih
    rw [map_cons]
    simp only [byRole_cons, hvoter, hlearner, hincoming, hdemoting]
    cases hp : p.role <;> simp [leaveJoint, hp, idIf]

/-- Leaving the joint state makes the incoming configuration the only one. -/
theorem applyLeaveJoint_of_inJoint (h : InJoint region) :
    ∃ region', applyLeaveJoint region = .ok region' ∧
      (confStateFromRegion region').config = (confStateFromRegion region).config.leaveJoint ∧
      region'.regionEpoch.confVer =
        region.regionEpoch.confVer + region.peers.countP changesOnLeaving := by
  have hnum : region.peers.countP (fun p => p.role = .incomingVoter ∨ p.role = .demotingVoter) =
      region.peers.countP changesOnLeaving :=
    countP_congr fun p _ => by rw [changesOnLeaving_eq]
  have hpos : region.peers.countP changesOnLeaving ≠ 0 := by
    obtain ⟨p, hp, hrole⟩ := h
    rw [← hnum]
    exact (countP_pos_iff.mpr ⟨p, hp, decide_eq_true hrole⟩).ne'
  obtain ⟨hvoter, hlearner, hincoming, hdemoting⟩ := byRole_map_leaveJoint region.peers
  refine ⟨_, by rw [applyLeaveJoint, hnum, if_neg hpos], ?_, rfl⟩
  rw [config_of_inJoint h, config_of_not_inJoint (not_inJoint_of_byRole hincoming hdemoting)]
  exact RaftConfig.ext hvoter rfl hlearner rfl

/-- **Roles and the raft configuration stay in step.** Changes on different stores that are accepted
for a region that is not in the joint state change the configuration as raft does: a single change
at once, several changes by entering the joint configuration, which is left without a panic. The
conf version counts the changes, and on leaving the peers whose roles change. -/
theorem confState_applyConfChange (hjoint : ¬ InJoint region) (hne : changes ≠ [])
    (hstores : (changes.map (·.peer.storeId)).Nodup)
    (htouches : 1 < changes.length → TouchesVoters region changes)
    (h : applyConfChange (.confchangeKind changes.length) region changes = .ok region') :
    region'.regionEpoch.confVer = region.regionEpoch.confVer + changes.length ∧
    (changes.length = 1 → (confStateFromRegion region').config =
      (confStateFromRegion region).config.simple (askedChanges region changes)) ∧
    (1 < changes.length → (confStateFromRegion region').config =
        (confStateFromRegion region).config.enterJoint (askedChanges region changes) ∧
      ∃ region'', applyLeaveJoint region' = .ok region'' ∧
        (confStateFromRegion region'').config = (confStateFromRegion region').config.leaveJoint ∧
        region''.regionEpoch.confVer =
          region'.regionEpoch.confVer + region'.peers.countP changesOnLeaving) := by
  have hlength : changes.length ≠ 0 := fun h => hne (length_eq_zero_iff.mp h)
  rcases Nat.lt_or_ge 1 changes.length with hmany | hone
  · have hkind : ConfChangeKind.confchangeKind changes.length = .enterJoint := by
      obtain ⟨n, hn⟩ : ∃ n, changes.length = n + 2 := ⟨changes.length - 2, by omega⟩
      rw [hn]
      rfl
    rw [hkind] at h
    obtain ⟨happlied, hconfVer⟩ := allApplied_of_ok (by decide) hstores h
    obtain ⟨hin, hconfig⟩ := config_enterJoint hjoint (htouches hmany) happlied
    exact ⟨hconfVer, fun h1 => absurd h1 hmany.ne',
      fun _ => ⟨hconfig, applyLeaveJoint_of_inJoint hin⟩⟩
  · have h1 : changes.length = 1 := by omega
    rw [h1] at h
    obtain ⟨happlied, hconfVer⟩ := allApplied_of_ok (by decide) hstores h
    exact ⟨hconfVer, fun _ => config_simple hjoint happlied, fun hmany => absurd h1 hmany.ne'⟩

/-- A region with two voters and a learner. -/
def threePeers : Region ℕ where
  id := 1
  startKey := 0
  endKey := 0
  regionEpoch := ⟨3, 1⟩
  peers := [⟨11, 1, .voter, false⟩, ⟨12, 2, .voter, false⟩, ⟨13, 3, .learner, false⟩]

/-- The learner is promoted and a voter is demoted. -/
def swapPeers : List ChangePeerRequest :=
  [⟨.addNode, ⟨13, 3, .voter, false⟩⟩, ⟨.addLearnerNode, ⟨12, 2, .learner, false⟩⟩]

/-- A voter is replaced by another one in a joint change. -/
theorem confState_applyConfChange_swap :
    ∃ region', applyConfChange .enterJoint threePeers swapPeers = .ok region' ∧
      (confStateFromRegion region').config =
        ⟨{11, 13}, {11, 12}, 0, {12}⟩ ∧
      ∃ region'', applyLeaveJoint region' = .ok region'' ∧
        (confStateFromRegion region'').config = ⟨{11, 13}, 0, {12}, 0⟩ ∧
        region''.regionEpoch.confVer = 7 := by
  have hjoint : ¬ InJoint threePeers := not_inJoint_iff.mpr (by decide)
  have htouches : TouchesVoters threePeers swapPeers := ⟨_, mem_cons_self, .inl rfl⟩
  obtain ⟨hconfVer, -, hjointed⟩ := confState_applyConfChange hjoint
    (show swapPeers ≠ [] by decide) (by decide) (fun _ => htouches) rfl
  obtain ⟨hconfig, region'', hleave, hconfig', hconfVer'⟩ := hjointed (by decide)
  refine ⟨_, rfl, hconfig.trans ?_, region'', hleave, hconfig'.trans ?_, hconfVer'.trans ?_⟩
  · rfl
  · rw [hconfig]
    rfl
  · rfl

end Tikv.Raftstore
