import Tikv.Foundation.Fallible
import Tikv.Raftstore.Region

/-!
# Raft commands and the epoch

A request carries the region epoch that its sender knows, and it is checked against the epoch of
the region when it is proposed and again when it is applied. Which of version and conf version is
checked depends on the command, and so does which of them it changes; both are written down in one
table (`adminCmdEpochLookup`). Here are the check, the table, and what the commands do to the
region when they are applied. `applyRaftCmd_keepsEpoch` says that a command changes no part
of the epoch that the table does not allow it to change.
-/

namespace Tikv.Raftstore

universe u

/-- `AdminCmdType`. -/
inductive AdminCmdType
  | invalidAdmin
  | compactLog
  | computeHash
  | verifyHash
  | changePeer
  | changePeerV2
  | split
  | batchSplit
  | prepareMerge
  | commitMerge
  | rollbackMerge
  | transferLeader
  | prepareFlashback
  | finishFlashback
  | batchSwitchWitness
  | updateGcPeer
deriving DecidableEq

/-- `ConfChangeType`. -/
inductive ConfChangeType
  | addNode
  | removeNode
  | addLearnerNode
deriving DecidableEq

/-- `ChangePeerRequest`. -/
structure ChangePeerRequest where
  changeType : ConfChangeType
  peer : Peer
deriving DecidableEq

/-- `SwitchWitnessRequest`. -/
structure SwitchWitnessRequest where
  peerId : ℕ
  isWitness : Bool
deriving DecidableEq

/-- `AdminRequest`, with the fields that change a region. -/
inductive AdminRequest (K : Type u)
  | invalidAdmin
  | compactLog
  | computeHash
  | verifyHash
  | changePeer (request : ChangePeerRequest)
  | changePeerV2 (changes : List ChangePeerRequest)
  | split (request : SplitRequest K) (rightDerive : Bool)
  | batchSplit (splits : BatchSplitRequest K)
  | prepareMerge (target : Region K) (minIndex : ℕ)
  | commitMerge (source : Region K)
  | rollbackMerge (commit : ℕ)
  | transferLeader
  | prepareFlashback (startTs : ℕ)
  | finishFlashback
  | batchSwitchWitness (switches : List SwitchWitnessRequest)
  | updateGcPeer

/-- `RaftCmdRequest`: the epoch and the flashback data of its header, and the admin request, if it
is not a normal write. -/
structure RaftCmdRequest (K : Type u) where
  regionEpoch : Option RegionEpoch
  isFlashbackRequest : Bool
  /-- The timestamp in the flag data, if it can be decoded. -/
  readTs : Option ℕ
  adminRequest : Option (AdminRequest K)

/-- `AdminCmdEpochState`. -/
structure AdminCmdEpochState where
  checkVer : Bool
  checkConfVer : Bool
  changeVer : Bool
  changeConfVer : Bool
deriving DecidableEq

/-- `admin_cmd_epoch_lookup`. -/
def adminCmdEpochLookup : AdminCmdType → AdminCmdEpochState
  | .invalidAdmin => ⟨false, false, false, false⟩
  | .compactLog => ⟨false, false, false, false⟩
  | .computeHash => ⟨false, false, false, false⟩
  | .verifyHash => ⟨false, false, false, false⟩
  | .changePeer => ⟨false, true, false, true⟩
  | .changePeerV2 => ⟨false, true, false, true⟩
  | .split => ⟨true, true, true, false⟩
  | .batchSplit => ⟨true, true, true, false⟩
  | .prepareMerge => ⟨true, true, true, true⟩
  | .commitMerge => ⟨true, true, true, false⟩
  | .rollbackMerge => ⟨true, true, true, false⟩
  | .transferLeader => ⟨false, false, false, false⟩
  | .prepareFlashback => ⟨true, true, false, false⟩
  | .finishFlashback => ⟨true, true, false, false⟩
  | .batchSwitchWitness => ⟨false, true, false, true⟩
  | .updateGcPeer => ⟨false, false, false, false⟩

/-- `NORMAL_REQ_CHECK_VER` and `NORMAL_REQ_CHECK_CONF_VER`: what a normal request checks. It changes
nothing. -/
def normalReqEpochState : AdminCmdEpochState := ⟨true, false, false, false⟩

section Requests

variable {K : Type u}

/-- The type of an admin request. -/
def AdminRequest.cmdType : AdminRequest K → AdminCmdType
  | .invalidAdmin => .invalidAdmin
  | .compactLog => .compactLog
  | .computeHash => .computeHash
  | .verifyHash => .verifyHash
  | .changePeer _ => .changePeer
  | .changePeerV2 _ => .changePeerV2
  | .split _ _ => .split
  | .batchSplit _ => .batchSplit
  | .prepareMerge _ _ => .prepareMerge
  | .commitMerge _ => .commitMerge
  | .rollbackMerge _ => .rollbackMerge
  | .transferLeader => .transferLeader
  | .prepareFlashback _ => .prepareFlashback
  | .finishFlashback => .finishFlashback
  | .batchSwitchWitness _ => .batchSwitchWitness
  | .updateGcPeer => .updateGcPeer

variable (req : RaftCmdRequest K)

/-- The type of the admin request, if there is one. -/
def RaftCmdRequest.adminType : Option AdminCmdType :=
  req.adminRequest.map (·.cmdType)

/-- The row of the table for a request. -/
def RaftCmdRequest.epochState : AdminCmdEpochState :=
  req.adminType.elim normalReqEpochState adminCmdEpochLookup

/-- `compare_region_epoch`. -/
def compareRegionEpoch (fromEpoch : RegionEpoch) (region : Region K)
    (checkConfVer checkVer includeRegion : Bool) : Except (Error K) Unit :=
  let currentEpoch := region.regionEpoch
  if (checkConfVer && fromEpoch.confVer != currentEpoch.confVer) ||
      (checkVer && fromEpoch.version != currentEpoch.version) then
    .error (.epochNotMatch region.id currentEpoch fromEpoch
      (if includeRegion then [region] else []))
  else .ok ()

/-- `check_region_epoch`. -/
def checkRegionEpoch (region : Region K) ( includeRegion : Bool) : Except (Error K) Unit :=
  let epochState := req.epochState
  if !epochState.checkVer && !epochState.checkConfVer then .ok ()
  else
    match req.regionEpoch with
    | none => .error .missingEpoch
    | some fromEpoch => compareRegionEpoch fromEpoch region epochState.checkConfVer
        epochState.checkVer includeRegion

/-- `check_flashback_state`. -/
def checkFlashbackState (region : Region K) (req : RaftCmdRequest K) (skipNotPrepared : Bool) :
    Except (Error K) Unit :=
  if req.adminType = some .prepareFlashback ∨ req.adminType = some .finishFlashback then .ok ()
  else
    let isInFlashback := region.isInFlashback || 0 < region.flashbackStartTs
    if isInFlashback && !req.isFlashbackRequest then
      if req.readTs.any fun readTs => readTs ≠ 0 ∧ readTs < region.flashbackStartTs then .ok ()
      else .error (.flashbackInProgress region.id region.flashbackStartTs)
    else if !isInFlashback && req.isFlashbackRequest && !skipNotPrepared then
      .error (.flashbackNotPrepared region.id)
    else .ok ()

end Requests

/-! ### Changes of the peers -/

section ConfChange

variable {K : Type u}

/-- The region with another conf version. -/
def Region.setConfVer (r : Region K) (confVer : ℕ) : Region K :=
  { r with regionEpoch := { r.regionEpoch with confVer } }

/-- `find_peer`. -/
def Region.findPeer (r : Region K) (storeId : ℕ) : Option Peer :=
  r.peers.find? (·.storeId == storeId)

/-- Change the first element that meets the condition, as through `find_peer_mut`. -/
def modifyFirst (p : Peer → Bool) (f : Peer → Peer) : List Peer → List Peer
  | [] => []
  | peer :: peers => if p peer then f peer :: peers else peer :: modifyFirst p f peers

/-- Set the role of the peer on a store. -/
def Region.setRole (r : Region K) (storeId : ℕ) (role : PeerRole) : Region K :=
  { r with peers := modifyFirst (·.storeId == storeId) ({ · with role }) r.peers }

/-- `remove_peer`. -/
def Region.removePeer (r : Region K) (storeId : ℕ) : Region K :=
  { r with peers := r.peers.eraseP (·.storeId == storeId) }

/-- Add a peer. -/
def Region.pushPeer (r : Region K) (peer : Peer) : Region K :=
  { r with peers := r.peers ++ [peer] }

/-- `exec_change_peer`. -/
def execChangePeer (original : Region K) (request : ChangePeerRequest) :
    Except (Failure K) (Region K) :=
  let peer := request.peer
  let storeId := peer.storeId
  let region := original.setConfVer (original.regionEpoch.confVer + 1)
  match request.changeType with
  | .addNode =>
    match region.findPeer storeId with
    | some p =>
      if p.role ≠ .learner ∨ p.id ≠ peer.id then .error (.error (.duplicatedPeer peer original))
      else .ok (region.setRole storeId .voter)
    | none => .ok (region.pushPeer peer)
  | .removeNode =>
    match region.findPeer storeId with
    | some p =>
      if p ≠ peer then .error (.error (.removeUnmatchedPeer peer p))
      else .ok (region.removePeer storeId)
    | none => .error (.error (.removeMissingPeer peer original))
  | .addLearnerNode =>
    match region.findPeer storeId with
    | some _ => .error (.error (.duplicatedLearner peer original))
    | none => .ok (region.pushPeer peer)

/-- `ConfChangeKind`. -/
inductive ConfChangeKind
  | simple
  | enterJoint
  | leaveJoint
deriving DecidableEq

/-- `ConfChangeKind::confchange_kind`. -/
def ConfChangeKind.confchangeKind : ℕ → ConfChangeKind
  | 0 => .leaveJoint
  | 1 => .simple
  | _ => .enterJoint

/-- One of two roles, for a simple change and for one that enters the joint state; the third kind
is unreachable. -/
def ConfChangeKind.role (simple enterJoint : PeerRole) :
    ConfChangeKind → Except (Failure K) PeerRole
  | .simple => .ok simple
  | .enterJoint => .ok enterJoint
  | .leaveJoint => .error .panic

/-- One round of the loop of `apply_conf_change`. -/
def applyChangePeer (kind : ConfChangeKind) (original region : Region K)
    (cp : ChangePeerRequest) : Except (Failure K) (Region K) :=
  let peer := cp.peer
  let storeId := peer.storeId
  match region.findPeer storeId, cp.changeType with
  | none, .addNode =>
    (kind.role .voter .incomingVoter).map fun role => region.pushPeer { peer with role }
  | none, .addLearnerNode => .ok (region.pushPeer { peer with role := .learner })
  | none, .removeNode => .error (.error (.removeMissingPeer peer original))
  | some existPeer, changeType =>
    if existPeer.role = .incomingVoter ∨ existPeer.role = .demotingVoter then .error .panic
    else if changeType = .removeNode then
      if kind = .enterJoint ∧ existPeer.role = .voter then
        .error (.error (.removeVoterDirectly peer original))
      else if existPeer ≠ peer then .error (.error (.removeUnmatchedPeer peer existPeer))
      else .ok (region.removePeer storeId)
    else if existPeer.id ≠ peer.id ∨ (existPeer.role = .voter ∧ changeType = .addNode) ∨
        (existPeer.role = .learner ∧ changeType = .addLearnerNode) ∨
        existPeer.isWitness ≠ peer.isWitness then
      .error (.error (.duplicatedWithExistPeer peer original existPeer))
    else
      match existPeer.role, changeType with
      | .voter, .addLearnerNode =>
        (kind.role .learner .demotingVoter).map fun role => region.setRole storeId role
      | .learner, .addNode =>
        (kind.role .voter .incomingVoter).map fun role => region.setRole storeId role
      | _, _ => .error .panic

/-- `apply_conf_change`. -/
def applyConfChange (kind : ConfChangeKind) (original : Region K)
    (changes : List ChangePeerRequest) : Except (Failure K) (Region K) :=
  (changes.foldlM (applyChangePeer kind original) original).map fun region =>
    region.setConfVer (region.regionEpoch.confVer + changes.length)

/-- The role of a peer after the joint state is left. -/
def leaveJoint (peer : Peer) : Peer :=
  match peer.role with
  | .incomingVoter => { peer with role := .voter }
  | .demotingVoter => { peer with role := .learner }
  | _ => peer

/-- `apply_leave_joint`. -/
def applyLeaveJoint (region : Region K) : Except (Failure K) (Region K) :=
  let changeNum := region.peers.countP fun peer =>
    peer.role = .incomingVoter ∨ peer.role = .demotingVoter
  if changeNum = 0 then .error .panic
  else .ok ({ region with peers := region.peers.map leaveJoint }.setConfVer
    (region.regionEpoch.confVer + changeNum))

/-- `exec_change_peer_v2`. -/
def execChangePeerV2 (region : Region K) (changes : List ChangePeerRequest) :
    Except (Failure K) (Region K) :=
  match ConfChangeKind.confchangeKind changes.length with
  | .leaveJoint => applyLeaveJoint region
  | kind => applyConfChange kind region changes

/-- One round of the loop of `exec_batch_switch_witness`. -/
def switchWitness (original region : Region K) (s : SwitchWitnessRequest) :
    Except (Failure K) (Region K) :=
  match region.peers.find? (·.id == s.peerId) with
  | none => .error (.error (.switchPeerDoesNotExist s.peerId original))
  | some p =>
    if p.isWitness = s.isWitness then .error (.error (.switchIsNoOp p original))
    else .ok { region with
      peers := modifyFirst (·.id == s.peerId) ({ · with isWitness := s.isWitness }) region.peers }

/-- `exec_batch_switch_witness`. -/
def execBatchSwitchWitness (original : Region K) (switches : List SwitchWitnessRequest) :
    Except (Failure K) (Region K) :=
  (switches.foldlM (switchWitness original) original).map fun region =>
    region.setConfVer (region.regionEpoch.confVer + switches.length)

/-- `exec_flashback`, for the prepare and for the finish. -/
def execFlashback (region : Region K) (startTs : Option ℕ) : Region K :=
  { region with isInFlashback := startTs.isSome, flashbackStartTs := startTs.getD 0 }

end ConfChange

/-! ### Applying a request -/

section Apply

variable {K : Type u} [LinearOrder K] [OrderBot K]

/-- What the apply delegate reads besides its region when it applies an entry. -/
structure ApplyContext (K : Type u) where
  storeId : ℕ
  firstIndex : ℕ
  execLogIndex : ℕ
  lastMergeVersion : ℕ
  /-- The local states in the Raft column family, by region id. -/
  regionState : ℕ → Option (RegionLocalState K)
  /-- An observer filters the execution of the command. -/
  preExec : Bool

variable (ctx : ApplyContext K)

/-- `exec_admin_cmd`: the region after the command. The other effects of the commands that do not
touch the region are left out. -/
def execAdminCmd (region : Region K) : AdminRequest K → Except (Failure K) (Region K)
  | .changePeer request => execChangePeer region request
  | .changePeerV2 changes => execChangePeerV2 region changes
  | .split request rightDerive =>
    (execBatchSplit ctx.storeId region { requests := [request], rightDerive }).map (·.1)
  | .batchSplit splits => (execBatchSplit ctx.storeId region splits).map (·.1)
  | .compactLog | .transferLeader | .computeHash | .verifyHash => .ok region
  | .prepareMerge target minIndex =>
    (execPrepareMerge ctx.firstIndex ctx.execLogIndex region target minIndex).map (·.region)
  | .commitMerge source =>
    (execCommitMerge region source (ctx.regionState source.id)).map fun _ => region.takeOver source
  | .rollbackMerge commit =>
    (execRollbackMerge region (ctx.regionState region.id) commit).map (·.region)
  | .prepareFlashback startTs => .ok (execFlashback region (some startTs))
  | .finishFlashback => .ok (execFlashback region none)
  | .updateGcPeer => .error (.error .v2OnlyCommand)
  | .batchSwitchWitness switches => execBatchSwitchWitness region switches
  | .invalidAdmin => .error (.error .unsupportedAdminCommandType)

/-- `exec_raft_cmd`: the region after the request. A write does not change it. -/
def execRaftCmd (region : Region K) (req : RaftCmdRequest K) : Except (Failure K) (Region K) :=
  let includeRegion := decide
    (ctx.lastMergeVersion ≤ (req.regionEpoch.getD { confVer := 0, version := 0 }).version)
  match checkRegionEpoch req region includeRegion with
  | .error e => .error (.error e)
  | .ok () =>
    match checkFlashbackState region req false with
    | .error e => .error (.error e)
    | .ok () => req.adminRequest.elim (.ok region) (execAdminCmd ctx region)

/-- `apply_raft_cmd`: the region of the delegate after the entry, or `none` if the store panics. A
request that fails leaves the region as it was. -/
def applyRaftCmd (region : Region K) (req : RaftCmdRequest K) : Option (Region K) :=
  if ctx.preExec then some region
  else
    match execRaftCmd ctx region req with
    | .error .panic => none
    | .error (.error _) => some region
    | .ok after =>
      let epochState := req.epochState
      -- The epoch has to change as the table says.
      if req.adminRequest.isSome ∧
          ((epochState.changeVer ∧ region.regionEpoch.version = after.regionEpoch.version) ∨
            (epochState.changeConfVer ∧ region.regionEpoch.confVer = after.regionEpoch.confVer))
      then none
      else some after

end Apply

/-! ### What happens to the epoch -/

section Epoch

variable {K : Type u} {s : AdminCmdEpochState} {ctx : ApplyContext K}
  {region region' original : Region K}

/-- Only the parts of the epoch that the table allows have changed. -/
structure KeepsEpoch (s : AdminCmdEpochState) (region region' : Region K) : Prop where
  version : s.changeVer = false → region'.regionEpoch.version = region.regionEpoch.version
  confVer : s.changeConfVer = false → region'.regionEpoch.confVer = region.regionEpoch.confVer

theorem KeepsEpoch.refl : KeepsEpoch s region region := ⟨fun _ => rfl, fun _ => rfl⟩

theorem KeepsEpoch.of_version (hs : s.changeConfVer = true)
    (h : region'.regionEpoch.version = region.regionEpoch.version) :
    KeepsEpoch s region region' where
  version := fun _ => h
  confVer := fun h => absurd (hs.symm.trans h) (by simp)

theorem KeepsEpoch.of_confVer (hs : s.changeVer = true)
    (h : region'.regionEpoch.confVer = region.regionEpoch.confVer) :
    KeepsEpoch s region region' where
  version := fun h => absurd (hs.symm.trans h) (by simp)
  confVer := fun _ => h

theorem execChangePeer_version {request : ChangePeerRequest}
    (h : execChangePeer region request = .ok region') :
    region'.regionEpoch.version = region.regionEpoch.version := by
  unfold execChangePeer at h
  dsimp only at h
  split at h
  · split at h
    · split_ifs at h
      exact (Except.ok.inj h) ▸ rfl
    · exact (Except.ok.inj h) ▸ rfl
  · split at h
    · split_ifs at h
      exact (Except.ok.inj h) ▸ rfl
    · cases h
  · split at h
    · cases h
    · exact (Except.ok.inj h) ▸ rfl

theorem applyChangePeer_regionEpoch {kind : ConfChangeKind} {cp : ChangePeerRequest}
    (h : applyChangePeer kind original region cp = .ok region') :
    region'.regionEpoch = region.regionEpoch := by
  unfold applyChangePeer at h
  dsimp only at h
  split at h
  · obtain ⟨role, -, rfl⟩ := map_eq_ok.mp h
    rfl
  · exact (Except.ok.inj h) ▸ rfl
  · cases h
  · split_ifs at h
    · exact (Except.ok.inj h) ▸ rfl
    · split at h
      · obtain ⟨role, -, rfl⟩ := map_eq_ok.mp h
        rfl
      · obtain ⟨role, -, rfl⟩ := map_eq_ok.mp h
        rfl
      · cases h

theorem switchWitness_regionEpoch {sw : SwitchWitnessRequest}
    (h : switchWitness original region sw = .ok region') :
    region'.regionEpoch = region.regionEpoch := by
  unfold switchWitness at h
  split at h
  · cases h
  · split_ifs at h
    exact (Except.ok.inj h) ▸ rfl

theorem foldlM_regionEpoch {α : Type} {f : Region K → α → Except (Failure K) (Region K)}
    (hf : ∀ r a r', f r a = .ok r' → r'.regionEpoch = r.regionEpoch) {l : List α}
    (h : l.foldlM f region = .ok region') : region'.regionEpoch = region.regionEpoch := by
  induction l generalizing region with
  | nil => exact (Except.ok.inj h) ▸ rfl
  | cons a l ih =>
    rw [List.foldlM_cons, bind_eq_ok] at h
    obtain ⟨r, hr, h⟩ := h
    rw [ih h, hf _ _ _ hr]

theorem execChangePeerV2_version {changes : List ChangePeerRequest}
    (h : execChangePeerV2 region changes = .ok region') :
    region'.regionEpoch.version = region.regionEpoch.version := by
  unfold execChangePeerV2 at h
  split at h
  · unfold applyLeaveJoint at h
    dsimp only at h
    split_ifs at h
    exact (Except.ok.inj h) ▸ rfl
  · obtain ⟨r, hr, rfl⟩ := map_eq_ok.mp h
    have hepoch := foldlM_regionEpoch (fun _ _ _ => applyChangePeer_regionEpoch) hr
    exact (congrArg RegionEpoch.version hepoch :)

theorem execBatchSwitchWitness_version {switches : List SwitchWitnessRequest}
    (h : execBatchSwitchWitness region switches = .ok region') :
    region'.regionEpoch.version = region.regionEpoch.version := by
  obtain ⟨r, hr, rfl⟩ := map_eq_ok.mp h
  have hepoch := foldlM_regionEpoch (fun _ _ _ => switchWitness_regionEpoch) hr
  exact (congrArg RegionEpoch.version hepoch :)

variable [LinearOrder K] [OrderBot K]

theorem execBatchSplit_confVer {storeId : ℕ} {splits : BatchSplitRequest K}
    {regions : List (Region K)}
    (h : execBatchSplit storeId region splits = .ok (region', regions)) :
    region'.regionEpoch.confVer = region.regionEpoch.confVer := by
  unfold execBatchSplit at h
  split at h
  · cases h
  · dsimp only at h
    split_ifs at h
    · split at h
      · obtain ⟨rfl, -⟩ := Prod.ext_iff.mp (Except.ok.inj h)
        rfl
      · cases h
      · cases h
    · split at h
      · cases h
      · split at h
        · obtain ⟨rfl, -⟩ := Prod.ext_iff.mp (Except.ok.inj h)
          rfl
        · cases h

theorem takeOver_confVer (region source : Region K) :
    (region.takeOver source).regionEpoch.confVer = region.regionEpoch.confVer := by
  unfold Region.takeOver
  dsimp only
  split_ifs <;> rfl

/-- The admin commands change the epoch as the table says. -/
theorem execAdminCmd_keepsEpoch {req : AdminRequest K}
    (h : execAdminCmd ctx region req = .ok region') :
    KeepsEpoch (adminCmdEpochLookup req.cmdType) region region' := by
  cases req with
  | changePeer request => exact .of_version rfl (execChangePeer_version h)
  | changePeerV2 changes => exact .of_version rfl (execChangePeerV2_version h)
  | batchSwitchWitness switches => exact .of_version rfl (execBatchSwitchWitness_version h)
  | split request rightDerive | batchSplit splits =>
    obtain ⟨⟨derived, regions⟩, hsplit, rfl⟩ := map_eq_ok.mp h
    exact .of_confVer rfl (execBatchSplit_confVer hsplit)
  | commitMerge source =>
    obtain ⟨states, -, rfl⟩ := map_eq_ok.mp h
    exact .of_confVer rfl (takeOver_confVer region source)
  | rollbackMerge commit =>
    obtain ⟨l, hl, rfl⟩ := map_eq_ok.mp h
    refine .of_confVer rfl ?_
    unfold execRollbackMerge at hl
    split at hl
    · split_ifs at hl
      exact (Except.ok.inj hl) ▸ rfl
    · cases hl
  -- The table allows both parts to change.
  | prepareMerge target minIndex => exact ⟨nofun, nofun⟩
  | invalidAdmin | updateGcPeer => exact absurd h (by simp [execAdminCmd])
  | compactLog | computeHash | verifyHash | transferLeader => exact (Except.ok.inj h) ▸ .refl
  | prepareFlashback startTs | finishFlashback =>
    exact (Except.ok.inj h) ▸ ⟨fun _ => rfl, fun _ => rfl⟩

/-- An applied entry changes the epoch as the table says. -/
theorem applyRaftCmd_keepsEpoch {req : RaftCmdRequest K}
    (h : applyRaftCmd ctx region req = some region') :
    KeepsEpoch req.epochState region region' := by
  unfold applyRaftCmd at h
  split_ifs at h
  · exact (Option.some.inj h) ▸ .refl
  · split at h
    · cases h
    · exact (Option.some.inj h) ▸ .refl
    · rename_i after hexec
      dsimp only at h
      split_ifs at h
      obtain rfl := Option.some.inj h
      unfold execRaftCmd at hexec
      dsimp only at hexec
      split at hexec
      · cases hexec
      · split at hexec
        · cases hexec
        · rw [RaftCmdRequest.epochState, RaftCmdRequest.adminType]
          cases hadmin : req.adminRequest with rw [hadmin] at hexec
          | none => exact (Except.ok.inj hexec) ▸ .refl
          | some admin => exact execAdminCmd_keepsEpoch hexec

end Epoch

end Tikv.Raftstore
