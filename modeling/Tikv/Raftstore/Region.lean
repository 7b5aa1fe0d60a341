import Mathlib.Order.WithBot
import Tikv.Foundation.AssocMap

/-!
# Regions, their splits and their merges

A region is a range of keys with a list of peers and an epoch. The commands here change the range
or the version of a region: a batch split cuts it at the requested keys, a merge is prepared by
the source region and committed by a neighbour of it, which takes over its range, or rolled back.

`⊥` is the empty key. As the end of a region it stands for no end. An applied command of a region
reads and writes the local states of the regions, which are kept by region id; the state of a
region that was merged stays there as a tombstone. Versions and ids are natural numbers.
-/

namespace Tikv.Raftstore

open AssocMap (Map)

universe u

/-- `metapb::PeerRole`. -/
inductive PeerRole
  | voter
  | learner
  | incomingVoter
  | demotingVoter
deriving DecidableEq

/-- `metapb::Peer`. -/
structure Peer where
  id : ℕ
  storeId : ℕ
  role : PeerRole := .voter
  isWitness : Bool := false
deriving DecidableEq

/-- `metapb::RegionEpoch`. -/
structure RegionEpoch where
  confVer : ℕ
  version : ℕ
deriving DecidableEq

/-- `metapb::Region`. -/
structure Region (K : Type u) where
  id : ℕ
  startKey : K
  endKey : K
  regionEpoch : RegionEpoch
  peers : List Peer
  isInFlashback : Bool := false
  flashbackStartTs : ℕ := 0
deriving DecidableEq

/-- `raft_serverpb::MergeState`. -/
structure MergeState (K : Type u) where
  minIndex : ℕ
  target : Region K
  commit : ℕ
deriving DecidableEq

/-- `PeerState`, with the merge state that is written beside it. -/
inductive PeerState (K : Type u)
  | normal
  | merging (state : MergeState K)
  | tombstone (target : Region K)
deriving DecidableEq

/-- `raft_serverpb::RegionLocalState`. -/
structure RegionLocalState (K : Type u) where
  region : Region K
  state : PeerState K
deriving DecidableEq

/-- `SplitRequest`. -/
structure SplitRequest (K : Type u) where
  splitKey : K
  newRegionId : ℕ
  newPeerIds : List ℕ
deriving DecidableEq

/-- `BatchSplitRequest`. -/
structure BatchSplitRequest (K : Type u) where
  requests : List (SplitRequest K)
  rightDerive : Bool
deriving DecidableEq

/-- The errors of a refused command, with what their messages show. -/
inductive Error (K : Type u)
  | missingSplitRequests
  | missingSplitKey
  | invalidSplitRequest (requests : List (SplitRequest K))
  | invalidNewPeerIdCount (peers : List Peer) (newPeerIds : List ℕ)
  | keyNotInRegion (key : K) (region : Region K)
  | missingEpoch
  | epochNotMatch (regionId : ℕ) (currentEpoch fromEpoch : RegionEpoch) (regions : List (Region K))
  | flashbackInProgress (regionId startTs : ℕ)
  | flashbackNotPrepared (regionId : ℕ)
  | duplicatedPeer (peer : Peer) (region : Region K)
  | duplicatedLearner (peer : Peer) (region : Region K)
  | duplicatedWithExistPeer (peer : Peer) (region : Region K) (existPeer : Peer)
  | removeMissingPeer (peer : Peer) (region : Region K)
  | removeUnmatchedPeer (expect get : Peer)
  | removeVoterDirectly (peer : Peer) (region : Region K)
  | switchIsNoOp (peer : Peer) (region : Region K)
  | switchPeerDoesNotExist (peerId : ℕ) (region : Region K)
  | v2OnlyCommand
  | unsupportedAdminCommandType
deriving DecidableEq

/-- A command is refused, or the store panics. -/
inductive Failure (K : Type u)
  | error (e : Error K)
  | panic
deriving DecidableEq

namespace Region

variable {K : Type u} [LinearOrder K] [OrderBot K]

/-- `keys::enc_start_key`. -/
def encStartKey (r : Region K) : WithTop K := r.startKey

/-- `keys::enc_end_key`: the empty end key is after all keys. -/
def encEndKey (r : Region K) : WithTop K := if r.endKey = ⊥ then ⊤ else r.endKey

/-- `check_key_in_region_exclusive`. -/
def checkKeyInRegionExclusive (key : K) (r : Region K) : Bool :=
  r.startKey < key && (key < r.endKey || r.endKey == ⊥)

/-- The region with another version. -/
def setVersion (r : Region K) (version : ℕ) : Region K :=
  { r with regionEpoch := { r.regionEpoch with version } }

end Region

section Commands

variable {K : Type u} [LinearOrder K] [OrderBot K]

/-- The loop of `validate_batch_split`, which returns the last split key. -/
def validateSplitKeys (region : Region K) (requests : List (SplitRequest K)) :
    K → List (SplitRequest K) → Except (Error K) K
  | lastKey, [] => .ok lastKey
  | lastKey, req :: reqs =>
    if req.splitKey = ⊥ then .error .missingSplitKey
    else if req.splitKey ≤ lastKey then .error (.invalidSplitRequest requests)
    else if req.newPeerIds.length ≠ region.peers.length then
      .error (.invalidNewPeerIdCount region.peers req.newPeerIds)
    else validateSplitKeys region requests req.splitKey reqs

/-- `validate_batch_split`. -/
def validateBatchSplit (requests : List (SplitRequest K)) (region : Region K) :
    Except (Error K) Unit :=
  if requests.isEmpty then .error .missingSplitRequests
  else
    match validateSplitKeys region requests region.startKey requests with
    | .error e => .error e
    | .ok lastKey =>
      if region.checkKeyInRegionExclusive lastKey then .ok ()
      else .error (.keyNotInRegion lastKey region)

/-- The new ids of copied peers; peers without one keep theirs. -/
def setPeerIds : List Peer → List ℕ → List Peer
  | peer :: peers, peerId :: peerIds => { peer with id := peerId } :: setPeerIds peers peerIds
  | peers, _ => peers

/-- A region of a split, from the region that is split and the front of the queue of keys. -/
def newRegion (derived : Region K) (req : SplitRequest K) (startKey endKey : K) : Region K where
  id := req.newRegionId
  startKey
  endKey
  regionEpoch := derived.regionEpoch
  peers := setPeerIds derived.peers req.newPeerIds

/-- The loop of `exec_batch_split` over the requests: the new regions and the keys left. -/
def splitRegions (storeId : ℕ) (derived : Region K) :
    List (SplitRequest K) → List K → Except (Failure K) (List (Region K) × List K)
  | [], keys => .ok ([], keys)
  | req :: reqs, startKey :: endKey :: keys =>
    let region := newRegion derived req startKey endKey
    -- The peer of this store is looked up in the new region and unwrapped.
    if region.peers.any (·.storeId == storeId) then
      match splitRegions storeId derived reqs (endKey :: keys) with
      | .ok (regions, rest) => .ok (region :: regions, rest)
      | .error e => .error e
    else .error .panic
  | _ :: _, _ => .error .panic

/-- `exec_batch_split`: the derived region, and all the regions in the order of their ranges. -/
def execBatchSplit (storeId : ℕ) (region : Region K) (splits : BatchSplitRequest K) :
    Except (Failure K) (Region K × List (Region K)) :=
  match validateBatchSplit splits.requests region with
  | .error e => .error (.error e)
  | .ok () =>
    let keys := splits.requests.map (·.splitKey)
    let derived := region.setVersion (region.regionEpoch.version + splits.requests.length)
    if splits.rightDerive then
      match splitRegions storeId derived splits.requests (derived.startKey :: keys) with
      | .ok (regions, startKey :: _) =>
        .ok ({ derived with startKey }, regions ++ [{ derived with startKey }])
      | .ok (_, []) => .error .panic
      | .error e => .error e
    else
      match keys ++ [derived.endKey] with
      | [] => .error .panic
      | endKey :: keys =>
        let derived := { derived with endKey }
        match splitRegions storeId derived splits.requests (endKey :: keys) with
        | .ok (regions, _) => .ok (derived, derived :: regions)
        | .error e => .error e

/-- `exec_prepare_merge` at the log index `execLogIndex`, with the first index of the log. -/
def execPrepareMerge (firstIndex execLogIndex : ℕ) (region target : Region K) (minIndex : ℕ) :
    Except (Failure K) (RegionLocalState K) :=
  if minIndex < firstIndex then .error .panic
  else
    let epoch := region.regionEpoch
    .ok { region := { region with
            regionEpoch := { confVer := epoch.confVer + 1, version := epoch.version + 1 } }
          state := .merging { minIndex, target, commit := execLogIndex } }

/-- The region that `exec_commit_merge` makes of the target and the source. The source is on the
right if the target ends where it starts. -/
def Region.takeOver (region source : Region K) : Region K :=
  let merged := region.setVersion (max source.regionEpoch.version region.regionEpoch.version + 1)
  if merged.encEndKey = source.encStartKey then { merged with endKey := source.endKey }
  else { merged with startKey := source.startKey }

/-- `exec_commit_merge` once the source has stopped, from the stored state of the source: the
states of the target and of the source. -/
def execCommitMerge (region source : Region K) (stored : Option (RegionLocalState K)) :
    Except (Failure K) (List (RegionLocalState K)) :=
  match stored with
  | some { region := existRegion, state := .merging _ } =>
    if source ≠ existRegion then .error .panic
    -- `enc_end_key` and `enc_start_key` assert that the region has peers.
    else if region.peers.isEmpty || source.peers.isEmpty then .error .panic
    else
      .ok [{ region := region.takeOver source, state := .normal },
        { region := source, state := .tombstone region }]
  | _ => .error .panic

/-- `exec_rollback_merge`, from the stored state of the region. -/
def execRollbackMerge (region : Region K) (stored : Option (RegionLocalState K)) (commit : ℕ) :
    Except (Failure K) (RegionLocalState K) :=
  match stored with
  | some { region := _, state := .merging state } =>
    if state.commit = commit then
      .ok { region := region.setVersion (region.regionEpoch.version + 1), state := .normal }
    else .error .panic
  | _ => .error .panic

end Commands

/-- The local states of the regions, by region id. -/
abbrev Cluster (K : Type u) := Map ℕ (RegionLocalState K)

/-- The commands, each with the id of the region that applies it. -/
inductive Command (K : Type u)
  | batchSplit (id storeId : ℕ) (splits : BatchSplitRequest K)
  | prepareMerge (id firstIndex execLogIndex : ℕ) (target : Region K) (minIndex : ℕ)
  | commitMerge (id : ℕ) (source : Region K)
  | rollbackMerge (id commit : ℕ)

namespace RegionLocalState

variable {K : Type u}

/-- The region was not merged into another one. -/
def isLive (l : RegionLocalState K) : Bool :=
  match l.state with
  | .tombstone _ => false
  | _ => true

end RegionLocalState

namespace Cluster

variable {K : Type u} [LinearOrder K] [OrderBot K] (c : Cluster K)

/-- The region whose delegate applies a command; a merged region has none. -/
def delegate (id : ℕ) : Option (Region K) :=
  match c.lookup id with
  | some l => if l.isLive then some l.region else none
  | none => none

/-- `write_peer_state` for a list of states. -/
def writePeerStates (states : List (RegionLocalState K)) : Cluster K :=
  states.foldl (fun c l => c.insert l.region.id l) c

/-- The states that a command writes, if the region that is to apply it has a delegate. -/
def written : Command K → Option (Except (Failure K) (List (RegionLocalState K)))
  | .batchSplit id storeId splits => (c.delegate id).map fun region =>
    (execBatchSplit storeId region splits).map (·.2.map ({ region := ·, state := .normal }))
  | .prepareMerge id firstIndex execLogIndex target minIndex => (c.delegate id).map fun region =>
    (execPrepareMerge firstIndex execLogIndex region target minIndex).map ([·])
  | .commitMerge id source => (c.delegate id).map fun region =>
    execCommitMerge region source (c.lookup source.id)
  | .rollbackMerge id commit => (c.delegate id).map fun region =>
    (execRollbackMerge region (c.lookup id) commit).map ([·])

/-- What the proposer of a command guarantees: new regions have fresh ids, and a merge is with a
neighbour. -/
def Valid : Command K → Prop
  | .batchSplit _ _ splits => (splits.requests.map (·.newRegionId)).Nodup ∧
    ∀ req ∈ splits.requests, req.newRegionId ∉ c
  | .commitMerge id source => ∀ region, c.delegate id = some region →
    region.encEndKey = source.encStartKey ∨ source.encEndKey = region.encStartKey
  | _ => True

/-- A valid command is applied. -/
def Step (e : Command K) (c' : Cluster K) : Prop :=
  c.Valid e ∧ ∃ states, c.written e = some (.ok states) ∧ c' = c.writePeerStates states

/-- One region that covers the whole key space. -/
def initial (region : Region K) : Cluster K :=
  AList.singleton region.id { region, state := .normal }

end Cluster

end Tikv.Raftstore
