import Tikv.Foundation.Execution
import Tikv.Raftstore.AdminCmd
import Tikv.TxnTypes

/-!
# The epoch checker of a leader

A leader checks the epoch of a request against the region it has applied so far. Commands that are
proposed and not applied yet may change the epoch before the request is applied, so
`CmdEpochChecker` remembers them, and a request that checks what one of them changes is not
proposed. A leader within one term is modelled with its log: `applied` are the entries that the
apply delegate has executed without the peer knowing yet, `unapplied` those it has not executed.
-/

namespace Tikv.Raftstore

universe u

/-- `ProposedAdminCmd`. Callbacks are numbers. -/
structure ProposedAdminCmd where
  cmdType : AdminCmdType
  epochState : AdminCmdEpochState
  index : ℕ
  cbs : List ℕ

/-- The answers that the checker gives to callbacks. -/
inductive Notice (K : Type u)
  | staleReq (term cb : ℕ)
  | epochNotMatch (region : Region K) (term cb : ℕ)

/-- `CmdEpochChecker`. -/
structure CmdEpochChecker where
  proposedAdminCmd : List ProposedAdminCmd := []
  term : ℕ := 0

/-- A command with the first row checks what a command with the second row changes. -/
def AdminCmdEpochState.conflicts (s t : AdminCmdEpochState) : Bool :=
  (s.checkVer && t.changeVer) || (s.checkConfVer && t.changeConfVer)

/-- The command changes the epoch. -/
def AdminCmdEpochState.changes (s : AdminCmdEpochState) : Bool := s.changeConfVer || s.changeVer

namespace CmdEpochChecker

variable {K : Type u} (c : CmdEpochChecker)

/-- `maybe_update_term`. -/
def maybeUpdateTerm (term : ℕ) : Except Panic (CmdEpochChecker × List (Notice K)) :=
  if term < c.term then .error .assertion
  else if c.term < term then
    .ok ({ proposedAdminCmd := [], term },
      c.proposedAdminCmd.flatMap fun cmd => cmd.cbs.map (.staleReq term))
  else .ok (c, [])

/-- `last_conflict_index`. -/
def lastConflictIndex (s : AdminCmdEpochState) : Option ℕ :=
  (c.proposedAdminCmd.reverse.find? fun cmd => s.conflicts cmd.epochState).map (·.index)

/-- `propose_check_epoch`. -/
def proposeCheckEpoch (req : RaftCmdRequest K) (term : ℕ) :
    Except Panic (Option ℕ × CmdEpochChecker × List (Notice K)) :=
  (c.maybeUpdateTerm term).map fun (c, notices) => (c.lastConflictIndex req.epochState, c, notices)

/-- `post_propose`. -/
def postPropose (cmdType : AdminCmdType) (index term : ℕ) :
    Except Panic (CmdEpochChecker × List (Notice K)) :=
  match c.maybeUpdateTerm term with
  | .error e => .error e
  | .ok (c, notices) =>
    let epochState := adminCmdEpochLookup cmdType
    if (c.lastConflictIndex epochState).isSome then .error .assertion
    else if epochState.changes then
      if c.proposedAdminCmd.getLast?.any fun cmd => index ≤ cmd.index then .error .assertion
      else
        .ok ({ c with proposedAdminCmd :=
          c.proposedAdminCmd ++ [{ cmdType, epochState, index, cbs := [] }] }, notices)
    else .ok (c, notices)

/-- `advance_apply`. -/
def advanceApply (index term : ℕ) (region : Region K) :
    Except Panic (CmdEpochChecker × List (Notice K)) :=
  (c.maybeUpdateTerm term).map fun (c, notices) =>
    ({ c with proposedAdminCmd := c.proposedAdminCmd.dropWhile (·.index ≤ index) },
      notices ++ (c.proposedAdminCmd.takeWhile (·.index ≤ index)).flatMap fun cmd =>
        cmd.cbs.map (.epochNotMatch region term))

/-- Add a callback to the first command with an index. -/
def pushCallback (index cb : ℕ) : List ProposedAdminCmd → List ProposedAdminCmd
  | [] => []
  | cmd :: cmds =>
    if cmd.index = index then { cmd with cbs := cmd.cbs ++ [cb] } :: cmds
    else cmd :: pushCallback index cb cmds

/-- `attach_to_conflict_cmd`. -/
def attachToConflictCmd (index cb : ℕ) : Except Panic CmdEpochChecker :=
  if c.proposedAdminCmd.any (·.index = index) then
    .ok { c with proposedAdminCmd :=
      (pushCallback index cb c.proposedAdminCmd.reverse).reverse }
  else .error .assertion

end CmdEpochChecker

/-- An entry of the log of the leader, and whether its epoch was checked when it was proposed. -/
structure Entry (K : Type u) where
  index : ℕ
  request : RaftCmdRequest K
  checked : Bool

/-- The row of the table for the request of the entry. -/
def Entry.epochState {K : Type u} (e : Entry K) : AdminCmdEpochState := e.request.epochState

/-- A leader in one term. -/
structure Leader (K : Type u) where
  checker : CmdEpochChecker
  /-- The region as the peer knows it. -/
  region : Region K
  /-- The region of the apply delegate. -/
  delegate : Region K
  /-- The executed entries that have not been reported to the peer, each with the region after. -/
  applied : List (Entry K × Region K)
  unapplied : List (Entry K)
  lastIndex : ℕ

/-- What happens at a leader. -/
inductive LeaderEvent (K : Type u)
  /-- A request is checked and proposed at an index. -/
  | propose (req : RaftCmdRequest K) (index cb : ℕ)
  /-- A write is proposed by a leader that has not applied to its term yet, which does not ask the
  checker. -/
  | proposeUnchecked (req : RaftCmdRequest K) (index : ℕ)
  /-- The delegate executes the next entry. -/
  | apply (ctx : ApplyContext K)
  /-- The peer learns that some more entries were executed. -/
  | postApply (count : ℕ)

namespace Leader

variable {K : Type u} [LinearOrder K] [OrderBot K]

/-- Append an entry to the log. -/
def push (s : Leader K) (index : ℕ) (request : RaftCmdRequest K) (checked : Bool) : Leader K :=
  { s with unapplied := s.unapplied ++ [{ index, request, checked }], lastIndex := index }

/-- One event: the next state and the answered callbacks, nothing if the event is not possible, or a
panic of the checker. -/
def step (term : ℕ) (s : Leader K) :
    LeaderEvent K → Except Panic (Option (Leader K × List (Notice K)))
  | .propose req index cb =>
    if index ≤ s.lastIndex then .ok none
    else
      match checkRegionEpoch req s.region true with
      | .error _ => .ok none
      | .ok () =>
        match s.checker.proposeCheckEpoch req term with
        | .error e => .error e
        | .ok (some conflict, checker, notices) =>
          (checker.attachToConflictCmd conflict cb).map fun checker =>
            some ({ s with checker }, notices)
        | .ok (none, checker, notices) =>
          match req.adminType with
          | none => .ok (some ({ s with checker }.push index req true, notices))
          | some cmdType => (checker.postPropose cmdType index term).map fun (checker, more) =>
            some ({ s with checker }.push index req true, notices ++ more)
  | .proposeUnchecked req index =>
    if index ≤ s.lastIndex ∨ req.adminRequest.isSome then .ok none
    else .ok (some (s.push index req false, []))
  | .apply ctx =>
    match s.unapplied with
    | [] => .ok none
    | e :: rest =>
      match applyRaftCmd ctx s.delegate e.request with
      | none => .ok none
      | some delegate =>
        .ok (some ({ s with delegate, applied := s.applied ++ [(e, delegate)]
                            unapplied := rest }, []))
  | .postApply count =>
    match (s.applied.take count).getLast? with
    | none => .ok none
    | some (e, region) => (s.checker.advanceApply e.index term region).map fun (checker, notices) =>
      some ({ s with checker, region, applied := s.applied.drop count }, notices)

/-- The steps of a leader in a term. -/
def Step (term : ℕ) (s : Leader K) (event : LeaderEvent K) (t : Leader K) : Prop :=
  ∃ notices, step term s event = .ok (some (t, notices))

/-- The entries that the peer does not know to be applied. -/
def entries (s : Leader K) : List (Entry K) := s.applied.map (·.1) ++ s.unapplied

/-- The start of a term: the entries of earlier terms that are not applied do not change the epoch,
and the checker has not recorded a command of this term. -/
structure Initial (term : ℕ) (s : Leader K) : Prop where
  term_le : s.checker.term ≤ term
  proposed : s.checker.term = term → s.checker.proposedAdminCmd = []
  length_le : s.checker.proposedAdminCmd.length ≤ 2
  entries : ∀ e ∈ s.entries, e.epochState.changes = false ∧ e.checked = false
  applied : ∀ p ∈ s.applied, p.2.regionEpoch = s.region.regionEpoch
  delegate : s.delegate.regionEpoch = s.region.regionEpoch
  ordered : s.entries.Pairwise (·.index < ·.index)
  index_le : ∀ e ∈ s.entries, e.index ≤ s.lastIndex

end Leader

end Tikv.Raftstore
