import Tikv.Foundation.AssocMap
import Tikv.Foundation.BigEndian
import Tikv.TxnTypes

/-!
# The detect table

The deadlock detector keeps the graph of the transactions that wait for each other: an edge from
a waiting transaction to the one whose locks it waits for, with the keys of these locks. An edge
expires if no request refreshes it, but it is removed only when a search comes across it, or when
a large table is cleaned. A request to add an edge first searches for a path back to the waiting
transaction, and if it finds one it returns the chain of the waiting transactions.

Times are numbers of nanoseconds. The order in which the search visits a hash map is a parameter.
-/

namespace Tikv.Deadlock

open AssocMap (Map)

/-- `WaitForEntry`. -/
structure WaitForEntry where
  txn : ℕ
  waitForTxn : ℕ
  keyHash : ℕ
  key : Bytes
  resourceGroupTag : Bytes
deriving DecidableEq

/-- The locks of the transaction `ts` that another one waits for. -/
structure Locks where
  ts : ℕ
  keys : List (ℕ × Bytes)
  resourceGroupTag : Bytes
  lastDetectTime : ℕ
deriving DecidableEq

namespace Locks

/-- `Locks::new`. -/
def new (ts hash : ℕ) (key resourceGroupTag : Bytes) (lastDetectTime : ℕ) : Locks where
  ts
  keys := [(hash, key)]
  resourceGroupTag
  lastDetectTime

/-- `Locks::push`. -/
def push (l : Locks) (lockHash : ℕ) (key : Bytes) (now : ℕ) : Locks :=
  { l with
    keys := if l.keys.any fun (hash, _) => hash == lockHash then l.keys
      else l.keys ++ [(lockHash, key)]
    lastDetectTime := now }

/-- `Locks::remove`: whether no key is left, and the rest. -/
def remove (l : Locks) (lockHash : ℕ) : Bool × Locks :=
  let keys := l.keys.eraseP fun (hash, _) => hash == lockHash
  (keys.isEmpty, { l with keys })

/-- `Locks::is_expired`. -/
def isExpired (l : Locks) (now ttl : ℕ) : Bool := ttl ≤ now - l.lastDetectTime

/-- `Locks::to_wait_for_entry`. -/
def toWaitForEntry (l : Locks) (waiterTs : ℕ) : Except Panic WaitForEntry :=
  match l.keys with
  | [] => .error .assertion
  | (keyHash, key) :: _ => .ok ⟨waiterTs, l.ts, keyHash, key, l.resourceGroupTag⟩

end Locks

/-- The transactions that one transaction waits for. -/
abbrev WaitFor := Map ℕ Locks

/-- The edges of the graph: waiting transaction, transaction waited for. -/
abbrev WaitForMap := Map ℕ WaitFor

/-- `DetectTable`. -/
structure DetectTable where
  waitForMap : WaitForMap
  ttl : ℕ
  lastActiveExpire : ℕ
  now : ℕ

/-- The locks of an edge. -/
def WaitForMap.edge (m : WaitForMap) (txnTs lockTs : ℕ) : Option Locks :=
  (m.lookup txnTs).bind fun waitFor => waitFor.lookup lockTs

/-- An order of the entries of a hash map that are visited for a vertex. -/
abbrev Order := ℕ → List (Sigma fun _ : ℕ => Locks) → List (Sigma fun _ : ℕ => Locks)

/-- What the search of the edges of one vertex ends with. -/
inductive Visit
  /-- An edge to the goal. -/
  | found (locks : Locks) (pushed : List (ℕ × ℕ))
  | done (stack : List ℕ) (pushed : List (ℕ × ℕ))

/-- The loop of `do_detect` over the edges of the vertex `currTs`. `pushed` is the map of the
predecessors, newest first. -/
def visit (txnTs currTs : ℕ) :
    List (Sigma fun _ : ℕ => Locks) → List ℕ → List (ℕ × ℕ) → Visit
  | [], stack, pushed => .done stack pushed
  | ⟨lockTs, locks⟩ :: rest, stack, pushed =>
    if lockTs = txnTs then .found locks pushed
    else if lockTs ∈ pushed.map Prod.fst then visit txnTs currTs rest stack pushed
    else visit txnTs currTs rest (lockTs :: stack) ((lockTs, currTs) :: pushed)

/-- The loop of `generate_wait_chain`, which goes back from a vertex to the start. A loop that
would take more steps than `fuel` does not end. -/
def waitChainLoop (m : WaitForMap) (start : ℕ) (preds : List (ℕ × ℕ)) :
    ℕ → ℕ → List WaitForEntry → Except Panic (List WaitForEntry)
  | 0, _, _ => .error .assertion
  | fuel + 1, lockTs, waitChain =>
    match preds.lookup lockTs with
    | none => .error .assertion
    | some waiterTs =>
      if waiterTs = 0 then
        if lockTs = start then .ok waitChain else .error .assertion
      else
        match m.edge waiterTs lockTs with
        | none => .error .assertion
        | some locks => do
          let entry ← locks.toWaitForEntry waiterTs
          waitChainLoop m start preds fuel waiterTs (waitChain ++ [entry])

/-- `DetectTable::generate_wait_chain`. -/
def generateWaitChain (m : WaitForMap) (start last : ℕ) (preds : List (ℕ × ℕ)) :
    Except Panic (List WaitForEntry) := do
  let waitChain ← waitChainLoop m start preds preds.length last []
  .ok waitChain.reverse

/-- The outcome of a search: the key hash and the wait chain of a deadlock, and the table without
the expired edges that it came across. -/
abbrev Detected := Option (ℕ × List WaitForEntry) × WaitForMap

/-- The loop of `do_detect`. A search that would visit more vertices than `fuel` does not end. -/
def detectLoop (now ttl : ℕ) (order : Order) (txnTs start : ℕ) :
    ℕ → WaitForMap → List ℕ → List (ℕ × ℕ) → Except Panic Detected
  | 0, _, _, _ => .error .assertion
  | _ + 1, m, [], _ => .ok (none, m)
  | fuel + 1, m, currTs :: stack, pushed =>
    match m.lookup currTs with
    | none => detectLoop now ttl order txnTs start fuel m stack pushed
    | some waitFor =>
      let waitFor := AssocMap.retain waitFor fun locks => !locks.isExpired now ttl
      if waitFor.entries.isEmpty then
        detectLoop now ttl order txnTs start fuel (m.erase currTs) stack pushed
      else
        let m := m.insert currTs waitFor
        match visit txnTs currTs (order currTs waitFor.entries) stack pushed with
        | .found locks pushed => do
          let lastEntry ← locks.toWaitForEntry currTs
          let waitChain ← generateWaitChain m start currTs pushed
          .ok (some (lastEntry.keyHash, waitChain ++ [lastEntry]), m)
        | .done stack pushed => detectLoop now ttl order txnTs start fuel m stack pushed

namespace DetectTable

/-- `DetectTable::new`. -/
def new (ttl now : ℕ) : DetectTable where
  waitForMap := ∅
  ttl
  lastActiveExpire := now
  now

/-- The number of the edges. -/
def edgeCount (m : WaitForMap) : ℕ := (m.entries.map fun e => e.2.entries.length).sum

variable (t : DetectTable)

/-- `DetectTable::do_detect`. -/
def doDetect (order : Order) (txnTs waitForTs : ℕ) : Except Panic Detected :=
  -- Each vertex other than the start is pushed for an edge of its own.
  detectLoop t.now t.ttl order txnTs waitForTs (edgeCount t.waitForMap + 2) t.waitForMap
    [waitForTs] [(waitForTs, 0)]

variable (txnTs lockTs lockHash : ℕ)

/-- `DetectTable::register_if_existed`. -/
def registerIfExisted (key resourceGroupTag : Bytes) : Option DetectTable :=
  match t.waitForMap.lookup txnTs with
  | none => none
  | some waitFor =>
    match waitFor.lookup lockTs with
    | none => none
    | some locks =>
      let locks := { locks.push lockHash key t.now with resourceGroupTag }
      some { t with waitForMap := t.waitForMap.insert txnTs (waitFor.insert lockTs locks) }

/-- `DetectTable::register`. -/
def register (key resourceGroupTag : Bytes) : Except Panic DetectTable :=
  let waitFor := (t.waitForMap.lookup txnTs).getD ∅
  if (waitFor.lookup lockTs).isSome then .error .assertion
  else
    let locks := Locks.new lockTs lockHash key resourceGroupTag t.now
    .ok { t with waitForMap := t.waitForMap.insert txnTs (waitFor.insert lockTs locks) }

/-- `ACTIVE_EXPIRE_THRESHOLD`. -/
def activeExpireThreshold : ℕ := 100000

/-- `ACTIVE_EXPIRE_INTERVAL`, an hour. -/
def activeExpireInterval : ℕ := 3600 * 10 ^ 9

/-- `DetectTable::active_expire`. -/
def activeExpire : DetectTable :=
  if activeExpireThreshold ≤ t.waitForMap.entries.length ∧
      activeExpireInterval ≤ t.now - t.lastActiveExpire then
    let expired := AssocMap.mapValues t.waitForMap fun waitFor =>
      AssocMap.retain waitFor fun locks => !locks.isExpired t.now t.ttl
    { t with
      waitForMap := AssocMap.retain expired fun waitFor => !waitFor.entries.isEmpty
      lastActiveExpire := t.now }
  else t

/-- `DetectTable::detect` at the time `now`. -/
def detect (now : ℕ) (order : Order) (txnTs lockTs lockHash : ℕ)
    (lockKey resourceGroupTag : Bytes) :
    Except Panic (Option (ℕ × List WaitForEntry) × DetectTable) :=
  let t := activeExpire { t with now }
  match t.registerIfExisted txnTs lockTs lockHash lockKey resourceGroupTag with
  | some t => .ok (none, t)
  | none => do
    let (deadlock, waitForMap) ← t.doDetect order txnTs lockTs
    let t := { t with waitForMap }
    match deadlock with
    | some deadlock => .ok (some deadlock, t)
    | none => do
      let t ← t.register txnTs lockTs lockHash lockKey resourceGroupTag
      .ok (none, t)

/-- `DetectTable::clean_up_wait_for`. -/
def cleanUpWaitFor : DetectTable :=
  match t.waitForMap.lookup txnTs with
  | none => t
  | some waitFor =>
    match waitFor.lookup lockTs with
    | none => t
    | some locks =>
      match locks.remove lockHash with
      | (true, _) =>
        let waitFor := waitFor.erase lockTs
        if waitFor.entries.isEmpty then { t with waitForMap := t.waitForMap.erase txnTs }
        else { t with waitForMap := t.waitForMap.insert txnTs waitFor }
      | (false, locks) =>
        { t with waitForMap := t.waitForMap.insert txnTs (waitFor.insert lockTs locks) }

/-- `DetectTable::clean_up`. -/
def cleanUp (txnTs : ℕ) : DetectTable :=
  { t with waitForMap := t.waitForMap.erase txnTs }

/-- `DetectTable::clear`. -/
def clear : DetectTable := { t with waitForMap := ∅ }

/-- `DetectTable::reset_ttl`. -/
def resetTtl (ttl : ℕ) : DetectTable := { t with ttl }

end DetectTable

end Tikv.Deadlock
