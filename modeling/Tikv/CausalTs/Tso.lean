import Mathlib.Algebra.Order.Ring.Nat
import Tikv.Foundation.Execution
import Tikv.Foundation.OrderedMap
import Tikv.TxnTypes

/-!
# The cache of causal timestamps

`BatchTsoProvider` hands out timestamps from batches it got from PD. The batches are in an ordered
list behind a read-write lock: callers take a timestamp from the first batch that has one left under
the read lock, with one atomic addition for every batch they try; the renew thread and callers that
used a batch up change the list under the write lock. A flush asks for a new batch and drops the old
ones, also if no new batch comes.

The steps are those that other threads can come between: an atomic addition, a section under the
write lock, a message to or from the renew thread, PD's answer. What the counters of used and
remaining timestamps read as when a batch size is computed is given from outside.
-/

namespace Tikv.CausalTs

open TimeStamp (physical logical compose)

/-! ### Batches -/

/-- The timestamps from `logicalStart` up to `logicalEnd` with one physical part. -/
structure TsoBatch where
  physical : ℕ
  logicalStart : ℕ
  logicalEnd : ℕ
  /-- The next timestamp; the batch is used up once this reaches the end. -/
  allocOffset : ℕ
  deriving DecidableEq

namespace TsoBatch

variable (b : TsoBatch)

/-- A timestamp, if there is one left, and whether it was the last one. -/
def pop : Option (ℕ × Bool) :=
  if b.allocOffset < b.logicalEnd then
    some (compose b.physical b.allocOffset, b.allocOffset + 1 = b.logicalEnd)
  else none

/-- What `pop` leaves, with a timestamp or without. -/
def popped : TsoBatch := { b with allocOffset := b.allocOffset + 1 }

/-- The batch that ends with `lastTs`. A size that the logical part has no room for is a panic. -/
def new (batchSize lastTs : ℕ) : Option TsoBatch :=
  let logicalEnd := logical lastTs + 1
  if batchSize ≤ logicalEnd then
    some ⟨TimeStamp.physical lastTs, logicalEnd - batchSize, logicalEnd, logicalEnd - batchSize⟩
  else none

def originalStart : ℕ := compose b.physical b.logicalStart

def excludedEnd : ℕ := compose b.physical b.logicalEnd

end TsoBatch

/-- `TsoBatchListInner` -/
abbrev TsoBatchList := OrderedMap ℕ TsoBatch

namespace TsoBatchList

variable (inner : TsoBatchList)

/-- The batch that an iteration comes to next. -/
def next : Option ℕ → Option (ℕ × TsoBatch)
  | none => inner.entries.head?
  | some key => (inner.above key).head?

/-- The check of `push`. -/
def fallsBack (newBatch : TsoBatch) : Bool :=
  match inner.entries.getLast? with
  | some (_, lastBatch) => newBatch.originalStart < lastBatch.excludedEnd
  | none => false

/-- The section of `push` under the write lock. -/
def push (newBatch : TsoBatch) (needFlush : Bool) : TsoBatchList :=
  OrderedMap.insert (if needFlush then .empty else inner) newBatch.originalStart newBatch

def popFirst : TsoBatchList :=
  match inner.entries with
  | [] => inner
  | (key, _) :: _ => inner.erase key

end TsoBatchList

/-! ### Threads -/

/-- Where a call of `async_get_ts` or `async_flush` is. -/
inductive CallerPc
  | idle
  /-- `async_flush` sends its renew request. -/
  | flushSend
  | flushWait
  /-- `pop` takes the read lock. -/
  | lock (retries : ℕ)
  /-- It has the read lock, and has tried the batches up to this key. -/
  | pop (retries : ℕ) (tried : Option ℕ)
  /-- It took the last timestamp of a batch, which it removes. -/
  | remove (ts key : ℕ)
  | ok (ts : ℕ)
  /-- No timestamp is left; it sends a renew request. -/
  | send (retries : ℕ)
  | wait (retries : ℕ)
  | err
  deriving DecidableEq

/-- A caller, with what had happened when its call started. -/
structure Caller where
  pc : CallerPc
  /-- The last timestamp PD had issued when the renew request of its flush came to PD. -/
  asked : Option ℕ
  /-- The timestamps that calls had returned. -/
  returnedBefore : List ℕ
  /-- For the flushes that had returned, the last timestamp PD had issued when their renew requests
  came to PD. -/
  flushedBefore : List ℕ

structure RenewRequest where
  needFlush : Bool
  /-- The background task is not a caller. -/
  sender : Option ℕ

/-- Where the renew thread is. `asked` is the last timestamp PD had issued when the request came to
it. -/
inductive RenewPc
  | recv
  | collect (requests : List RenewRequest)
  | ask (requests : List RenewRequest)
  /-- PD answered with the last timestamp of a batch. -/
  | push (requests : List RenewRequest) (asked batchSize lastTs : ℕ)
  | insert (requests : List RenewRequest) (asked : ℕ) (newBatch : TsoBatch)
  | checkLen (requests : List RenewRequest) (asked : ℕ)
  | popFirst (requests : List RenewRequest) (asked : ℕ)
  /-- PD failed, or the timestamps fell back. -/
  | fail (requests : List RenewRequest) (asked : ℕ)
  | respond (requests : List RenewRequest) (asked : ℕ) (ok : Bool)

/-- `MAX_RENEW_BATCH_SIZE` -/
def maxRenewBatchSize : ℕ := 64

/-- `GET_TS_MAX_RETRY` -/
def getTsMaxRetry : ℕ := 3

structure RenewParameter where
  batchMinSize : ℕ
  batchMaxSize : ℕ
  cacheMultiplier : ℕ

/-- `MAX_TSO_BATCH_LIST_CAPACITY` -/
def maxTsoBatchListCapacity : ℕ := 1024

variable (param : RenewParameter)

def RenewParameter.capacity : ℕ :=
  min param.cacheMultiplier maxTsoBatchListCapacity

/-- `usage` and `remain` are what the counters read as. The product is one of `u32`. -/
def calcNewBatchSize (usage remain : ℕ) (needFlush : Bool) : ℕ :=
  let newBatchSize := usage * param.cacheMultiplier % 2 ^ 32
  let newBatchSize := if needFlush then newBatchSize else newBatchSize - remain
  min (max newBatchSize param.batchMinSize) param.batchMaxSize

/-- A call that returned a timestamp, with what had happened when it started. -/
structure Returned where
  ts : ℕ
  returnedBefore : List ℕ
  flushedBefore : List ℕ

structure State where
  inner : TsoBatchList
  /-- The callers that have the read lock. -/
  readers : List ℕ
  callers : ℕ → Caller
  queue : List RenewRequest
  renew : RenewPc
  /-- The last timestamp PD has issued. -/
  issued : ℕ
  returned : List Returned
  flushed : List ℕ

namespace State

def init (issued : ℕ) : State where
  inner := OrderedMap.empty
  readers := []
  callers _ := ⟨.idle, none, [], []⟩
  queue := []
  renew := .recv
  issued := issued
  returned := []
  flushed := []

variable (s : State) (id : ℕ)

def setCaller (c : Caller) : State :=
  { s with callers := Function.update s.callers id c }

def goto (pc : CallerPc) : State :=
  s.setCaller id { s.callers id with pc := pc }

/-! ### Steps of callers -/

/-- A call starts. -/
def start (flush : Bool) : Option State :=
  match (s.callers id).pc with
  | .idle => some <| s.setCaller id
    { pc := if flush then .flushSend else .lock 0
      asked := none
      returnedBefore := s.returned.map (·.ts)
      flushedBefore := s.flushed }
  | _ => none

/-- The channel has room for so many requests. -/
def send (request : RenewRequest) : Option State :=
  if s.queue.length < maxRenewBatchSize then some { s with queue := s.queue ++ [request] } else none

def sendRequest : Option State :=
  match (s.callers id).pc with
  | .flushSend => (s.goto id .flushWait).send ⟨true, some id⟩
  | .send retries => (s.goto id (.wait retries)).send ⟨false, some id⟩
  | _ => none

def readLock : Option State :=
  match (s.callers id).pc with
  | .lock retries => some { s.goto id (.pop retries none) with readers := id :: s.readers }
  | _ => none

def unlock : State := { s with readers := s.readers.filter (· ≠ id) }

/-- One batch is tried; where none is left, `pop` returns without a timestamp. -/
def tryBatch : Option State :=
  match (s.callers id).pc with
  | .pop retries tried =>
    match s.inner.next tried with
    | none =>
      some ((s.unlock id).goto id (if getTsMaxRetry ≤ retries then .err else .send retries))
    | some (key, batch) =>
      let s := { s with inner := s.inner.insert key batch.popped }
      match batch.pop with
      | none => some (s.goto id (.pop retries (some key)))
      | some (ts, isUsedUp) =>
        some ((s.unlock id).goto id (if isUsedUp then .remove ts key else .ok ts))
  | _ => none

def removeBatch : Option State :=
  match (s.callers id).pc with
  | .remove ts key =>
    if s.readers.isEmpty then some { s.goto id (.ok ts) with inner := s.inner.erase key } else none
  | _ => none

/-- A call returns. -/
def finish : Option State :=
  let c := s.callers id
  let s := { s with flushed := c.asked.toList ++ s.flushed }
  match c.pc with
  | .ok ts => some
    { s.goto id .idle with returned := ⟨ts, c.returnedBefore, c.flushedBefore⟩ :: s.returned }
  | .err => some (s.goto id .idle)
  | _ => none

/-! ### Steps of the renew thread -/

def anyFlush (requests : List RenewRequest) : Bool := requests.any (·.needFlush)

/-- A request is received, or the next one is looked for. -/
def recv : Option State :=
  match s.renew, s.queue with
  | .recv, request :: queue => some { s with renew := .collect [request], queue := queue }
  | .collect requests, queue =>
    match queue with
    | request :: queue =>
      if requests.length < maxRenewBatchSize then
        some { s with renew := .collect (requests ++ [request]), queue := queue }
      else some { s with renew := .ask requests }
    | [] => some { s with renew := .ask requests }
  | _, _ => none

/-- PD's answer: a batch that is behind everything issued before and that the logical part has room
for. -/
def pdReply (s : State) (usage remain lastTs : ℕ) : Option State :=
  match s.renew with
  | .ask requests =>
    let batchSize := calcNewBatchSize param usage remain (anyFlush requests)
    if s.issued + batchSize ≤ lastTs ∧ batchSize ≤ logical lastTs + 1 then
      some { s with renew := .push requests s.issued batchSize lastTs, issued := lastTs }
    else none
  | _ => none

/-- PD fails; it may have issued timestamps all the same. -/
def pdError (issued : ℕ) : Option State :=
  match s.renew with
  | .ask requests =>
    if s.issued ≤ issued then some { s with renew := .fail requests s.issued, issued := issued }
    else none
  | _ => none

/-- PD issues timestamps to others. -/
def pdIssue (issued : ℕ) : Option State :=
  if s.issued ≤ issued then some { s with issued := issued } else none

/-- The renew thread goes on with the answer. -/
def process (s : State) : Option State :=
  match s.renew with
  | .push requests asked batchSize lastTs =>
    match TsoBatch.new batchSize lastTs with
    | none => none
    | some newBatch =>
      some { s with renew := if s.inner.fallsBack newBatch then .fail requests asked
        else .insert requests asked newBatch }
  | .insert requests asked newBatch =>
    if s.readers.isEmpty then
      some { s with
        renew := .checkLen requests asked
        inner := s.inner.push newBatch (anyFlush requests) }
    else none
  | .checkLen requests asked =>
    some { s with renew := if param.capacity < s.inner.entries.length then .popFirst requests asked
      else .respond requests asked true }
  | .popFirst requests asked =>
    if s.readers.isEmpty then
      some { s with renew := .respond requests asked true, inner := s.inner.popFirst }
    else none
  | .fail requests asked =>
    if anyFlush requests then
      if s.readers.isEmpty then
        some { s with renew := .respond requests asked false, inner := OrderedMap.empty }
      else none
    else some { s with renew := .respond requests asked false }
  | _ => none

/-- What a caller does with the answer to its request. -/
def answer (c : Caller) (request : RenewRequest) (asked : ℕ) (ok : Bool) : Caller :=
  match c.pc with
  | .flushWait =>
    { c with
      pc := if ok then .lock 0 else .err
      asked := if request.needFlush then some asked else none }
  | .wait retries => { c with pc := if ok then .lock (retries + 1) else .err }
  | _ => c

/-- The result is sent to one of those who asked for it. -/
def respond : Option State :=
  match s.renew with
  | .respond [] _ _ => some { s with renew := .recv }
  | .respond (request :: requests) asked ok =>
    let s := { s with renew := .respond requests asked ok }
    match request.sender with
    | none => some s
    | some id => some (s.setCaller id (answer (s.callers id) request asked ok))
  | _ => none

end State

inductive Event
  | start (id : ℕ) (flush : Bool)
  | sendRequest (id : ℕ)
  /-- The task that renews in intervals, or the first renewal. -/
  | background (needFlush : Bool)
  | readLock (id : ℕ)
  | tryBatch (id : ℕ)
  | removeBatch (id : ℕ)
  | finish (id : ℕ)
  | recv
  | pdReply (usage remain lastTs : ℕ)
  | pdError (issued : ℕ)
  | pdIssue (issued : ℕ)
  | process
  | respond

def State.step (s : State) : Event → Option State
  | .start id flush => s.start id flush
  | .sendRequest id => s.sendRequest id
  | .background needFlush => s.send ⟨needFlush, none⟩
  | .readLock id => s.readLock id
  | .tryBatch id => s.tryBatch id
  | .removeBatch id => s.removeBatch id
  | .finish id => s.finish id
  | .recv => s.recv
  | .pdReply usage remain lastTs => s.pdReply param usage remain lastTs
  | .pdError issued => s.pdError issued
  | .pdIssue issued => s.pdIssue issued
  | .process => s.process param
  | .respond => s.respond

end Tikv.CausalTs
