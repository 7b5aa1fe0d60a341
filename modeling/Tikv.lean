import Tikv.BackupStream.TwoPhaseResolver
import Tikv.BatchSystem.Wakeup
import Tikv.CausalTs.Causality
import Tikv.Codec.Key
import Tikv.Codec.Lock
import Tikv.Codec.Write
import Tikv.Concurrency.AsyncCommit
import Tikv.Encryption.Dicts
import Tikv.InMemoryEngine.CachedRegions
import Tikv.InMemoryEngine.GcSafePoint
import Tikv.InMemoryEngine.ManualLoad
import Tikv.InMemoryEngine.MemoryAccounting
import Tikv.Kv.CursorRuns
import Tikv.LockManager.DetectTable
import Tikv.LockManager.LockWaitingQueue
import Tikv.Mvcc.CommitRecord
import Tikv.Mvcc.RcCheckTs
import Tikv.Mvcc.ScanBackward
import Tikv.Mvcc.ScanLocks
import Tikv.QueryDatatype.AddMonths
import Tikv.Raftstore.CollectorEvents
import Tikv.Raftstore.ConfState
import Tikv.Raftstore.Lease
import Tikv.Raftstore.ProposalEpoch
import Tikv.Raftstore.ReadProgress
import Tikv.ResolvedTs.Tracking
import Tikv.Txn.AcquireIdempotent
import Tikv.Txn.Expiry
import Tikv.Txn.NoPanic
import Tikv.Txn.OnePc
import Tikv.Txn.ProtectedRollback
import Tikv.Txn.PushedAttributes
import Tikv.Txn.SnapshotIsolation
import Tikv.Txn.TxnStatusCache
