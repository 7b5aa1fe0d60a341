import Tikv.TxnTypes

/-!
# The concurrency manager and the timestamps of async commit

`max_ts` is the largest timestamp a read has been served at. An async-commit or one-phase
transaction has no commit timestamp from the timestamp oracle: it takes a lower bound for it,
`min_commit_ts`, that is larger than `max_ts` at the moment its lock becomes visible in memory
(`asyncCommitTimestamps`).
-/

namespace Tikv

/-- `ConcurrencyManager::update_max_ts`, for a timestamp within the limit. -/
def updateMaxTs (maxTs newTs : ℕ) : ℕ :=
  if newTs = TimeStamp.max then maxTs else max maxTs newTs

theorem le_updateMaxTs (maxTs newTs : ℕ) : maxTs ≤ updateMaxTs maxTs newTs := by
  rw [updateMaxTs]
  split <;> omega

theorem ts_le_updateMaxTs {maxTs newTs : ℕ} (h : newTs ≠ TimeStamp.max) :
    newTs ≤ updateMaxTs maxTs newTs := by
  rw [updateMaxTs, if_neg h]
  omega

variable {K : Type}

/-- The part of `async_commit_timestamps` under the lock of the key handle: the lock that is
stored in memory, with its `min_commit_ts`. -/
def asyncCommitTimestamps (maxTs : ℕ) (lock : Lock K) (startTs forUpdateTs maxCommitTs : ℕ) :
    Res K (Lock K) := do
  let next ← liftPanic (TimeStamp.next (max (max maxTs startTs) forUpdateTs))
  let minCommitTs := max lock.minCommitTs next
  if maxCommitTs ≠ 0 ∧ maxCommitTs < minCommitTs then
    -- The commit timestamp is too large; the transaction falls back to two-phase commit.
    .error (.error (.commitTsTooLarge startTs minCommitTs maxCommitTs))
  else .ok { lock with minCommitTs := minCommitTs }

/-- The computed `min_commit_ts` is beyond `max_ts` and the timestamps of the transaction. -/
theorem asyncCommitTimestamps_spec {maxTs startTs forUpdateTs maxCommitTs : ℕ}
    {lock lock' : Lock K}
    (h : asyncCommitTimestamps maxTs lock startTs forUpdateTs maxCommitTs = .ok lock') :
    ∃ m, lock' = { lock with minCommitTs := m } ∧ lock.minCommitTs ≤ m ∧ maxTs < m ∧
      startTs < m ∧ forUpdateTs < m := by
  rw [asyncCommitTimestamps, TimeStamp.next] at h
  split at h
  · simp only [liftPanic_ok, ok_bind] at h
    split_ifs at h
    cases h
    refine ⟨_, rfl, ?_⟩
    omega
  · cases h

end Tikv
