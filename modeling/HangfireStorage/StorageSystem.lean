import HangfireStorage.CountersAggregator
import HangfireStorage.DistributedLock
import HangfireStorage.ExpirationManager
import HangfireStorage.JobStorageConnection
import HangfireStorage.Machine

/-!
# The storage and its clients

Clients that commit transactions, workers that fetch rows and hold handles, lock
objects, aggregation passes and clean-up steps, acting one transaction or one
bare statement at a time on one database and one clock.
-/

namespace HangfireStorage
namespace StorageSystem

open JobQueue DistributedLock ExpirationManager

/-- Handles, lock objects and clean-up steps are numbered in the order they came to be. -/
structure StorageState where
  db : Db
  now : ℤ
  handles : List Handle
  crashed : List ℕ
  locks : List Lock
  sweeps : List Sweep

def initial (now : ℤ) : StorageState := ⟨.empty,now,[],[],[],[]⟩

/-- `fails` says that the database statement of the call throws. A clean-up step may have
read its cut-off `age` ticks ago. -/
inductive Action
  | advance (d : ℕ)
  | commit (cmds : List (ℤ × WriteCommand))
  | createExpiredJob (invocationData arguments : String) (parameters : Dictionary)
      (createdAt expireIn : ℤ)
  | dequeue (o : RowOrder JobQueueRow) (queues : List String) (token : String)
  | removeFromQueue (i : ℕ) (fails : Bool)
  | requeue (i : ℕ) (fails : Bool)
  | dispose (i : ℕ) (fails : Bool)
  | crash (i : ℕ)
  | acquireLock (o : RowOrder DistributedLockRow) (resource : String) (timeout : ℤ)
  | releaseLock (i : ℕ) (fails : Bool)
  | aggregate (o : RowOrder CounterRow)
  | select (k : Kind) (o : RowOrder ℤ) (deleteExpiredBatchSize : ℤ) (age : ℕ)
  | deleteBatch (i : ℕ)

/-- Actions of the expiration manager. -/
def Action.isCleanup : Action → Bool
  | .select _ _ _ _ => true
  | .deleteBatch _ => true
  | _ => false

/-- The row in an event is the one the handle was built for. -/
inductive Event
  | silent
  | failed (f : Fault)
  | advanced (now : ℤ)
  | committed (cmds : List (ℤ × WriteCommand))
  | created (job : ℤ)
  | fetched (i : ℕ) (row now : ℤ)
  | removed (i : ℕ) (row : ℤ)
  | requeued (i : ℕ) (row : ℤ)
  | disposed (i : ℕ) (row : ℤ) (requeued : Bool)
  | acquired (i : ℕ) (resource : String) (timeout now : ℤ)
  | released (i : ℕ) (resource : String) (deleted : Bool)
  | deleted (k : Kind) (rows : List ℤ)
  deriving DecidableEq

/-- A call on handle `i`, when there is such a handle and its worker is alive. -/
def callHandle (i : ℕ) (f : Handle → Db → Except Fault (Handle × Db)) (ev : Handle → Event)
    (s : StorageState) : StorageState × Event :=
  if i ∈ s.crashed then (s,.silent) else
  match s.handles[i]? with
  | none => (s,.silent)
  | some h =>
    match f h s.db with
    | .error e => (s,.failed e)
    | .ok (h',db') => ({ s with db := db', handles := s.handles.set i h' },ev h)

def releaseLock (i : ℕ) (fails : Bool) (s : StorageState) : StorageState × Event :=
  match s.locks[i]? with
  | none => (s,.silent)
  | some l =>
    match l.release fails s.db with
    | .error e => (s,.failed e)
    | .ok (l',db') => ({ s with db := db', locks := s.locks.set i l' },
      .released i l.resource (db'.distributedLock ≠ s.db.distributedLock))

/-- An exception ends the clean-up step. -/
def deleteBatch (i : ℕ) (s : StorageState) : StorageState × Event :=
  match s.sweeps[i]? with
  | none => (s,.silent)
  | some w =>
    match w.next s.db with
    | .error e => ({ s with sweeps := s.sweeps.set i ⟨w.kind,[]⟩ },.failed e)
    | .ok (w',db') => ({ s with db := db', sweeps := s.sweeps.set i w' },
      .deleted w.kind ((w.pending.headD []).filter (ids w.kind s.db).contains))

def step (ser : SerializationHelper) (invisibilityTimeout : ℤ) (s : StorageState) :
    Action → StorageState × Event
  | .advance d => ({ s with now := s.now+d },.advanced (s.now+d))
  | .commit cmds =>
    match WriteOnlyTransaction.commit ser cmds s.db with
    | .error e => (s,.failed e)
    | .ok db => ({ s with db := db },.committed cmds)
  | .createExpiredJob invocationData arguments parameters createdAt expireIn =>
    match JobStorageConnection.createExpiredJob invocationData arguments parameters createdAt
      expireIn s.db with
    | .error e => (s,.failed e)
    | .ok (job,db) => ({ s with db := db },.created job)
  | .dequeue o queues token =>
    match fetch invisibilityTimeout o queues token s.now s.db with
    | .error e => (s,.failed e)
    | .ok (none,db) => ({ s with db := db },.silent)
    | .ok (some job,db) => ({ s with db := db, handles := s.handles ++ [Handle.new job] },
      .fetched s.handles.length job.id s.now)
  | .removeFromQueue i fails =>
    callHandle i (Handle.removeFromQueue fails) (fun h => .removed i h.job.id) s
  | .requeue i fails => callHandle i (Handle.requeue fails) (fun h => .requeued i h.job.id) s
  | .dispose i fails =>
    callHandle i (Handle.dispose fails) (fun h => .disposed i h.job.id h.disposeRequeues) s
  | .crash i => ({ s with crashed := i::s.crashed },.silent)
  | .acquireLock o resource timeout =>
    match tryAcquireWithEntity o resource timeout s.now s.db with
    | .error e => (s,.failed e)
    | .ok (none,db) => ({ s with db := db },.silent)
    | .ok (some id,db) => ({ s with db := db, locks := s.locks ++ [⟨resource,timeout,some id⟩] },
      .acquired s.locks.length resource timeout s.now)
  | .releaseLock i fails => releaseLock i fails s
  | .aggregate o =>
    match CountersAggregator.pass o s.db with
    | .error e => (s,.failed e)
    | .ok db => ({ s with db := db },.silent)
  | .select k o deleteExpiredBatchSize age => ({ s with sweeps := s.sweeps ++ [Sweep.start k o
      (numberOfRecordsInSinglePass deleteExpiredBatchSize) (s.now-age) s.db] },.silent)
  | .deleteBatch i => deleteBatch i s

end StorageSystem
end HangfireStorage
