import HangfireStorage.AggregationLoop
import HangfireStorage.Dequeue
import HangfireStorage.ExpirationExecute
import HangfireStorage.StepEffects

/-!
# The processes of the servers

Workers that call Dequeue, expiration managers and counters aggregators that execute, any number
of each, step by step on one storage. The storage keeps the books: handles, lock objects and
clean-up steps have the numbers under which it lists them.
-/

namespace HangfireStorage

def Dequeue.Position.lock : Dequeue.Position → Option DistributedLock.Lock
  | .fetch lock | .release lock _ => some lock
  | _ => none

def Dequeue.Position.releases : Dequeue.Position → Option ℤ
  | .release lock _ => lock.lockId
  | _ => none

def ExpirationExecute.Position.lock : ExpirationExecute.Position → Option DistributedLock.Lock
  | .delete lock _ | .release lock _ => some lock
  | _ => none

def ExpirationExecute.Position.releases : ExpirationExecute.Position → Option ℤ
  | .release lock _ => lock.lockId
  | _ => none

namespace Processes

open DistributedLock ExpirationManager JobQueue LockScope Machine StorageSystem

/-- A call of Dequeue between two steps. Its lock object and its handle go by their numbers, and
the lock was granted at `since`. -/
structure DequeueCall where
  queues : List String
  position : Dequeue.Position
  fetchedJob : Option FetchedJob
  handle : ℕ
  lock : ℕ
  since : ℤ

/-- `Execute` of an expiration manager between two steps. In a call of `DeleteEntities`, `sweep` is
the number of the clean-up step, what it has still to delete, and how many rows it has deleted. -/
structure CleanUp where
  deleteExpiredBatchSize : ℤ
  actions : List ExpirationExecute.Action
  position : ExpirationExecute.Position
  errors : List (ExpirationExecute.Action × Thrown)
  sweep : Option (ℕ × Sweep × ℕ)
  lock : ℕ
  since : ℤ

inductive Process
  | idle
  | dequeue (c : DequeueCall)
  | cleanUp (c : CleanUp)
  | aggregator (removedCount : ℕ)

/-- A call begins, or the one under way takes a step and meets a circumstance. The cut-off of a
call of `DeleteEntities` was read `age` ticks before its select statement. -/
inductive Input
  | dequeue (queues : List String)
  | cleanUp (deleteExpiredBatchSize : ℤ)
  | aggregate
  | dequeueStep (i : Dequeue.Circumstance)
  | cleanUpStep (i : ExpirationExecute.Circumstance) (age : ℕ)
  | aggregateStep (o : RowOrder CounterRow)

inductive Outcome
  | silent
  | returned (handle : ℕ) (job : FetchedJob)
  | thrown (e : Thrown)

/-- The lock objects after a step of a process that holds `before`: a grant lists another one, and
one whose row has been deleted counts as released. -/
def bookLocks (number : ℕ) (before after : Option Lock) (deletes : Bool) (locks : List Lock) :
    List Lock :=
  match before, after with
  | some lock, _ => if deletes then locks.set number { lock with lockId := none } else locks
  | none, some lock => locks ++ [lock]
  | none, none => locks

def deletesRow (i : LockScope.Circumstance) (releases : Option ℤ) : Bool :=
  releases.isSome && (i.thrown.isNone || i.deleted)

/-- The job that the fetch transaction at hand has committed. -/
def committedJob (before : Dequeue.Position) (r : Dequeue.CallState) : Option FetchedJob :=
  match before, r.position with
  | .fetch _, .release _ none => r.fetchedJob
  | _, _ => none

def dequeueStep (options : Dequeue.Options) (i : Dequeue.Circumstance) (s : StorageState)
    (c : DequeueCall) : (StorageState × Process) × Outcome :=
  let r := Dequeue.step options c.queues { i with utcNow := s.now } ⟨s.db,c.position,c.fetchedJob⟩
  let job := committedJob c.position r.1
  let s' := { s with
    db := r.1.db
    handles := s.handles ++ job.toList.map Handle.new
    locks := bookLocks c.lock c.position.lock r.1.position.lock
      (deletesRow i.toCircumstance c.position.releases) s.locks }
  match r.2 with
  | some (.ok job) => ((s',.idle),.returned c.handle job)
  | some (.error e) => ((s',.idle),.thrown e)
  | none => ((s',.dequeue { c with
      position := r.1.position
      fetchedJob := r.1.fetchedJob
      handle := if job.isSome then s.handles.length else c.handle
      lock := if c.position.lock.isSome then c.lock else s.locks.length
      since := if c.position.lock.isSome then c.since else s.now }),.silent)

def lockStep (a : ExpirationExecute.Action) (i : ExpirationExecute.Circumstance) (s : StorageState)
    (c : CleanUp) : StorageState × Process :=
  let r := ExpirationExecute.advance (numberOfRecordsInSinglePass c.deleteExpiredBatchSize) a
    { i with utcNow := s.now } ⟨s.db,c.actions,c.position,c.errors⟩
  ({ s with
      db := r.db
      locks := bookLocks c.lock c.position.lock r.position.lock
        (deletesRow i.toCircumstance c.position.releases) s.locks },
    .cleanUp { c with
      actions := r.actions
      position := r.position
      errors := r.errors
      lock := if c.position.lock.isSome then c.lock else s.locks.length
      since := if c.position.lock.isSome then c.since else s.now })

def raise (lock : Lock) (e : Thrown) (c : CleanUp) : Process :=
  .cleanUp { c with position := .release lock (.raised e), sweep := none }

/-- A statement of a call of `DeleteEntities`: the select statement, or the next delete statement. -/
def deleteStep (a : ExpirationExecute.Action) (lock : Lock) (i : ExpirationExecute.Circumstance)
    (age : ℕ) (s : StorageState) (c : CleanUp) : List Kind → StorageState × Process
  | [] => (s,.cleanUp { c with position := .release lock .broke })
  | k::ks =>
    let n := numberOfRecordsInSinglePass c.deleteExpiredBatchSize
    match i.thrown, c.sweep with
    | some e, _ => (s,raise lock e c)
    | none, none =>
      let w := Sweep.start k i.order n (s.now-age) s.db
      ({ s with sweeps := s.sweeps ++ [w] },.cleanUp { c with sweep := some (s.sweeps.length,w,0) })
    | none, some (number,w,count) =>
      match w.pending with
      | [] => (s,.cleanUp { c with position := ExpirationExecute.passed n a lock count ks, sweep := none })
      | batch::rest =>
        match deleteStatement batch s.db w.kind with
        | .error f => ({ s with sweeps := s.sweeps.set number ⟨w.kind,[]⟩ },raise lock (.ofFault f) c)
        | .ok (db,m) => ({ s with db := db, sweeps := s.sweeps.set number { w with pending := rest } },
            .cleanUp { c with sweep := some (number,{ w with pending := rest },count+m) })

def cleanUpStep (i : ExpirationExecute.Circumstance) (age : ℕ) (s : StorageState) (c : CleanUp) :
    StorageState × Process :=
  match c.actions, c.position with
  | [], _ => (s,.idle)
  | a::_, .delete lock kinds => deleteStep a lock i age s c kinds
  | a::_, _ => lockStep a i s c

def aggregateStep (o : RowOrder CounterRow) (s : StorageState) (removedCount : ℕ) :
    StorageState × Process :=
  let r := CountersAggregator.round o (removedCount,s.db)
  (s.withDb r.1.2,if r.2.isSome then .idle else .aggregator r.1.1)

/-- An array of queues that is empty is refused at once. -/
def processStep (options : Dequeue.Options) (k : Input) (s : StorageState) (p : Process) :
    (StorageState × Process) × Outcome :=
  match k, p with
  | .dequeue queues, .idle =>
    if queues = [] then ((s,.idle),.thrown (.ofFault .argument))
    else ((s,.dequeue ⟨queues,.head,none,0,0,0⟩),.silent)
  | .cleanUp size, .idle =>
    ((s,.cleanUp ⟨size,ExpirationExecute.actions,.acquire,[],none,0,0⟩),.silent)
  | .aggregate, .idle => ((s,.aggregator 0),.silent)
  | .dequeueStep i, .dequeue c => dequeueStep options i s c
  | .cleanUpStep i age, .cleanUp c => (cleanUpStep i age s c,.silent)
  | .aggregateStep o, .aggregator removedCount => (aggregateStep o s removedCount,.silent)
  | _, _ => ((s,p),.silent)

/-- A lock object by its number, with the time at which it was granted. -/
structure Held where
  number : ℕ
  since : ℤ
  lock : Lock

namespace Process

/-- The lock object of the using block that the process is in, or is leaving. -/
def held : Process → Option Held
  | .dequeue c => c.position.lock.map (Held.mk c.lock c.since)
  | .cleanUp c => c.position.lock.map (Held.mk c.lock c.since)
  | _ => none

def inside : Process → Option Held
  | .dequeue c => match c.position with
    | .fetch lock => some ⟨c.lock,c.since,lock⟩
    | _ => none
  | .cleanUp c => match c.position with
    | .delete lock _ => some ⟨c.lock,c.since,lock⟩
    | _ => none
  | _ => none

def handle : Process → Option (ℕ × FetchedJob)
  | .dequeue c => c.fetchedJob.map (c.handle,·)
  | _ => none

def sweep : Process → Option (ℕ × Sweep)
  | .cleanUp c => c.sweep.map fun x => (x.1,x.2.1)
  | _ => none

structure Within (p q : Process) : Prop where
  held : ∀ x ∈ p.held, x ∈ q.held
  inside : ∀ x ∈ p.inside, x ∈ q.inside
  handle : ∀ x ∈ p.handle, x ∈ q.handle
  sweep : ∀ x ∈ p.sweep, x ∈ q.sweep

theorem within_idle (p : Process) : Within .idle p := ⟨nofun,nofun,nofun,nofun⟩

theorem Within.refl (p : Process) : Within p p := ⟨fun _ => id,fun _ => id,fun _ => id,fun _ => id⟩

end Process

end Processes
end HangfireStorage
