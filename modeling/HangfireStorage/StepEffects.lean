import HangfireStorage.JobEffects
import HangfireStorage.StorageSystem

/-!
# What steps do

Every step of the storage system has one of a fixed list of outcomes. Invariants split cases
on this relation and never on the step function.
-/

namespace HangfireStorage
namespace StorageSystem

open JobQueue DistributedLock ExpirationManager

/-- `now - InvisibilityTimeout` in the whole milliseconds that `AddSeconds` counts. -/
def cutoffAt (invisibilityTimeout now : ℤ) : ℤ :=
  now + DateTime.roundToMilliseconds (-invisibilityTimeout) * DateTime.ticksPerMillisecond

theorem cutoff_eq_ok {T now c : ℤ} (h : cutoff T now = .ok c) : c = cutoffAt T now :=
  (DateTime.add_eq_ok.mp h).2

/-- The state after a step of which only the database sees something. -/
def StorageState.withDb (s : StorageState) (db : Db) : StorageState := { s with db := db }

/-- The queue row of a handle becomes visible again. -/
def StorageState.requeue (s : StorageState) (i : ℕ) (h h' : Handle) : StorageState :=
  { s with
    db := { s.db with
      jobQueue := s.db.jobQueue.modify (fun r => r.id = h.job.id) (setFetchedAt none) }
    handles := s.handles.set i h' }

inductive StepEffect (ser : SerializationHelper) (T : ℤ) (s : StorageState) :
    Action → StorageState → Event → Prop
  | idle {a : Action} : StepEffect ser T s a s .silent
  | failed {a : Action} (f : Fault) : StepEffect ser T s a s (.failed f)
  | advanced (d : ℕ) :
      StepEffect ser T s (.advance d) { s with now := s.now+d } (.advanced (s.now+d))
  | committed {cmds : List (ℤ × WriteCommand)} {db : Db}
      (h : WriteOnlyTransaction.commit ser cmds s.db = .ok db) :
      StepEffect ser T s (.commit cmds) (s.withDb db) (.committed cmds)
  | created {a b : String} {p : Dictionary} {c e expireAt : ℤ} (he : DateTime.add c e = .ok expireAt) :
      StepEffect ser T s (.createExpiredJob a b p c e)
        (s.withDb { s.db with
          job := s.db.job.insert ⟨0,a,b,c,some expireAt,none,none,none⟩
          jobParameter :=
            JobStorageConnection.insertParameters s.db.job.nextId p.entries s.db.jobParameter })
        (.created s.db.job.nextId)
  | fetched {o : RowOrder JobQueueRow} {queues : List String} {token : String} {i : JobQueueRow}
      {j : ℤ} (hi : i ∈ s.db.jobQueue.rows) (hel : eligible (cutoffAt T s.now) i = true)
      (hq : i.queue ∈ queues) (hj : i.job = some j) : StepEffect ser T s (.dequeue o queues token)
        { s with
          db := { s.db with jobQueue := s.db.jobQueue.put (marked token s.now i) }
          handles := s.handles ++ [Handle.new ⟨i.id,j,i.queue⟩] }
        (.fetched s.handles.length i.id s.now)
  | removed {i : ℕ} {h : Handle} (hc : i ∉ s.crashed) (hi : s.handles[i]? = some h) :
      StepEffect ser T s (.removeFromQueue i false)
        { s with
          db := { s.db with jobQueue := s.db.jobQueue.delete fun r => r.id = h.job.id }
          handles := s.handles.set i { h with removedFromQueue := true } }
        (.removed i h.job.id)
  | requeued {i : ℕ} {h : Handle} (hc : i ∉ s.crashed) (hi : s.handles[i]? = some h) :
      StepEffect ser T s (.requeue i false) (s.requeue i h { h with requeued := true })
        (.requeued i h.job.id)
  | disposeRequeued {i : ℕ} {h : Handle} (hc : i ∉ s.crashed) (hi : s.handles[i]? = some h)
      (hd : h.disposeRequeues = true) :
      StepEffect ser T s (.dispose i false)
        (s.requeue i h { h with requeued := true, disposed := true }) (.disposed i h.job.id true)
  | disposed {i : ℕ} {fails : Bool} {h : Handle} (hi : s.handles[i]? = some h)
      (hd : h.disposeRequeues = false) :
      StepEffect ser T s (.dispose i fails)
        { s with handles := s.handles.set i { h with disposed := true } } (.disposed i h.job.id false)
  | crashed (i : ℕ) : StepEffect ser T s (.crash i) { s with crashed := i::s.crashed } .silent
  | inserted {o : RowOrder DistributedLockRow} {resource : String} {timeout : ℤ}
      (hno : ∀ i ∈ s.db.distributedLock.rows, i.resource ≠ resource) :
      StepEffect ser T s (.acquireLock o resource timeout)
        { s with
          db := { s.db with distributedLock :=
            s.db.distributedLock.insert (inserted resource s.now (s.now+timeout)) }
          locks := s.locks ++ [⟨resource,timeout,some s.db.distributedLock.nextId⟩] }
        (.acquired s.locks.length resource timeout s.now)
  | reused {o : RowOrder DistributedLockRow} {timeout : ℤ} {i : DistributedLockRow}
      (hi : i ∈ s.db.distributedLock.rows) (hlt : i.expireAtAsLong < DateTime.toEpochDate s.now) :
      StepEffect ser T s (.acquireLock o i.resource timeout)
        { s with
          db := { s.db with distributedLock :=
            s.db.distributedLock.put (reused s.now (s.now+timeout) i) }
          locks := s.locks ++ [⟨i.resource,timeout,some i.id⟩] }
        (.acquired s.locks.length i.resource timeout s.now)
  | released {i : ℕ} {l : Lock} {id : ℤ} {t : Table DistributedLockRow} (hi : s.locks[i]? = some l)
      (hid : l.lockId = some id) (ht : t = s.db.distributedLock.delete fun r => r.id = id) :
      StepEffect ser T s (.releaseLock i false)
        { s with
          db := { s.db with distributedLock := t }
          locks := s.locks.set i { l with lockId := none } }
        (.released i l.resource (t ≠ s.db.distributedLock))
  | releasedAgain {i : ℕ} {fails : Bool} (r : String) :
      StepEffect ser T s (.releaseLock i fails) s (.released i r false)
  | aggregated {o : RowOrder CounterRow} {db : Db} (h : CountersAggregator.pass o s.db = .ok db) :
      StepEffect ser T s (.aggregate o) (s.withDb db) .silent
  | selected (k : Kind) (o : RowOrder ℤ) (b : ℤ) (age : ℕ) :
      StepEffect ser T s (.select k o b age)
        { s with sweeps := s.sweeps ++
          [Sweep.start k o (numberOfRecordsInSinglePass b) (s.now-age) s.db] } .silent
  | deleted {i : ℕ} {w : Sweep} {batch : List ℤ} {rest : List (List ℤ)} (hi : s.sweeps[i]? = some w)
      (hp : w.pending = batch::rest)
      (hr : w.kind = .job → ∀ j ∈ ids .job s.db, j ∈ batch → ¬ s.db.Referenced j) :
      StepEffect ser T s (.deleteBatch i)
        { s with db := deleteRows batch s.db w.kind, sweeps := s.sweeps.set i { w with pending := rest } }
        (.deleted w.kind (batch.filter (ids w.kind s.db).contains))
  | deletedNothing {i : ℕ} (k : Kind) : StepEffect ser T s (.deleteBatch i) s (.deleted k [])
  | deleteFailed {i : ℕ} {w : Sweep} (f : Fault) (hi : s.sweeps[i]? = some w) :
      StepEffect ser T s (.deleteBatch i) { s with sweeps := s.sweeps.set i ⟨w.kind,[]⟩ } (.failed f)

section Steps

variable {ser : SerializationHelper} {T : ℤ} {s : StorageState}

/-- A call that is not made or throws changes nothing. -/
theorem callHandle_effect {a : Action} {i : ℕ} {f : Handle → Db → Except Fault (Handle × Db)}
    {ev : Handle → Event}
    (hf : ∀ h h' db', i ∉ s.crashed → s.handles[i]? = some h → f h s.db = .ok (h',db') →
      StepEffect ser T s a { s with db := db', handles := s.handles.set i h' } (ev h)) :
    StepEffect ser T s a (callHandle i f ev s).1 (callHandle i f ev s).2 := by
  unfold callHandle
  split_ifs with hc
  · exact .idle
  · cases hi : s.handles[i]? with
    | none => exact .idle
    | some h =>
      simp only
      cases hr : f h s.db with
      | error e => exact .failed e
      | ok r => exact hf h r.1 r.2 hc hi hr

theorem releaseLock_effect (i : ℕ) (fails : Bool) :
    StepEffect ser T s (.releaseLock i fails) (releaseLock i fails s).1 (releaseLock i fails s).2 := by
  unfold releaseLock
  cases hi : s.locks[i]? with
  | none => exact .idle
  | some l =>
    simp only
    cases hr : l.release fails s.db with
    | error e => exact .failed e
    | ok r =>
      obtain ⟨l',db'⟩ := r
      obtain ⟨-,rfl,rfl⟩ | ⟨id,hid,rfl,rfl,rfl⟩ := Lock.release_eq_ok hr
      · obtain ⟨hlt,rfl⟩ := List.getElem?_eq_some_iff.mp hi
        have hset : s.locks.set i s.locks[i] = s.locks := List.set_getElem_self hlt
        have hev : decide (s.db.distributedLock ≠ s.db.distributedLock) = false := by simp
        simp only [hset,hev]
        exact .releasedAgain _
      · exact .released hi hid rfl

theorem deleteBatch_effect (i : ℕ) :
    StepEffect ser T s (.deleteBatch i) (deleteBatch i s).1 (deleteBatch i s).2 := by
  unfold deleteBatch
  cases hi : s.sweeps[i]? with
  | none => exact .idle
  | some w =>
    simp only
    cases hr : w.next s.db with
    | error e => exact .deleteFailed e hi
    | ok r =>
      obtain ⟨w',db'⟩ := r
      obtain ⟨hp,rfl,rfl⟩ | ⟨batch,rest,n,hp,rfl,hd⟩ := Sweep.next_eq_ok hr
      · obtain ⟨hlt,rfl⟩ := List.getElem?_eq_some_iff.mp hi
        have hset : s.sweeps.set i s.sweeps[i] = s.sweeps := List.set_getElem_self hlt
        simp only [hset,hp]
        exact .deletedNothing _
      · obtain ⟨rfl,-,hrefs⟩ := deleteStatement_eq_ok hd
        simp only [hp,List.headD_cons]
        exact .deleted hi hp hrefs

theorem step_effect (a : Action) : StepEffect ser T s a (step ser T s a).1 (step ser T s a).2 := by
  cases a with
  | advance d => exact .advanced d
  | commit cmds =>
    simp only [step]
    cases h : WriteOnlyTransaction.commit ser cmds s.db with
    | error e => exact .failed e
    | ok db => exact .committed h
  | createExpiredJob a b p c e =>
    simp only [step]
    cases h : JobStorageConnection.createExpiredJob a b p c e s.db with
    | error f => exact .failed f
    | ok r =>
      obtain ⟨expireAt,he,rfl⟩ := map_eq_ok h
      exact .created he
  | dequeue o queues token =>
    simp only [step]
    cases h : fetch T o queues token s.now s.db with
    | error e => exact .failed e
    | ok r =>
      obtain ⟨res,db⟩ := r
      obtain ⟨c,hc,⟨rfl,rfl,-⟩ | ⟨i,hi,j,hj,rfl,rfl⟩⟩ := fetch_eq_ok h
      · exact .idle
      · obtain ⟨hmem,hel,hq⟩ := mem_candidates.mp hi
        rw [cutoff_eq_ok hc] at hel
        exact .fetched hmem hel hq hj
  | removeFromQueue i fails =>
    refine callHandle_effect fun h h' db' hc hi hr => ?_
    cases fails with
    | true => cases hr
    | false =>
      cases hr
      exact .removed hc hi
  | requeue i fails =>
    refine callHandle_effect fun h h' db' hc hi hr => ?_
    cases fails with
    | true => cases hr
    | false =>
      cases hr
      exact .requeued hc hi
  | dispose i fails =>
    refine callHandle_effect fun h h' db' hc hi hr => ?_
    obtain ⟨hd,rfl,rfl,rfl⟩ | ⟨hd,rfl,rfl⟩ := Handle.dispose_eq_ok hr
    · rw [hd]
      exact .disposeRequeued hc hi hd
    · rw [hd]
      exact .disposed hi hd
  | crash i => exact .crashed i
  | acquireLock o resource timeout =>
    simp only [step]
    cases h : tryAcquireWithEntity o resource timeout s.now s.db with
    | error e => exact .failed e
    | ok r =>
      obtain ⟨res,db⟩ := r
      obtain ⟨rfl,rfl⟩ | ⟨rfl,hno,rfl⟩ | ⟨i,hi,rfl,hlt,rfl,rfl⟩ := tryAcquireWithEntity_eq_ok h
      · exact .idle
      · exact .inserted hno
      · exact .reused hi hlt
  | releaseLock i fails => exact releaseLock_effect i fails
  | aggregate o =>
    simp only [step]
    cases h : CountersAggregator.pass o s.db with
    | error e => exact .failed e
    | ok db => exact .aggregated h
  | select k o b age => exact .selected k o b age
  | deleteBatch i => exact deleteBatch_effect i

end Steps

end StorageSystem
end HangfireStorage
