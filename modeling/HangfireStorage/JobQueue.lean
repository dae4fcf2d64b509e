import HangfireStorage.SqlUtil

/-!
# Enqueue, the fetch transaction of Dequeue, and the fetched-job handle
-/

namespace HangfireStorage
namespace JobQueue

/-- A job id that parses but names no job leaves the reference null. -/
def enqueue (queue jobId : String) (db : Db) : Except Fault Db :=
  match StringToInt32Converter.convert jobId with
  | none => .ok db
  | some v =>
    match SqlUtil.singleOrDefault (db.job.rows.filter fun i => Row.id i = v) with
    | .error f => .error f
    | .ok job => .ok { db with
        jobQueue := db.jobQueue.insert ⟨0,job.map JobRow.id,queue,none,none⟩ }

theorem enqueue_eq_ok {queue j : String} {db db' : Db} (h : enqueue queue j db = .ok db') :
    (StringToInt32Converter.convert j = none ∧ db' = db) ∨
      ∃ v, StringToInt32Converter.convert j = some v ∧ db' = { db with
        jobQueue := db.jobQueue.insert ⟨0,(db.job.byId v).map JobRow.id,queue,none,none⟩ } := by
  unfold enqueue at h
  cases hj : StringToInt32Converter.convert j with
  | none =>
    simp only [hj,Except.ok.injEq] at h
    exact .inl ⟨rfl,h.symm⟩
  | some v =>
    simp only [hj,SqlUtil.singleOrDefault_id,Except.ok.injEq] at h
    exact .inr ⟨v,rfl,h.symm⟩

def cutoff (invisibilityTimeout now : ℤ) : Except Fault ℤ :=
  DateTime.addSeconds now (-invisibilityTimeout)

def eligible (cutoff : ℤ) (i : JobQueueRow) : Bool :=
  i.fetchedAt.isNone || expiredBefore cutoff i.fetchedAt

/-- The rows of the named queues that are up for a fetch. -/
def candidates (cutoff : ℤ) (queues : List String) (db : Db) : List JobQueueRow :=
  db.jobQueue.rows.filter fun i => eligible cutoff i && queues.contains i.queue

structure FetchedJob where
  id : ℤ
  jobId : ℤ
  queue : String
  deriving DecidableEq, Repr

def marked (token : String) (now : ℤ) (i : JobQueueRow) : JobQueueRow :=
  { i with fetchToken := some token, fetchedAt := some now }

/-- The fetch transaction. Reading the id of a null job throws after the update, which is
then rolled back. -/
def fetch (invisibilityTimeout : ℤ) (o : RowOrder JobQueueRow) (queues : List String)
    (token : String) (now : ℤ) (db : Db) : Except Fault (Option FetchedJob × Db) :=
  match cutoff invisibilityTimeout now with
  | .error f => .error f
  | .ok c =>
    match o.firstOrDefault (candidates c queues db) with
    | none => .ok (none,db)
    | some i =>
      match i.job with
      | none => .error .nullReference
      | some j => .ok (some ⟨i.id,j,i.queue⟩,{ db with jobQueue := db.jobQueue.put (marked token now i) })

/-- `FluentNHibernateFetchedJob` with its three flags. -/
structure Handle where
  job : FetchedJob
  removedFromQueue : Bool
  requeued : Bool
  disposed : Bool
  deriving DecidableEq, Repr

def Handle.new (job : FetchedJob) : Handle := ⟨job,false,false,false⟩

def setFetchedAt (v : Option ℤ) : Update JobQueueRow := ⟨fun i => { i with fetchedAt := v },fun _ => rfl⟩

/-- `fails` says that the database statement throws. -/
def Handle.removeFromQueue (fails : Bool) (h : Handle) (db : Db) : Except Fault (Handle × Db) :=
  if fails then .error .statement else
    .ok ({ h with removedFromQueue := true },
      { db with jobQueue := db.jobQueue.delete fun i => i.id = h.job.id })

/-- `UpdateJobQueueFetchedAtStatement` with a null value. -/
def Handle.requeue (fails : Bool) (h : Handle) (db : Db) : Except Fault (Handle × Db) :=
  if fails then .error .statement else
    .ok ({ h with requeued := true },
      { db with jobQueue := db.jobQueue.modify (fun i => i.id = h.job.id) (setFetchedAt none) })

def Handle.disposeRequeues (h : Handle) : Bool := !h.disposed && !h.removedFromQueue && !h.requeued

def Handle.dispose (fails : Bool) (h : Handle) (db : Db) : Except Fault (Handle × Db) :=
  if h.disposed then .ok (h,db)
  else if !h.removedFromQueue && !h.requeued then
    match h.requeue fails db with
    | .error f => .error f
    | .ok (h',db') => .ok ({ h' with disposed := true },db')
  else .ok ({ h with disposed := true },db)

theorem mem_candidates {c : ℤ} {queues : List String} {db : Db} {i : JobQueueRow} :
    i ∈ candidates c queues db ↔ i ∈ db.jobQueue.rows ∧ eligible c i = true ∧ i.queue ∈ queues := by
  simp [candidates,List.mem_filter]

theorem byId_put_marked {t : Table JobQueueRow} {i : JobQueueRow} (hi : i ∈ t.rows)
    (token : String) (now k : ℤ) :
    (t.put (marked token now i)).byId k =
      if k = i.id then some (marked token now i) else t.byId k := by
  rw [Table.byId_put]
  split_ifs with hk
  · rw [hk,show t.byId i.id = some i from Table.byId_of_mem hi]
    simp [marked,Row.id]
  · cases h : t.byId k with
    | none => rfl
    | some r =>
      have hr : r.id = k := Table.id_of_byId h
      simp [marked,Row.id,hr,hk]

theorem fetch_eq_ok {T : ℤ} {o : RowOrder JobQueueRow} {queues : List String} {token : String}
    {now : ℤ} {db db' : Db} {res : Option FetchedJob}
    (h : fetch T o queues token now db = .ok (res,db')) :
    ∃ c, cutoff T now = .ok c ∧
      ((res = none ∧ db' = db ∧
          candidates c queues db = []) ∨
        ∃ i ∈ candidates c queues db, ∃ j, i.job = some j ∧
          res = some ⟨i.id,j,i.queue⟩ ∧
          db' = { db with jobQueue := db.jobQueue.put (marked token now i) }) := by
  unfold fetch at h
  cases hc : cutoff T now with
  | error f => simp [hc] at h
  | ok c =>
    refine ⟨c,rfl,?_⟩
    simp only [hc] at h
    cases ho : o.firstOrDefault (candidates c queues db) with
    | none =>
      simp only [ho,Except.ok.injEq,Prod.mk.injEq] at h
      exact .inl ⟨h.1.symm,h.2.symm,RowOrder.firstOrDefault_eq_none.mp ho⟩
    | some i =>
      cases hj : i.job with
      | none => simp [ho,hj] at h
      | some j =>
        simp only [ho,hj,Except.ok.injEq,Prod.mk.injEq] at h
        exact .inr ⟨i,RowOrder.firstOrDefault_mem ho,j,hj,h.1.symm,h.2.symm⟩

theorem Handle.dispose_eq_ok {fails : Bool} {h h' : Handle} {db db' : Db}
    (hr : h.dispose fails db = .ok (h',db')) :
    (h.disposeRequeues = true ∧ fails = false ∧ h' = { h with requeued := true, disposed := true } ∧
      db' = { db with
        jobQueue := db.jobQueue.modify (fun i => i.id = h.job.id) (setFetchedAt none) }) ∨
      h.disposeRequeues = false ∧ h' = { h with disposed := true } ∧ db' = db := by
  obtain ⟨job,removed,requeued,disposed⟩ := h
  cases disposed with
  | true =>
    cases hr
    exact .inr ⟨rfl,rfl,rfl⟩
  | false =>
    cases removed <;> cases requeued <;> cases fails <;> cases hr <;>
      first | exact .inl ⟨rfl,rfl,rfl,rfl⟩ | exact .inr ⟨rfl,rfl,rfl⟩

end JobQueue
end HangfireStorage
