import HangfireStorage.SqlUtil

/-!
# The expiration manager

A clean-up step reads the clock, selects the ids of a batch of expired rows and
deletes them by id, statement by statement and outside any transaction.
-/

namespace HangfireStorage
namespace ExpirationManager

inductive Kind
  | jobQueue | jobParameter | jobState | job | list | aggregatedCounter | set | hash | distributedLock
  deriving DecidableEq, Repr

def defaultNumberOfRecordsInSinglePass : ℤ := 1000

def numberOfRecordsInSinglePass (deleteExpiredBatchSize : ℤ) : ℕ :=
  (if deleteExpiredBatchSize ≤ 0 ∨ 100000 < deleteExpiredBatchSize then
    defaultNumberOfRecordsInSinglePass else deleteExpiredBatchSize).toNat

theorem numberOfRecordsInSinglePass_pos (b : ℤ) : 0 < numberOfRecordsInSinglePass b := by
  unfold numberOfRecordsInSinglePass defaultNumberOfRecordsInSinglePass
  split_ifs <;> omega

/-- `i.Job.ExpireAt < cutoff`, a join that drops null references. -/
def jobExpired (cutoff : ℤ) (db : Db) (job : Option ℤ) : Bool :=
  match job.bind fun j => db.job.byId j with
  | some j => expiredBefore cutoff j.expireAt
  | none => false

def expiredDetails {ρ : Type} [Row ρ] [JobChild ρ] (cutoff : ℤ) (db : Db) (t : Table ρ) : List ρ :=
  t.rows.filter fun i => jobExpired cutoff db (JobChild.job i)

def expiredRows {ρ : Type} [Row ρ] [Expirable ρ] (cutoff : ℤ) (t : Table ρ) : List ρ :=
  t.rows.filter fun i => expiredBefore cutoff (Expirable.expireAt i)

def expiredLocks (cutoff : ℤ) (t : Table DistributedLockRow) : List DistributedLockRow :=
  t.rows.filter fun i => i.expireAtAsLong < DateTime.toEpochDate cutoff

def expiredIds (cutoff : ℤ) (db : Db) : Kind → List ℤ
  | .jobQueue => (expiredDetails cutoff db db.jobQueue).map Row.id
  | .jobParameter => (expiredDetails cutoff db db.jobParameter).map Row.id
  | .jobState => (expiredDetails cutoff db db.jobState).map Row.id
  | .job => (expiredRows cutoff db.job).map Row.id
  | .list => (expiredRows cutoff db.list).map Row.id
  | .aggregatedCounter => (expiredRows cutoff db.aggregatedCounter).map Row.id
  | .set => (expiredRows cutoff db.set).map Row.id
  | .hash => (expiredRows cutoff db.hash).map Row.id
  | .distributedLock => (expiredLocks cutoff db.distributedLock).map Row.id

def ids (k : Kind) (db : Db) : List ℤ :=
  match k with
  | .jobQueue => db.jobQueue.rows.map Row.id
  | .jobParameter => db.jobParameter.rows.map Row.id
  | .jobState => db.jobState.rows.map Row.id
  | .job => db.job.rows.map Row.id
  | .list => db.list.rows.map Row.id
  | .aggregatedCounter => db.aggregatedCounter.rows.map Row.id
  | .set => db.set.rows.map Row.id
  | .hash => db.hash.rows.map Row.id
  | .distributedLock => db.distributedLock.rows.map Row.id

def selectIds (o : RowOrder ℤ) (n : ℕ) (cutoff : ℤ) (db : Db) (k : Kind) : List ℤ :=
  o.take n (expiredIds cutoff db k)

def deleteRows (batch : List ℤ) (db : Db) : Kind → Db
  | .jobQueue => { db with jobQueue := (SqlUtil.deleteBatch batch db.jobQueue).1 }
  | .jobParameter => { db with jobParameter := (SqlUtil.deleteBatch batch db.jobParameter).1 }
  | .jobState => { db with jobState := (SqlUtil.deleteBatch batch db.jobState).1 }
  | .job => { db with job := (SqlUtil.deleteBatch batch db.job).1 }
  | .list => { db with list := (SqlUtil.deleteBatch batch db.list).1 }
  | .aggregatedCounter =>
    { db with aggregatedCounter := (SqlUtil.deleteBatch batch db.aggregatedCounter).1 }
  | .set => { db with set := (SqlUtil.deleteBatch batch db.set).1 }
  | .hash => { db with hash := (SqlUtil.deleteBatch batch db.hash).1 }
  | .distributedLock =>
    { db with distributedLock := (SqlUtil.deleteBatch batch db.distributedLock).1 }

/-- One delete statement and the number of rows it reports. The database refuses to delete
a job that is still referred to. -/
def deleteStatement (batch : List ℤ) (db : Db) (k : Kind) : Except Fault (Db × ℕ) :=
  if k = .job ∧ ∃ i ∈ ids .job db, i ∈ batch ∧ db.Referenced i then .error .foreignKey
  else .ok (deleteRows batch db k,(ids k db).countP batch.contains)

theorem deleteStatement_eq_ok {batch : List ℤ} {db db' : Db} {k : Kind} {n : ℕ}
    (h : deleteStatement batch db k = .ok (db',n)) :
    db' = deleteRows batch db k ∧ n = (ids k db).countP batch.contains ∧
      (k = .job → ∀ i ∈ ids .job db, i ∈ batch → ¬ db.Referenced i) := by
  unfold deleteStatement at h
  split_ifs at h with hj
  cases h
  exact ⟨rfl,rfl,fun hk i hi hb hr => hj ⟨hk,i,hi,hb,hr⟩⟩

/-- A delete step under way: the batches it has still to delete. -/
structure Sweep where
  kind : Kind
  pending : List (List ℤ)
  deriving DecidableEq, Repr

def Sweep.start (k : Kind) (o : RowOrder ℤ) (n : ℕ) (cutoff : ℤ) (db : Db) : Sweep :=
  ⟨k,batches SqlUtil.deleteBatchSize (selectIds o n cutoff db k)⟩

def Sweep.next (w : Sweep) (db : Db) : Except Fault (Sweep × Db) :=
  match w.pending with
  | [] => .ok (w,db)
  | batch::rest => (deleteStatement batch db w.kind).map fun r => ({ w with pending := rest },r.1)

theorem Sweep.next_eq_ok {w w' : Sweep} {db db' : Db} (h : w.next db = .ok (w',db')) :
    (w.pending = [] ∧ w' = w ∧ db' = db) ∨
      ∃ batch rest n, w.pending = batch::rest ∧ w' = { w with pending := rest } ∧
        deleteStatement batch db w.kind = .ok (db',n) := by
  unfold Sweep.next at h
  cases hp : w.pending with
  | nil =>
    rw [hp] at h
    cases h
    exact .inl ⟨rfl,rfl,rfl⟩
  | cons batch rest =>
    simp only [hp] at h
    obtain ⟨r,hr,he⟩ := map_eq_ok h
    cases he
    exact .inr ⟨batch,rest,r.2,rfl,rfl,hr⟩

/-- `DeleteByInt32Id`: without a transaction, what was deleted before a failure stays deleted. -/
def deleteIds (k : Kind) : List (List ℤ) → ℕ → Db → Db × Except Fault ℕ
  | [], count, db => (db,.ok count)
  | b::bs, count, db =>
    match deleteStatement b db k with
    | .error f => (db,.error f)
    | .ok (db',n) => deleteIds k bs (count+n) db'

theorem ids_deleteRows (batch : List ℤ) (db : Db) (k : Kind) :
    ids k (deleteRows batch db k) = (ids k db).filter fun i => !batch.contains i := by
  cases k <;> simp only [ids,deleteRows,SqlUtil.deleteBatch,Table.rows_delete,List.filter_map] <;> rfl

theorem deleteRows_nil (db : Db) (k : Kind) : deleteRows [] db k = db := by
  cases k <;> simp only [deleteRows,SqlUtil.deleteBatch] <;> rw [Table.delete_of_forall (by simp)]

theorem deleteRows_append (b c : List ℤ) (db : Db) (k : Kind) :
    deleteRows (b ++ c) db k = deleteRows c (deleteRows b db k) k := by
  cases k <;> simp only [deleteRows,SqlUtil.deleteBatch,Table.delete_delete,List.contains_append]

/-- Unless they are jobs that are referred to, the batches delete what one statement would. -/
theorem deleteIds_eq (k : Kind) (bs : List (List ℤ)) (count : ℕ) (db : Db)
    (h : k = .job → ∀ i ∈ ids .job db, i ∈ bs.flatten → ¬ db.Referenced i) :
    deleteIds k bs count db =
      (deleteRows bs.flatten db k,.ok (count + (ids k db).countP bs.flatten.contains)) := by
  induction bs generalizing count db with
  | nil => simp [deleteIds,deleteRows_nil]
  | cons b bs ih =>
    have hst : deleteStatement b db k = .ok (deleteRows b db k,(ids k db).countP b.contains) := by
      unfold deleteStatement
      rw [if_neg]
      rintro ⟨hk,i,hi,hb,hr⟩
      exact h hk i hi (by simp [hb]) hr
    have hrest : k = .job → ∀ i ∈ ids .job (deleteRows b db k), i ∈ bs.flatten →
        ¬ (deleteRows b db k).Referenced i := by
      rintro rfl i hi hbs
      rw [ids_deleteRows] at hi
      exact h rfl i (List.mem_of_mem_filter hi) (by simp [List.mem_flatten.mp hbs])
    have hcount : (ids k db).countP (b ++ bs.flatten).contains = (ids k db).countP b.contains +
        (ids k db).countP fun i => bs.flatten.contains i && !b.contains i := by
      rw [← countP_or_eq]
      congr 1
      funext i
      exact List.contains_append
    simp only [deleteIds,hst,ih _ _ hrest,ids_deleteRows,List.flatten_cons,deleteRows_append,hcount,
      List.countP_filter,Nat.add_assoc]

theorem deleteIds_job_error {bs : List (List ℤ)} {count : ℕ} {db : Db} {i : ℤ}
    (hi : i ∈ ids .job db) (hb : i ∈ bs.flatten) (hr : db.Referenced i) :
    (deleteIds .job bs count db).2 = .error .foreignKey := by
  induction bs generalizing count db with
  | nil => simp at hb
  | cons b bs ih =>
    simp only [deleteIds]
    by_cases hst : ∃ i ∈ ids .job db, i ∈ b ∧ db.Referenced i
    · rw [deleteStatement,if_pos ⟨rfl,hst⟩]
    · rw [deleteStatement,if_neg fun h => hst h.2]
      have hib : i ∉ b := fun hib => hst ⟨i,hi,hib,hr⟩
      refine ih ?_ ?_ hr
      · rw [ids_deleteRows]
        exact List.mem_filter.mpr ⟨hi,by simpa using hib⟩
      · simpa [hib] using hb

/-- `DeleteEntities` for one table, run at the clock reading `now` with no other writer. -/
def deleteEntities (k : Kind) (o : RowOrder ℤ) (n : ℕ) (now : ℤ) (db : Db) : Db × Except Fault ℕ :=
  deleteIds k (batches SqlUtil.deleteBatchSize (selectIds o n now db k)) 0 db

/-- What a run of the job steps does not choose itself: the order of each result and the clock. -/
structure JobPass where
  order : Kind → RowOrder ℤ
  clock : Kind → ℤ

/-- Steps one after the other; an exception skips the rest. -/
def runSteps (n : ℕ) (p : JobPass) : List Kind → Db → Db × Except Fault Unit
  | [], db => (db,.ok ())
  | k::ks, db =>
    match deleteEntities k (p.order k) n (p.clock k) db with
    | (db',.error f) => (db',.error f)
    | (db',.ok _) => runSteps n p ks db'

/-- The body that `DeleteJobItems` runs under its lock. It always reports zero rows. -/
def deleteJobItemsBody (n : ℕ) (p : JobPass) (db : Db) : Db × Except Fault ℕ :=
  match runSteps n p [.jobQueue,.jobParameter,.jobState,.job] db with
  | (db',.error f) => (db',.error f)
  | (db',.ok ()) => (db',.ok 0)

/-- `WithLock`: each attempt either times out on the lock or runs the body once more. The
result is `none` while the loop is still running. -/
def withLock {ι σ : Type} (n : ℕ) (func : ι → σ → σ × Except Fault ℕ) :
    List (Option ι) → σ → σ × Option (Except Fault Unit)
  | [], s => (s,none)
  | none::is, s => withLock n func is s
  | some i::is, s =>
    match func i s with
    | (s',.error f) => (s',some (.error f))
    | (s',.ok removedCount) => if removedCount < n then (s',some (.ok ())) else withLock n func is s'

def deleteJobItems (n : ℕ) (attempts : List (Option JobPass)) (db : Db) :
    Db × Option (Except Fault Unit) :=
  withLock n (deleteJobItemsBody n) attempts db

theorem withLock_timeouts {ι σ : Type} (n : ℕ) (func : ι → σ → σ × Except Fault ℕ) (m : ℕ)
    (is : List (Option ι)) (s : σ) :
    withLock n func (List.replicate m none ++ is) s = withLock n func is s := by
  induction m with
  | zero => rfl
  | succ m ih => simpa [List.replicate_succ,withLock] using ih

/-- Reporting zero rows ends the loop after its first pass. -/
theorem deleteJobItems_eq {n : ℕ} (hn : 0 < n) (m : ℕ) (p : JobPass) (is : List (Option JobPass))
    (db : Db) : deleteJobItems n (List.replicate m none ++ some p :: is) db =
      ((runSteps n p [.jobQueue,.jobParameter,.jobState,.job] db).1,
        some (runSteps n p [.jobQueue,.jobParameter,.jobState,.job] db).2) := by
  rw [deleteJobItems,withLock_timeouts,withLock,deleteJobItemsBody]
  cases h : runSteps n p [.jobQueue,.jobParameter,.jobState,.job] db with
  | mk db' r =>
    cases r with
    | error f => rfl
    | ok u => simp [hn]

end ExpirationManager
end HangfireStorage
