import HangfireStorage.SqlUtil

/-!
# The distributed lock
-/

namespace HangfireStorage
namespace DistributedLock

structure Lock where
  resource : String
  timeout : ℤ
  lockId : Option ℤ
  deriving DecidableEq, Repr

def inserted (resource : String) (utcNow expireAt : ℤ) : DistributedLockRow :=
  ⟨0,resource,utcNow,DateTime.toEpochDate expireAt⟩

def reused (utcNow expireAt : ℤ) (i : DistributedLockRow) : DistributedLockRow :=
  { i with createdAt := utcNow, expireAtAsLong := DateTime.toEpochDate expireAt }

/-- `TryAcquireWithEntity`, with the id it remembers when it says yes. A row that has
expired is taken over under its id. -/
def tryAcquireWithEntity (o : RowOrder DistributedLockRow) (resource : String) (timeout utcNow : ℤ)
    (db : Db) : Except Fault (Option ℤ × Db) :=
  match DateTime.add utcNow timeout with
  | .error f => .error f
  | .ok expireAt =>
    match o.firstOrDefault (db.distributedLock.rows.filter fun i => i.resource = resource) with
    | none => .ok (some db.distributedLock.nextId,{ db with
        distributedLock := db.distributedLock.insert (inserted resource utcNow expireAt) })
    | some i =>
      if i.expireAtAsLong < DateTime.toEpochDate utcNow then
        .ok (some i.id,{ db with
          distributedLock := db.distributedLock.put (reused utcNow expireAt i) })
      else .ok (none,db)

/-- `fails` says that the delete statement throws. -/
def Lock.release (fails : Bool) (l : Lock) (db : Db) : Except Fault (Lock × Db) :=
  match l.lockId with
  | none => .ok (l,db)
  | some id =>
    if fails then .error .statement else
      .ok ({ l with lockId := none },
        { db with distributedLock := db.distributedLock.delete fun i => i.id = id })

theorem tryAcquireWithEntity_eq_ok {o : RowOrder DistributedLockRow} {resource : String}
    {timeout utcNow : ℤ} {db db' : Db} {res : Option ℤ}
    (h : tryAcquireWithEntity o resource timeout utcNow db = .ok (res,db')) :
    (res = none ∧ db' = db) ∨
      (res = some db.distributedLock.nextId ∧
        (∀ i ∈ db.distributedLock.rows, i.resource ≠ resource) ∧
        db' = { db with distributedLock :=
          db.distributedLock.insert (inserted resource utcNow (utcNow+timeout)) }) ∨
      ∃ i ∈ db.distributedLock.rows, i.resource = resource ∧
        i.expireAtAsLong < DateTime.toEpochDate utcNow ∧ res = some i.id ∧
        db' = { db with
          distributedLock := db.distributedLock.put (reused utcNow (utcNow+timeout) i) } := by
  unfold tryAcquireWithEntity at h
  cases hadd : DateTime.add utcNow timeout with
  | error f => simp [hadd] at h
  | ok expireAt =>
    obtain ⟨-,rfl⟩ := DateTime.add_eq_ok.mp hadd
    simp only [hadd] at h
    cases ho : o.firstOrDefault (db.distributedLock.rows.filter fun i => i.resource = resource) with
    | none =>
      simp only [ho,Except.ok.injEq,Prod.mk.injEq] at h
      refine .inr (.inl ⟨h.1.symm,?_,h.2.symm⟩)
      simpa using RowOrder.firstOrDefault_eq_none.mp ho
    | some i =>
      simp only [ho] at h
      have hi := RowOrder.firstOrDefault_mem ho
      simp only [List.mem_filter,decide_eq_true_eq] at hi
      split_ifs at h with hlt
      · cases h
        exact .inr (.inr ⟨i,hi.1,hi.2,hlt,rfl,rfl⟩)
      · cases h
        exact .inl ⟨rfl,rfl⟩

theorem inRange_of_tryAcquireWithEntity {o : RowOrder DistributedLockRow} {resource : String}
    {timeout utcNow : ℤ} {db : Db} {res : Option ℤ × Db}
    (h : tryAcquireWithEntity o resource timeout utcNow db = .ok res) :
    DateTime.InRange (utcNow+timeout) := by
  unfold tryAcquireWithEntity at h
  cases hadd : DateTime.add utcNow timeout with
  | error f => simp [hadd] at h
  | ok expireAt => exact (DateTime.add_eq_ok.mp hadd).1

theorem Lock.release_eq_ok {fails : Bool} {l l' : Lock} {db db' : Db}
    (h : l.release fails db = .ok (l',db')) :
    (l.lockId = none ∧ l' = l ∧ db' = db) ∨
      ∃ id, l.lockId = some id ∧ fails = false ∧ l' = { l with lockId := none } ∧
        db' = { db with distributedLock := db.distributedLock.delete fun i => i.id = id } := by
  unfold Lock.release at h
  cases hl : l.lockId with
  | none =>
    rw [hl] at h
    cases h
    exact .inl ⟨rfl,rfl,rfl⟩
  | some id =>
    simp only [hl] at h
    cases fails with
    | true => cases h
    | false =>
      cases h
      exact .inr ⟨id,rfl,rfl,rfl,rfl⟩

end DistributedLock
end HangfireStorage
