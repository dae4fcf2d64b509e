import HangfireStorage.DistributedLock

/-!
# The scope of a distributed lock

A round of `Initialize`, a try of `Release`, and the exceptions that get out of them. A
transaction that throws is rolled back, whatever it was doing.
-/

namespace HangfireStorage
namespace LockScope

open DistributedLock

/-- Exceptions as the handlers on the way tell them apart: `transaction` stands for
AssertionFailure, TransactionException and GenericADOException. -/
inductive ExceptionKind
  | distributedLockTimeout | transaction | other
  deriving DecidableEq, Repr

/-- `deadlock` says that the message speaks of one. -/
structure Thrown where
  kind : ExceptionKind
  deadlock : Bool
  deriving DecidableEq, Repr

def Thrown.ofFault (_ : Fault) : Thrown := ⟨.other,false⟩

/-- `WrapForTransaction`: the exceptions it swallows turn into the default value. -/
def wrapForTransaction {α : Type} (default : α) : Except Thrown α → Except Thrown α
  | .ok a => .ok a
  | .error e => if e.kind = .transaction then .ok default else .error e

/-- What a round or a try meets: the exception it runs into, a clock reading, an order, and how
the waits come out. -/
structure Circumstance where
  thrown : Option Thrown
  lockOrder : RowOrder DistributedLockRow
  utcNow : ℤ
  mutexTaken : Bool
  waitExpired : Bool
  deleted : Bool

def tryMutex (resource : String) (timeout : ℤ) (i : Circumstance) (db : Db) :
    Except Thrown (Option ℤ × Db) :=
  match i.thrown with
  | some e => .error e
  | none =>
    if i.mutexTaken then
      (tryAcquireWithEntity i.lockOrder resource timeout i.utcNow db).mapError .ofFault
    else .ok (none,db)

inductive Acquired
  | granted (lock : Lock)
  | again
  | raised (e : Thrown)
  deriving DecidableEq, Repr

/-- One round of `Initialize`. A deadlock is tried again however long the loop has waited. -/
def acquire (resource : String) (timeout : ℤ) (i : Circumstance) (db : Db) : Db × Acquired :=
  match tryMutex resource timeout i db with
  | .error ⟨_,true⟩ => (db,.again)
  | attempt =>
    match wrapForTransaction (none,db) attempt with
    | .error e => (db,.raised e)
    | .ok (some id,db) => (db,.granted ⟨resource,timeout,some id⟩)
    | .ok (none,db) =>
      (db,if i.waitExpired then .raised ⟨.distributedLockTimeout,false⟩ else .again)

inductive Disposed
  | done
  | again
  | raised (e : Thrown)
  deriving DecidableEq, Repr

/-- One try of `Release`. The statement is no transaction, so it may have worked although it
throws. -/
def dispose (lock : Lock) (i : Circumstance) (db : Db) : Db × Disposed :=
  match lock.lockId with
  | none => (db,.done)
  | some id =>
    let released := { db with distributedLock := db.distributedLock.delete fun r => r.id = id }
    match i.thrown with
    | none => (released,.done)
    | some e => (if i.deleted then released else db,
        if e.deadlock then .again else if e.kind = .transaction then .done else .raised e)

section

variable {resource : String} {timeout : ℤ} {lock : Lock} {i : Circumstance} {db db' : Db}

theorem mapError_eq_ok {α : Type} {f : Fault → Thrown} {x : Except Fault α} {a : α}
    (h : x.mapError f = .ok a) : x = .ok a := by
  cases x <;> cases h
  rfl

theorem wrapForTransaction_eq_ok {α : Type} {a b : α} {x : Except Thrown α}
    (h : wrapForTransaction a x = .ok b) : x = .ok b ∨ b = a := by
  cases x with
  | ok c =>
    cases h
    exact .inl rfl
  | error e =>
    simp only [wrapForTransaction] at h
    split_ifs at h
    cases h
    exact .inr rfl

theorem tryMutex_eq_ok {id : Option ℤ} (h : tryMutex resource timeout i db = .ok (id,db')) :
    tryAcquireWithEntity i.lockOrder resource timeout i.utcNow db = .ok (id,db') ∨
      id = none ∧ db' = db := by
  unfold tryMutex at h
  split at h
  · cases h
  · split_ifs at h
    · exact .inl (mapError_eq_ok h)
    · cases h
      exact .inr ⟨rfl,rfl⟩

theorem acquire_cases {a : Acquired} (h : acquire resource timeout i db = (db',a)) :
    (∃ id, a = .granted ⟨resource,timeout,some id⟩ ∧
      tryAcquireWithEntity i.lockOrder resource timeout i.utcNow db = .ok (some id,db')) ∨
      db' = db ∧ ∀ lock, a ≠ .granted lock := by
  have hmutex {id : Option ℤ} {db₁ : Db}
      (hw : wrapForTransaction (none,db) (tryMutex resource timeout i db) = .ok (id,db₁)) :
      tryAcquireWithEntity i.lockOrder resource timeout i.utcNow db = .ok (id,db₁) ∨
        id = none ∧ db₁ = db := by
    obtain ht | he := wrapForTransaction_eq_ok hw
    · exact tryMutex_eq_ok ht
    · cases he
      exact .inr ⟨rfl,rfl⟩
  unfold acquire at h
  split at h
  · cases h
    exact .inr ⟨rfl,nofun⟩
  · split at h
    · cases h
      exact .inr ⟨rfl,nofun⟩
    · rename_i id db₁ hw
      cases h
      obtain ht | ⟨hid,-⟩ := hmutex hw
      · exact .inl ⟨id,rfl,ht⟩
      · cases hid
    · rename_i db₁ hw
      cases h
      refine .inr ⟨?_,fun lock => by split_ifs <;> nofun⟩
      obtain ht | ⟨-,rfl⟩ := hmutex hw
      · obtain ⟨-,rfl⟩ | ⟨hid,-⟩ | ⟨_,-,-,-,hid,-⟩ := tryAcquireWithEntity_eq_ok ht
        · rfl
        · cases hid
        · cases hid
      · rfl

theorem dispose_db (lock : Lock) (i : Circumstance) (db : Db) : (dispose lock i db).1 = db ∨
    ∃ id, lock.lockId = some id ∧ (dispose lock i db).1 =
      { db with distributedLock := db.distributedLock.delete fun r => r.id = id } := by
  unfold dispose
  cases hl : lock.lockId with
  | none => exact .inl rfl
  | some id =>
    cases i.thrown with
    | none => exact .inr ⟨id,rfl,rfl⟩
    | some e =>
      by_cases hd : i.deleted = true
      · exact .inr ⟨id,rfl,by simp [hd]⟩
      · exact .inl (by simp [hd])

theorem dispose_raised {e : Thrown} : (dispose lock i db).2 = .raised e ↔
    lock.lockId ≠ none ∧ i.thrown = some e ∧ e.deadlock = false ∧ e.kind ≠ .transaction := by
  unfold dispose
  cases hl : lock.lockId with
  | none => simp
  | some id =>
    cases hi : i.thrown with
    | none => simp
    | some e' =>
      simp only [ne_eq,reduceCtorEq,not_false_eq_true,Option.some.injEq,true_and]
      constructor
      · intro h
        split_ifs at h with hd hk
        cases h
        exact ⟨rfl,by simpa using hd,hk⟩
      · rintro ⟨rfl,hd,hk⟩
        rw [if_neg (by simp [hd]),if_neg hk]

end

end LockScope
end HangfireStorage
