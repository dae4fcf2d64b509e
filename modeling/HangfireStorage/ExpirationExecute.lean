import HangfireStorage.ExpirationManager
import HangfireStorage.LockScope
import HangfireStorage.Loops

/-!
# Execute of the expiration manager

A round for a lock, a call of `DeleteEntities`, a try to release a lock and a wait between two
passes are one step each, and each may run into an exception.
-/

namespace HangfireStorage
namespace ExpirationExecute

open DistributedLock ExpirationManager LockScope Loop

/-- `DeleteJobItems`, or the action for one table. -/
inductive Action
  | jobItems
  | table (k : Kind)
  deriving DecidableEq, Repr

def collections : List Kind := [.list,.aggregatedCounter,.set,.hash,.distributedLock]

def actions : List Action := .jobItems::collections.map .table

def typeName : Kind → String
  | .jobQueue => "_JobQueue"
  | .jobParameter => "_JobParameter"
  | .jobState => "_JobState"
  | .job => "_Job"
  | .list => "_List"
  | .aggregatedCounter => "_AggregatedCounter"
  | .set => "_Set"
  | .hash => "_Hash"
  | .distributedLock => "_DistributedLock"

def distributedLockKey : String := "locks:expirationmanager"

def Action.subKey : Action → String
  | .jobItems => "JobItems"
  | .table k => typeName k

def Action.resource (a : Action) : String := distributedLockKey ++ ":" ++ a.subKey

/-- Five minutes. -/
def defaultLockTimeout : ℤ := 3000000000

def Action.kinds : Action → List Kind
  | .jobItems => [.jobQueue,.jobParameter,.jobState,.job]
  | .table k => [k]

/-- What a pass reports, given what its last call reported. -/
def Action.removedCount : Action → ℕ → ℕ
  | .jobItems, _ => 0
  | .table _, count => count

/-- What a step meets: the order of the select, too, and after how many delete statements an
exception comes. Only `Initialize` throws a lock time-out of its own accord. -/
structure Circumstance extends LockScope.Circumstance where
  order : RowOrder ℤ
  statements : ℕ
  thrown_kind : ∀ e, thrown = some e → e.kind ≠ .distributedLockTimeout

inductive Ending
  | broke
  | ran
  | raised (e : Thrown)
  deriving DecidableEq, Repr

inductive Position
  | acquire
  | delete (lock : Lock) (kinds : List Kind)
  | release (lock : Lock) (ending : Ending)
  | poll
  deriving DecidableEq, Repr

/-- The actions still to run, the current one first, and the exceptions logged so far. -/
structure ExecuteState where
  db : Db
  actions : List Action
  position : Position
  errors : List (Action × Thrown)
  deriving DecidableEq

def finish (s : ExecuteState) : ExecuteState :=
  { s with actions := s.actions.tail, position := .acquire }

def fail (a : Action) (e : Thrown) (s : ExecuteState) : ExecuteState :=
  { finish s with errors := (a,e)::s.errors }

/-- The catch clause of `WithLock`. -/
def leave (a : Action) (e : Thrown) (s : ExecuteState) : ExecuteState :=
  if e.kind = .distributedLockTimeout then { s with position := .poll } else fail a e s

def acquireLock (a : Action) (i : Circumstance) (s : ExecuteState) : ExecuteState :=
  match acquire a.resource defaultLockTimeout i.toCircumstance s.db with
  | (db,.granted lock) => { s with db := db, position := .delete lock a.kinds }
  | (db,.again) => { s with db := db }
  | (db,.raised e) => leave a e { s with db := db }

/-- A call of `DeleteEntities`. What was deleted before an exception stays deleted. -/
def callDeleteEntities (n : ℕ) (k : Kind) (i : Circumstance) (db : Db) : Db × Except Thrown ℕ :=
  match i.thrown with
  | none => ((deleteEntities k i.order n i.utcNow db).1,
      (deleteEntities k i.order n i.utcNow db).2.mapError .ofFault)
  | some e =>
    let r := deleteIds k ((batches SqlUtil.deleteBatchSize
      (selectIds i.order n i.utcNow db k)).take i.statements) 0 db
    (r.1,(r.2.mapError .ofFault).bind fun _ => .error e)

/-- Where a call leads: to the next one of the pass, or out of the using block. -/
def passed (n : ℕ) (a : Action) (lock : Lock) (count : ℕ) : List Kind → Position
  | [] => .release lock (if a.removedCount count < n then .broke else .ran)
  | k::ks => .delete lock (k::ks)

def deleteStep (n : ℕ) (a : Action) (lock : Lock) (i : Circumstance) (s : ExecuteState) :
    List Kind → ExecuteState
  | [] => { s with position := .release lock .broke }
  | k::ks =>
    match callDeleteEntities n k i s.db with
    | (db,.error e) => { s with db := db, position := .release lock (.raised e) }
    | (db,.ok count) => { s with db := db, position := passed n a lock count ks }

def disposeLock (a : Action) (lock : Lock) (ending : Ending) (i : Circumstance) (s : ExecuteState) :
    ExecuteState :=
  match dispose lock i.toCircumstance s.db with
  | (db,.done) =>
    match ending with
    | .broke => finish { s with db := db }
    | .ran => { s with db := db, position := .poll }
    | .raised e => leave a e { s with db := db }
  | (db,.again) => { s with db := db }
  | (db,.raised e) => leave a e { s with db := db }

def poll (a : Action) (i : Circumstance) (s : ExecuteState) : ExecuteState :=
  match i.thrown with
  | some e => fail a e s
  | none => { s with position := .acquire }

def advance (n : ℕ) (a : Action) (i : Circumstance) (s : ExecuteState) : ExecuteState :=
  match s.position with
  | .acquire => acquireLock a i s
  | .delete lock kinds => deleteStep n a lock i s kinds
  | .release lock ending => disposeLock a lock ending i s
  | .poll => poll a i s

def step (n : ℕ) (i : Circumstance) (s : ExecuteState) : ExecuteState × Option Unit :=
  match s.actions with
  | [] => (s,some ())
  | a::_ => (advance n a i s,none)

def start (db : Db) : ExecuteState := ⟨db,actions,.acquire,[]⟩

/-- `Execute`, cut after `m` steps. -/
def execute (deleteExpiredBatchSize : ℤ) (m : ℕ) (is : ℕ → Circumstance) (db : Db) :
    ExecuteState × Option Unit :=
  run (step (numberOfRecordsInSinglePass deleteExpiredBatchSize)) m is (start db)

def ExecuteState.Deleting (s : ExecuteState) : Prop := ∃ lock ks, s.position = .delete lock ks

section Deletions

variable {k : Kind} {n count : ℕ} {db db' : Db} {i : Circumstance}

theorem deleteIds_fst (k : Kind) (bs : List (List ℤ)) (count : ℕ) (db : Db) :
    ∃ batch, (∀ id ∈ batch, id ∈ bs.flatten) ∧ (deleteIds k bs count db).1 = deleteRows batch db k := by
  induction bs generalizing count db with
  | nil => exact ⟨[],by simp,(deleteRows_nil db k).symm⟩
  | cons b bs ih =>
    rw [deleteIds]
    cases hst : deleteStatement b db k with
    | error f => exact ⟨[],by simp,(deleteRows_nil db k).symm⟩
    | ok r =>
      obtain ⟨db',m⟩ := r
      obtain ⟨rfl,-,-⟩ := deleteStatement_eq_ok hst
      obtain ⟨batch,hsub,he⟩ := ih (count+m) (deleteRows b db k)
      refine ⟨b ++ batch,fun x hx => ?_,he.trans (deleteRows_append b batch db k).symm⟩
      rw [List.flatten_cons,List.mem_append]
      exact (List.mem_append.mp hx).imp_right (hsub x)

/-- A call deletes rows it has selected, even if it throws. -/
theorem callDeleteEntities_fst (n : ℕ) (k : Kind) (i : Circumstance) (db : Db) :
    ∃ batch, (∀ id ∈ batch, id ∈ expiredIds i.utcNow db k) ∧
      (callDeleteEntities n k i db).1 = deleteRows batch db k := by
  have hsub {bs : List (List ℤ)}
      (hbs : ∀ b ∈ bs, b ∈ batches SqlUtil.deleteBatchSize (selectIds i.order n i.utcNow db k)) :
      ∀ id ∈ bs.flatten, id ∈ expiredIds i.utcNow db k := by
    intro id hid
    obtain ⟨b,hb,hid⟩ := List.mem_flatten.mp hid
    have hsel : id ∈ (batches SqlUtil.deleteBatchSize (selectIds i.order n i.utcNow db k)).flatten :=
      List.mem_flatten.mpr ⟨b,hbs b hb,hid⟩
    rw [flatten_batches (by decide)] at hsel
    exact RowOrder.mem_of_mem_take hsel
  unfold callDeleteEntities
  cases i.thrown with
  | none =>
    obtain ⟨batch,hb,he⟩ := deleteIds_fst k
      (batches SqlUtil.deleteBatchSize (selectIds i.order n i.utcNow db k)) 0 db
    exact ⟨batch,fun id hid => hsub (fun _ h => h) id (hb id hid),he⟩
  | some e =>
    obtain ⟨batch,hb,he⟩ := deleteIds_fst k
      ((batches SqlUtil.deleteBatchSize (selectIds i.order n i.utcNow db k)).take i.statements) 0 db
    exact ⟨batch,fun id hid => hsub (fun _ h => List.mem_of_mem_take h) id (hb id hid),he⟩

theorem nodup_ids (db : Db) (k : Kind) : (ids k db).Nodup := by
  have h {ρ : Type} [Row ρ] (t : Table ρ) : (t.rows.map Row.id).Nodup :=
    List.pairwise_map.mpr (t.sorted.imp Int.ne_of_lt)
  cases k <;> exact h _

theorem expiredIds_sublist (c : ℤ) (db : Db) (k : Kind) : (expiredIds c db k).Sublist (ids k db) := by
  cases k <;> exact List.filter_sublist.map _

/-- A call that does not throw has deleted all it selected, and reports how many. -/
theorem callDeleteEntities_eq_ok (hk : k ≠ .job) (h : callDeleteEntities n k i db = (db',.ok count)) :
    db' = deleteRows (selectIds i.order n i.utcNow db k) db k ∧
      count = (selectIds i.order n i.utcNow db k).length := by
  unfold callDeleteEntities at h
  cases ht : i.thrown with
  | some e =>
    rw [ht] at h
    cases hr : (deleteIds k ((batches SqlUtil.deleteBatchSize
        (selectIds i.order n i.utcNow db k)).take i.statements) 0 db).2 <;>
      simp [hr,Except.mapError,Except.bind] at h
  | none =>
    rw [ht] at h
    dsimp only at h
    rw [deleteEntities,deleteIds_eq _ _ _ _ fun hj => absurd hj hk,flatten_batches (by decide)] at h
    cases h
    refine ⟨rfl,?_⟩
    have hnd := (nodup_ids db k).sublist (expiredIds_sublist i.utcNow db k)
    have hperm : ((ids k db).filter (selectIds i.order n i.utcNow db k).contains).Perm
        (selectIds i.order n i.utcNow db k) := by
      refine (List.perm_ext_iff_of_nodup ((nodup_ids db k).filter _)
        (RowOrder.take_nodup i.order n hnd)).mpr fun id => ?_
      rw [List.mem_filter,List.contains_iff_mem]
      exact ⟨And.right,fun hid =>
        ⟨(expiredIds_sublist i.utcNow db k).subset (RowOrder.mem_of_mem_take hid),hid⟩⟩
    rw [Nat.zero_add,List.countP_eq_length_filter,hperm.length_eq]

end Deletions

end ExpirationExecute
end HangfireStorage
