import HangfireStorage.Primitives
import HangfireStorage.Table
import Mathlib.Data.Rat.Defs

/-!
# Entities and the database

One row type for each mapped entity, with the columns that the modelled code
reads, and the database as the tuple of its tables. Times are ticks.
-/

namespace HangfireStorage

/-- `LastStateChangedAt`, which no code reads, is left out. -/
structure JobRow where
  id : ℤ
  invocationData : String
  arguments : String
  createdAt : ℤ
  expireAt : Option ℤ
  stateName : Option String
  stateReason : Option String
  stateData : Option String
  deriving DecidableEq, Repr

structure JobParameterRow where
  id : ℤ
  job : ℤ
  name : String
  value : Option String
  deriving DecidableEq, Repr

structure JobStateRow where
  id : ℤ
  job : ℤ
  name : String
  reason : Option String
  data : Option String
  createdAt : ℤ
  deriving DecidableEq, Repr

/-- The reference to the job is nullable here, unlike in the other two child tables. -/
structure JobQueueRow where
  id : ℤ
  job : Option ℤ
  queue : String
  fetchedAt : Option ℤ
  fetchToken : Option String
  deriving DecidableEq, Repr

structure SetRow where
  id : ℤ
  key : String
  value : String
  score : ℚ
  expireAt : Option ℤ
  deriving DecidableEq, Repr

structure HashRow where
  id : ℤ
  key : String
  field : String
  value : Option String
  expireAt : Option ℤ
  deriving DecidableEq, Repr

structure ListRow where
  id : ℤ
  key : String
  value : Option String
  expireAt : Option ℤ
  deriving DecidableEq, Repr

/-- `CounterBase`, the columns of both Counter and AggregatedCounter. -/
structure CounterRow where
  id : ℤ
  key : String
  value : ℤ
  expireAt : Option ℤ
  deriving DecidableEq, Repr

structure DistributedLockRow where
  id : ℤ
  resource : String
  createdAt : ℤ
  expireAtAsLong : ℤ
  deriving DecidableEq, Repr

instance : Row JobRow := ⟨JobRow.id,fun i r => { r with id := i },fun _ _ => rfl⟩
instance : Row JobParameterRow := ⟨JobParameterRow.id,fun i r => { r with id := i },fun _ _ => rfl⟩
instance : Row JobStateRow := ⟨JobStateRow.id,fun i r => { r with id := i },fun _ _ => rfl⟩
instance : Row JobQueueRow := ⟨JobQueueRow.id,fun i r => { r with id := i },fun _ _ => rfl⟩
instance : Row SetRow := ⟨SetRow.id,fun i r => { r with id := i },fun _ _ => rfl⟩
instance : Row HashRow := ⟨HashRow.id,fun i r => { r with id := i },fun _ _ => rfl⟩
instance : Row ListRow := ⟨ListRow.id,fun i r => { r with id := i },fun _ _ => rfl⟩
instance : Row CounterRow := ⟨CounterRow.id,fun i r => { r with id := i },fun _ _ => rfl⟩
instance : Row DistributedLockRow :=
  ⟨DistributedLockRow.id,fun i r => { r with id := i },fun _ _ => rfl⟩

/-- `IExpirableWithId`. -/
class Expirable (ρ : Type) [Row ρ] where
  expireAt : ρ → Option ℤ
  withExpireAt : Option ℤ → Update ρ
  expireAt_withExpireAt : ∀ e r, expireAt ((withExpireAt e).apply r) = e

/-- `IExpirableWithKey`. -/
class ExpirableWithKey (ρ : Type) [Row ρ] extends Expirable ρ where
  key : ρ → String
  key_withExpireAt : ∀ e r, key ((withExpireAt e).apply r) = key r

/-- `IJobChild`. -/
class JobChild (ρ : Type) [Row ρ] where
  job : ρ → Option ℤ

attribute [simp] Expirable.expireAt_withExpireAt ExpirableWithKey.key_withExpireAt

instance : Expirable JobRow :=
  ⟨JobRow.expireAt,fun e => ⟨fun r => { r with expireAt := e },fun _ => rfl⟩,fun _ _ => rfl⟩
instance : Expirable CounterRow :=
  ⟨CounterRow.expireAt,fun e => ⟨fun r => { r with expireAt := e },fun _ => rfl⟩,fun _ _ => rfl⟩
instance : ExpirableWithKey SetRow where
  expireAt := SetRow.expireAt
  withExpireAt e := ⟨fun r => { r with expireAt := e },fun _ => rfl⟩
  expireAt_withExpireAt _ _ := rfl
  key := SetRow.key
  key_withExpireAt _ _ := rfl
instance : ExpirableWithKey HashRow where
  expireAt := HashRow.expireAt
  withExpireAt e := ⟨fun r => { r with expireAt := e },fun _ => rfl⟩
  expireAt_withExpireAt _ _ := rfl
  key := HashRow.key
  key_withExpireAt _ _ := rfl
instance : ExpirableWithKey ListRow where
  expireAt := ListRow.expireAt
  withExpireAt e := ⟨fun r => { r with expireAt := e },fun _ => rfl⟩
  expireAt_withExpireAt _ _ := rfl
  key := ListRow.key
  key_withExpireAt _ _ := rfl

instance : JobChild JobParameterRow := ⟨fun r => some r.job⟩
instance : JobChild JobStateRow := ⟨fun r => some r.job⟩
instance : JobChild JobQueueRow := ⟨JobQueueRow.job⟩

/-- `ExpireAt < cutoff`, which is not true of a null. -/
def expiredBefore (cutoff : ℤ) : Option ℤ → Bool
  | some e => e < cutoff
  | none => false

theorem expiredBefore_mono {c d : ℤ} (h : c ≤ d) {e : Option ℤ} (he : expiredBefore c e = true) :
    expiredBefore d e = true := by
  cases e with
  | none => simp [expiredBefore] at he
  | some e =>
    simp only [expiredBefore,decide_eq_true_eq] at he ⊢
    omega

@[ext] structure Db where
  job : Table JobRow
  jobParameter : Table JobParameterRow
  jobState : Table JobStateRow
  jobQueue : Table JobQueueRow
  set : Table SetRow
  hash : Table HashRow
  list : Table ListRow
  counter : Table CounterRow
  aggregatedCounter : Table CounterRow
  distributedLock : Table DistributedLockRow
  deriving DecidableEq

namespace Db

def empty : Db :=
  ⟨.empty,.empty,.empty,.empty,.empty,.empty,.empty,.empty,.empty,.empty⟩

def jobExists (db : Db) (j : ℤ) : Prop := ∃ r ∈ db.job.rows, r.id = j

instance (db : Db) (j : ℤ) : Decidable (db.jobExists j) := inferInstanceAs (Decidable (∃ _ ∈ _, _))

/-- Some row of a child table refers to the job, so the database refuses to delete it. -/
def Referenced (db : Db) (j : ℤ) : Prop :=
  (∃ r ∈ db.jobParameter.rows, r.job = j) ∨ (∃ r ∈ db.jobState.rows, r.job = j) ∨
    ∃ r ∈ db.jobQueue.rows, r.job = some j

instance (db : Db) (j : ℤ) : Decidable (db.Referenced j) :=
  inferInstanceAs (Decidable ((∃ _ ∈ _, _) ∨ (∃ _ ∈ _, _) ∨ ∃ _ ∈ _, _))

theorem jobExists_iff_byId {db : Db} {j : ℤ} : db.jobExists j ↔ (db.job.byId j).isSome := by
  rw [Option.isSome_iff_exists]
  constructor
  · rintro ⟨r,hr,rfl⟩
    exact ⟨r,Table.byId_of_mem hr⟩
  · rintro ⟨r,hr⟩
    exact ⟨r,Table.mem_of_byId hr,Table.id_of_byId hr⟩

end Db
end HangfireStorage
