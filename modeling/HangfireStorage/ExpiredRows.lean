import HangfireStorage.CleanupRaces
import HangfireStorage.ExpirationExecute

/-!
# Expired rows under the clean-up

What a call of `DeleteEntities` leaves of a table, and what it says about the expiries.
-/

namespace HangfireStorage
namespace ExpirationExecute

open DistributedLock ExpirationManager LockScope Loop
open StorageSystem (expiryOf expiryOf_deleteRows)

/-- Lock rows keep whole milliseconds. -/
def inUnitsOf (k : Kind) (t : ℤ) : ℤ :=
  if k = .distributedLock then DateTime.fromEpochDate (DateTime.toEpochDate t) else t

/-- No row of the table has an expiry before `t`. -/
def Drained (t : ℤ) (k : Kind) (db : Db) : Prop :=
  ∀ id e, expiryOf k id db = some (some e) → inUnitsOf k t ≤ e

/-- Rows have been deleted, none of them without an expiry. -/
structure Pruned {ρ : Type} [Row ρ] [Expirable ρ] (t t' : Table ρ) : Prop where
  old : ∀ r ∈ t'.rows, r ∈ t.rows
  kept : ∀ r ∈ t.rows, Expirable.expireAt r = none → r ∈ t'.rows

/-- Lock rows are written for the locks of the actions only. -/
structure PrunedDb (db db' : Db) : Prop where
  list : Pruned db.list db'.list
  aggregatedCounter : Pruned db.aggregatedCounter db'.aggregatedCounter
  set : Pruned db.set db'.set
  hash : Pruned db.hash db'.hash
  distributedLock : ∀ r ∈ db'.distributedLock.rows, r ∈ db.distributedLock.rows ∨
    ∃ a ∈ actions, r.resource = a.resource

section Tables

variable {ρ : Type} [Row ρ] [Expirable ρ] {t t₁ t₂ : Table ρ}

theorem Pruned.refl (t : Table ρ) : Pruned t t := ⟨fun _ h => h,fun _ h _ => h⟩

theorem Pruned.trans (h : Pruned t t₁) (h' : Pruned t₁ t₂) : Pruned t t₂ :=
  ⟨fun r hr => h.old r (h'.old r hr),fun r hr he => h'.kept r (h.kept r hr he) he⟩

theorem PrunedDb.trans {db db₁ db₂ : Db} (h : PrunedDb db db₁) (h' : PrunedDb db₁ db₂) :
    PrunedDb db db₂ :=
  ⟨h.list.trans h'.list,h.aggregatedCounter.trans h'.aggregatedCounter,h.set.trans h'.set,
    h.hash.trans h'.hash,fun r hr => (h'.distributedLock r hr).elim (h.distributedLock r) .inr⟩

theorem pruned_deleteBatch {c : ℤ} {batch : List ℤ}
    (h : ∀ id ∈ batch, id ∈ (expiredRows c t).map Row.id) :
    Pruned t (SqlUtil.deleteBatch batch t).1 := by
  refine ⟨fun r hr => List.mem_of_mem_filter hr,fun r hr he => List.mem_filter.mpr ⟨hr,?_⟩⟩
  rw [Bool.not_eq_true',← Bool.not_eq_true,List.contains_iff_mem]
  intro hb
  obtain ⟨r',hr',hid⟩ := List.mem_map.mp (h _ hb)
  obtain ⟨hr',hexp⟩ := List.mem_filter.mp hr'
  rw [Table.eq_of_id hr' hr hid,he] at hexp
  cases hexp

theorem mem_expiredRows_of_lt {id e c : ℤ} (h : (t.byId id).map Expirable.expireAt = some (some e))
    (hlt : e < c) : id ∈ (expiredRows c t).map Row.id := by
  obtain ⟨r,hr,he⟩ := Option.map_eq_some_iff.mp h
  refine List.mem_map.mpr ⟨r,List.mem_filter.mpr ⟨Table.mem_of_byId hr,?_⟩,Table.id_of_byId hr⟩
  rw [he]
  exact decide_eq_true hlt

end Tables

section Expiries

variable {t : ℤ} {k k' : Kind} {n count : ℕ} {db db' : Db} {i : Circumstance} {batch : List ℤ}

theorem inUnitsOf_mono {t u : ℤ} (k : Kind) (h : t ≤ u) : inUnitsOf k t ≤ inUnitsOf k u := by
  unfold inUnitsOf
  split_ifs
  · have := DateTime.toEpochDate_mono h
    unfold DateTime.fromEpochDate DateTime.ticksPerMillisecond
    omega
  · exact h

theorem prunedDb_deleteRows {c : ℤ} (h : ∀ id ∈ batch, id ∈ expiredIds c db k) :
    PrunedDb db (deleteRows batch db k) := by
  cases k with
  | list => exact ⟨pruned_deleteBatch h,.refl _,.refl _,.refl _,fun _ => .inl⟩
  | aggregatedCounter => exact ⟨.refl _,pruned_deleteBatch h,.refl _,.refl _,fun _ => .inl⟩
  | set => exact ⟨.refl _,.refl _,pruned_deleteBatch h,.refl _,fun _ => .inl⟩
  | hash => exact ⟨.refl _,.refl _,.refl _,pruned_deleteBatch h,fun _ => .inl⟩
  | distributedLock =>
    exact ⟨.refl _,.refl _,.refl _,.refl _,fun _ hr => .inl (List.mem_of_mem_filter hr)⟩
  | _ => exact ⟨.refl _,.refl _,.refl _,.refl _,fun _ => .inl⟩

theorem prunedDb_locks {l : Table DistributedLockRow}
    (h : ∀ r ∈ l.rows, r ∈ db.distributedLock.rows ∨ ∃ a ∈ actions, r.resource = a.resource) :
    PrunedDb db { db with distributedLock := l } := ⟨.refl _,.refl _,.refl _,.refl _,h⟩

theorem Drained.deleteRows (h : Drained t k db) (batch : List ℤ) (k' : Kind) :
    Drained t k (deleteRows batch db k') := by
  intro id e he
  rw [expiryOf_deleteRows] at he
  split_ifs at he
  exact h id e he

theorem expiryOf_locks (hk : k ≠ .distributedLock) (id : ℤ) (l : Table DistributedLockRow) :
    expiryOf k id { db with distributedLock := l } = expiryOf k id db := by
  cases k <;> first | rfl | exact absurd rfl hk

theorem drained_locks_iff :
    Drained t .distributedLock db ↔
      ∀ r ∈ db.distributedLock.rows, DateTime.toEpochDate t ≤ r.expireAtAsLong := by
  have hle (m : ℤ) : inUnitsOf .distributedLock t ≤ DateTime.fromEpochDate m ↔
      DateTime.toEpochDate t ≤ m := by
    rw [inUnitsOf,if_pos rfl]
    unfold DateTime.fromEpochDate DateTime.ticksPerMillisecond
    omega
  constructor
  · intro h r hr
    refine (hle _).mp (h r.id _ ?_)
    rw [expiryOf,show db.distributedLock.byId r.id = some r from Table.byId_of_mem hr]
    rfl
  · intro h id e he
    obtain ⟨r,hr,he⟩ := Option.map_eq_some_iff.mp he
    cases he
    exact (hle _).mpr (h r (Table.mem_of_byId hr))

/-- What changes in the lock table only concerns a drained table if it is the lock table itself. -/
theorem Drained.locks (h : Drained t k db) {l : Table DistributedLockRow}
    (hl : ∀ r ∈ l.rows, r ∈ db.distributedLock.rows ∨ DateTime.toEpochDate t ≤ r.expireAtAsLong) :
    Drained t k { db with distributedLock := l } := by
  by_cases hk : k = .distributedLock
  · subst hk
    rw [drained_locks_iff] at h ⊢
    exact fun r hr => (hl r hr).elim (h r) id
  · intro id e he
    rw [expiryOf_locks hk] at he
    exact h id e he

theorem mem_expiredIds_of_lt (hk : k ∈ collections) {id e c : ℤ}
    (h : expiryOf k id db = some (some e)) (hlt : e < inUnitsOf k c) : id ∈ expiredIds c db k := by
  cases k with
  | list => exact mem_expiredRows_of_lt h hlt
  | aggregatedCounter => exact mem_expiredRows_of_lt h hlt
  | set => exact mem_expiredRows_of_lt h hlt
  | hash => exact mem_expiredRows_of_lt h hlt
  | distributedLock =>
    obtain ⟨r,hr,he⟩ := Option.map_eq_some_iff.mp h
    cases he
    refine List.mem_map.mpr ⟨r,List.mem_filter.mpr ⟨Table.mem_of_byId hr,?_⟩,Table.id_of_byId hr⟩
    rw [inUnitsOf,if_pos rfl] at hlt
    refine decide_eq_true ?_
    unfold DateTime.fromEpochDate DateTime.ticksPerMillisecond at hlt
    omega
  | _ => simp [collections] at hk

theorem ne_job_of_mem (hk : k ∈ collections) : k ≠ .job := by
  rintro rfl
  simp [collections] at hk

/-- A pass that reports less than a full batch has left nothing behind. -/
theorem drained_of_pass (hk : k ∈ collections) (ht : t ≤ i.utcNow)
    (h : callDeleteEntities n k i db = (db',.ok count)) (hcount : count < n) : Drained t k db' := by
  obtain ⟨rfl,rfl⟩ := callDeleteEntities_eq_ok (ne_job_of_mem hk) h
  have hperm : (selectIds i.order n i.utcNow db k).Perm (expiredIds i.utcNow db k) := by
    refine i.order.take_perm_of_le ?_
    rw [selectIds,RowOrder.take,List.length_take,(i.order.perm _).length_eq] at hcount
    omega
  intro id e he
  rw [expiryOf_deleteRows] at he
  split_ifs at he with hsel
  by_contra hlt
  refine hsel ⟨rfl,hperm.mem_iff.mpr (mem_expiredIds_of_lt hk he ?_)⟩
  have := inUnitsOf_mono k ht
  omega

end Expiries

end ExpirationExecute
end HangfireStorage
