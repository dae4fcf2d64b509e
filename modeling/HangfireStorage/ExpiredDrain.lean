import HangfireStorage.ExecuteProgress

/-!
# Draining the expired collections

Every action ends, and a pass that is the last one has seen all the rows that were expired
when it began.
-/

namespace HangfireStorage
namespace ExpirationExecute

open DistributedLock ExpirationManager LockScope Loop
open StorageSystem (expiryOf Doomed doomed_of_expiredIds)

/-- A call of `DeleteEntities` takes expired rows from its table, and any other step at most the
row of a lock that is released. -/
def OnlyExpiredGo (i : Circumstance) (s s' : ExecuteState) : Prop :=
  match s.position with
  | .delete _ (k::_) => ∃ batch, s'.db = deleteRows batch s.db k ∧
      (k ∈ collections → ∀ id ∈ batch, ∃ e < i.utcNow, expiryOf k id s.db = some (some e))
  | _ => ∃ l, s'.db = { s.db with distributedLock := l } ∧
      ∀ r ∈ s.db.distributedLock.rows, l.byId r.id = none →
        ∃ lock ending, s.position = .release lock ending ∧ lock.lockId = some r.id

section Runs

variable {n : ℕ} {k : Kind} {a : Action} {i : Circumstance} {is : ℕ → Circumstance} {t : ℤ}
  {s s' : ExecuteState} {db : Db}

theorem expiry_lt_of_mem (hk : k ∈ collections) {id c : ℤ} (h : id ∈ expiredIds c db k) :
    ∃ e < c, expiryOf k id db = some (some e) := by
  have hdoomed := doomed_of_expiredIds h
  unfold Doomed at hdoomed
  cases he : expiryOf k id db with
  | none =>
    have hid := (expiredIds_sublist c db k).subset h
    have hrow {ρ : Type} [Row ρ] (u : Table ρ) (f : ρ → Option ℤ) (hu : id ∈ u.rows.map Row.id) :
        (u.byId id).map f ≠ none := by
      obtain ⟨r,hr,rfl⟩ := List.mem_map.mp hu
      simp [Table.byId_of_mem hr]
    cases k with
    | jobQueue | jobParameter | jobState | job => simp [collections] at hk
    | _ => exact absurd he (hrow _ _ hid)
  | some e =>
    have hexp := hdoomed e he
    cases e with
    | none => cases hexp
    | some e => exact ⟨e,of_decide_eq_true hexp,rfl⟩

theorem keepsLocks_of_moves (h : Moves a i s s') : ∃ l, s'.db = { s.db with distributedLock := l } ∧
    ∀ r ∈ s.db.distributedLock.rows, l.byId r.id = none →
      ∃ lock ending, s.position = .release lock ending ∧ lock.lockId = some r.id := by
  have hunlocked {p : DistributedLockRow → Bool} (hp : Releases s p) (r : DistributedLockRow)
      (hr : r ∈ s.db.distributedLock.rows) (hnone : (s.db.distributedLock.delete p).byId r.id = none) :
      ∃ lock ending, s.position = .release lock ending ∧ lock.lockId = some r.id := by
    refine hp r (Bool.not_eq_false _ ▸ fun hpr => ?_)
    refine Table.byId_eq_none.mp hnone r (List.mem_filter.mpr ⟨hr,?_⟩) rfl
    rw [hpr]
    rfl
  cases h with
  | granted id db _ hacq =>
    obtain ⟨hn,-⟩ | ⟨-,-,rfl⟩ | ⟨i,-,-,-,-,rfl⟩ := tryAcquireWithEntity_eq_ok hacq
    · cases hn
    · refine ⟨_,rfl,fun r hr hnone => ?_⟩
      exact absurd rfl (Table.byId_eq_none.mp hnone r (List.mem_append_left _ hr))
    · refine ⟨_,rfl,fun r hr hnone => ?_⟩
      rw [Table.byId_put,show s.db.distributedLock.byId r.id = some r from Table.byId_of_mem hr] at hnone
      cases hnone
  | stays p hp => exact ⟨_,rfl,hunlocked hp⟩
  | waits p hp _ _ _ => exact ⟨_,rfl,hunlocked hp⟩
  | finishes p hp _ _ => exact ⟨_,rfl,hunlocked hp⟩
  | fails p hp _ => exact ⟨_,rfl,hunlocked hp⟩

theorem step_go (h : step n i s = (s',none)) : ∃ a as, s.actions = a::as ∧ s' = advance n a i s := by
  unfold step at h
  cases ha : s.actions with
  | nil =>
    rw [ha] at h
    cases h
  | cons a as =>
    rw [ha] at h
    cases h
    exact ⟨a,as,rfl,rfl⟩

theorem step_stop {r : Unit} (h : step n i s = (s',some r)) : s.actions = [] ∧ s' = s := by
  unfold step at h
  cases ha : s.actions with
  | nil =>
    rw [ha] at h
    cases h
    exact ⟨rfl,rfl⟩
  | cons a as =>
    rw [ha] at h
    cases h

theorem onlyExpiredGo_advance (hst : Stands t s) : OnlyExpiredGo i s (advance n a i s) := by
  have hlocks (hpos : ∀ lock ks, s.position ≠ .delete lock ks) (h : Moves a i s (advance n a i s)) :
      OnlyExpiredGo i s (advance n a i s) := by
    unfold OnlyExpiredGo
    split
    · rename_i hp
      exact absurd hp (hpos _ _)
    · exact keepsLocks_of_moves h
  cases hpos : s.position with
  | acquire =>
    refine hlocks (by simp [hpos]) ?_
    simpa only [advance,hpos] using moves_acquireLock hpos
  | delete lock ks =>
    simp only [OnlyExpiredGo,advance,hpos]
    cases ks with
    | nil =>
      refine ⟨_,rfl,fun r hr hnone => ?_⟩
      exact absurd rfl (Table.byId_eq_none.mp hnone r hr)
    | cons k ks =>
      obtain ⟨batch,hb,he⟩ := callDeleteEntities_fst n k i s.db
      refine ⟨batch,?_,fun hk id hid => expiry_lt_of_mem hk (hb id hid)⟩
      rw [← he]
      cases h : callDeleteEntities n k i s.db with
      | mk db r => cases r <;> simp only [deleteStep,h]
  | release lock ending =>
    refine hlocks (by simp [hpos]) ?_
    have hraised : ∀ e, ending = .raised e → e.kind ≠ .distributedLockTimeout := by
      rintro e rfl
      unfold Stands at hst
      rwa [hpos] at hst
    simpa only [advance,hpos] using moves_disposeLock hpos hraised
  | poll =>
    refine hlocks (by simp [hpos]) ?_
    simpa only [advance,hpos] using moves_poll hpos

theorem onlyExpiredGo_self (i : Circumstance) (s : ExecuteState) : OnlyExpiredGo i s s := by
  unfold OnlyExpiredGo
  split
  · exact ⟨[],(deleteRows_nil _ _).symm,fun _ _ => nofun⟩
  · exact ⟨_,rfl,fun r hr hnone => absurd rfl (Table.byId_eq_none.mp hnone r hr)⟩

/-- What holds between two steps. -/
structure Running (t : ℤ) (db₀ : Db) (is : ℕ → Circumstance) (s : ExecuteState) : Prop where
  inOrder : InOrder t is
  sound : Sound t db₀ s
  stands : Stands t s

theorem Running.go {db₀ : Db} (h : Running t db₀ is s) (hstep : step n (is 0) s = (s',none)) :
    Running t db₀ (later is) s' := by
  obtain ⟨a,as,ha,rfl⟩ := step_go hstep
  obtain ⟨hs,hst⟩ := sound_advance (n := n) h.inOrder.start h.sound h.stands ha
  exact ⟨h.inOrder.later,hs,hst⟩

theorem running_start (h : InOrder t is) (db : Db) : Running t db is (start db) where
  inOrder := h
  sound :=
    { known := fun _ ha => ha
      done := fun k hk hnot _ => absurd (by simpa [start,actions] using hk) hnot
      pruned := ⟨.refl _,.refl _,.refl _,.refl _,fun _ => .inl⟩ }
  stands := trivial

end Runs

/-- For any batch size, whatever is thrown, and if no wait for a lock or for its release goes on
for ever, all actions end. Tables whose action has not thrown are drained. -/
theorem execute_drains (deleteExpiredBatchSize t : ℤ) (is : ℕ → Circumstance) (db : Db)
    (ht : InOrder t is) (hfair : Fair (step (numberOfRecordsInSinglePass deleteExpiredBatchSize))
      ExecuteState.Deleting is (start db)) :
    ∃ m s, execute deleteExpiredBatchSize m is db = (s,some ()) ∧
      (∀ k ∈ collections, (∀ e, (Action.table k,e) ∉ s.errors) → Drained t k s.db) ∧
      PrunedDb db s.db ∧
      ∀ j s₁, execute deleteExpiredBatchSize j is db = (s₁,none) → OnlyExpiredGo (is j) s₁
        (step (numberOfRecordsInSinglePass deleteExpiredBatchSize) (is j) s₁).1 := by
  have hstart := running_start ht db
  have hgo (is : ℕ → Circumstance) (s s' : ExecuteState) (h : Running t db is s)
      (hstep : step (numberOfRecordsInSinglePass deleteExpiredBatchSize) (is 0) s = (s',none)) :
      Running t db (later is) s' := h.go hstep
  obtain ⟨m,s,r,hrun⟩ := run_ends_of_fair remaining (fun is s s' h hstep => by
    obtain ⟨a,as,ha,rfl⟩ := step_go hstep
    exact ⟨h.go hstep,remaining_advance (numberOfRecordsInSinglePass_pos _) h.inOrder h.stands ha
      h.sound⟩) hstart hfair
  obtain ⟨is',s₀,h,hstop⟩ := run_exit hgo hstart hrun
  obtain ⟨hnil,rfl⟩ := step_stop hstop
  refine ⟨m,s,hrun,fun k hk herr => h.sound.done k hk (by simp [hnil]) herr,h.sound.pruned,?_⟩
  intro j s₁ hj
  obtain ⟨is₁,h₁⟩ := run_invariant hgo hstart hj
  cases ha : s₁.actions with
  | nil =>
    simp only [step,ha]
    exact onlyExpiredGo_self _ _
  | cons a as =>
    simp only [step,ha]
    exact onlyExpiredGo_advance h₁.stands

/-- Nothing goes wrong, and every lock is free. -/
def calm (t : ℤ) : Circumstance := ⟨⟨none,.stored,t,true,false,false⟩,.stored,0,nofun⟩

/-- One expired list row, one that never expires, and a lock row that expired at the tick 10⁸. -/
def someExpired : Db := { Db.empty with
  list := (Table.empty.insert ⟨0,"a",none,some 5⟩).insert ⟨0,"b",none,none⟩
  distributedLock := Table.empty.insert ⟨0,"JobQueue",0,DateTime.toEpochDate 100000000⟩ }

theorem inOrder_calm (t : ℤ) : InOrder t fun _ => calm t := ⟨le_rfl,fun _ => le_rfl⟩

theorem execute_drains_someExpired : ∃ m s,
    execute 0 m (fun _ => calm 100005000) someExpired = (s,some ()) ∧
      (∀ k ∈ collections, (∀ e, (Action.table k,e) ∉ s.errors) → Drained 100005000 k s.db) ∧
      PrunedDb someExpired s.db ∧
      ∀ j s₁, execute 0 j (fun _ => calm 100005000) someExpired = (s₁,none) →
        OnlyExpiredGo (calm 100005000) s₁
          (step (numberOfRecordsInSinglePass 0) (calm 100005000) s₁).1 :=
  execute_drains 0 100005000 (fun _ => calm 100005000) someExpired (inOrder_calm _)
    (fair_of_ends _ (show execute 0 22 (fun _ => calm 100005000) someExpired =
      ((execute 0 22 (fun _ => calm 100005000) someExpired).1,some ()) from Prod.ext rfl (by decide)))

/-- The lock row expired half a millisecond before the start, and nothing is thrown. -/
theorem execute_keeps_lock : InOrder 100005000 (fun _ => calm 100005000) ∧
    Fair (step (numberOfRecordsInSinglePass 1)) ExecuteState.Deleting (fun _ => calm 100005000)
      (start someExpired) ∧
    expiryOf .distributedLock 1 someExpired = some (some 100000000) ∧
    (execute 1 26 (fun _ => calm 100005000) someExpired).2 = some () ∧
    (execute 1 26 (fun _ => calm 100005000) someExpired).1.errors = [] ∧
    someExpired.distributedLock.byId 1 ≠ none ∧
    (execute 1 26 (fun _ => calm 100005000) someExpired).1.db.distributedLock.byId 1 =
      someExpired.distributedLock.byId 1 := by
  refine ⟨inOrder_calm _,?_,by decide,by decide,by decide,by decide,by decide⟩
  exact fair_of_ends _ (show execute 1 26 (fun _ => calm 100005000) someExpired =
    ((execute 1 26 (fun _ => calm 100005000) someExpired).1,some ()) from Prod.ext rfl (by decide))

end ExpirationExecute
end HangfireStorage
