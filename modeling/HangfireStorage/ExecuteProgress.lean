import HangfireStorage.ExecuteSteps
import Mathlib.Data.Prod.Lex

/-!
# Progress of Execute

A pass that goes round again has taken rows away. The only row an action may meet again and
again is the one of its own lock, and to be expired in its own pass this needs five minutes.
-/

namespace HangfireStorage
namespace ExpirationExecute

open DistributedLock ExpirationManager LockScope Loop

/-- Lock rows, of those for the given resource one fewer. -/
def spareRows (resource : String) (t : Table DistributedLockRow) : ℕ :=
  t.rows.length - if ∃ r ∈ t.rows, r.resource = resource then 1 else 0

/-- Rows that the action for the table may still take away. Its own lock row comes and goes. -/
def rowsLeft (k : Kind) (db : Db) : ℕ :=
  if k = .distributedLock then spareRows (Action.table k).resource db.distributedLock
  else (ids k db).length

def ExecuteState.rowsLeft (s : ExecuteState) : ℕ :=
  match s.actions with
  | .table k::_ => ExpirationExecute.rowsLeft k s.db
  | _ => 0

/-- Until the end of time. -/
def millisecondsLeft (t : ℤ) : ℕ := (DateTime.toEpochDate DateTime.maxTicks - t).toNat

/-- The time at which the lock that is held was taken counts until the pass is over. -/
def timeLeft (is : ℕ → Circumstance) (s : ExecuteState) : ℕ :=
  match s.position with
  | .delete lock _ =>
    match lock.lockId.bind fun id => s.db.distributedLock.byId id with
    | some r => millisecondsLeft (r.expireAtAsLong-300000)
    | none => 0
  | _ => millisecondsLeft (DateTime.toEpochDate (is 0).utcNow)

/-- Calls of `DeleteEntities` before the action is over, unless it goes round again. -/
def callsLeft (s : ExecuteState) : ℕ :=
  match s.position with
  | .delete _ ks => if s.actions.head? = some .jobItems then ks.length+1 else 5
  | .release _ .broke | .release _ (.raised _) => 0
  | _ => 5

def remaining (is : ℕ → Circumstance) (s : ExecuteState) : ℕ ×ₗ ℕ ×ₗ ℕ :=
  toLex (6*s.actions.length+callsLeft s,toLex (s.rowsLeft,timeLeft is s))

section Progress

variable {n : ℕ} {k : Kind} {a : Action} {i : Circumstance} {is : ℕ → Circumstance} {t : ℤ}
  {s s' : ExecuteState} {db db' : Db} {resource : String} {u : Table DistributedLockRow}

theorem spareRows_delete (resource : String) (u : Table DistributedLockRow)
    (p : DistributedLockRow → Bool) : spareRows resource (u.delete p) ≤ spareRows resource u := by
  by_cases h : ∃ r ∈ u.rows, p r = true
  · obtain ⟨r,hr,hp⟩ := h
    have hlt : (u.delete p).rows.length < u.rows.length :=
      List.length_filter_lt_length_iff_exists.mpr ⟨r,hr,by simp [hp]⟩
    unfold spareRows
    split_ifs <;> omega
  · push Not at h
    rw [Table.delete_of_forall fun r hr => Bool.eq_false_iff.mpr (h r hr)]

theorem spareRows_delete_lt {p : DistributedLockRow → Bool} {r : DistributedLockRow}
    (hr : r ∈ (u.delete p).rows) (hres : r.resource = resource) (h : ∃ x ∈ u.rows, p x = true) :
    spareRows resource (u.delete p) < spareRows resource u := by
  obtain ⟨x,hx,hp⟩ := h
  have hlt : (u.delete p).rows.length < u.rows.length :=
    List.length_filter_lt_length_iff_exists.mpr ⟨x,hx,by simp [hp]⟩
  have hpos := List.length_pos_of_mem hr
  unfold spareRows
  rw [if_pos ⟨r,hr,hres⟩,if_pos ⟨r,List.mem_of_mem_filter hr,hres⟩]
  omega

theorem rowsLeft_unlocked (k : Kind) (p : DistributedLockRow → Bool) (db : Db) :
    rowsLeft k (unlocked p db) ≤ rowsLeft k db := by
  unfold rowsLeft
  by_cases hk : k = .distributedLock
  · rw [if_pos hk,if_pos hk]
    exact spareRows_delete _ _ p
  · rw [if_neg hk,if_neg hk]
    cases k <;> first | exact le_rfl | exact absurd rfl hk

/-- The row of the lock is the one that does not count. -/
theorem rowsLeft_granted {o : RowOrder DistributedLockRow} {now : ℤ} {id : ℤ}
    (h : tryAcquireWithEntity o (Action.table k).resource defaultLockTimeout now db =
      .ok (some id,db')) : rowsLeft k db' ≤ rowsLeft k db := by
  have hids (hk : k ≠ .distributedLock) (l : Table DistributedLockRow) :
      ids k { db with distributedLock := l } = ids k db := by
    cases k <;> first | rfl | exact absurd rfl hk
  unfold rowsLeft spareRows
  obtain ⟨hn,-⟩ | ⟨-,hnew,rfl⟩ | ⟨r,hr,hres,-,-,rfl⟩ := tryAcquireWithEntity_eq_ok h
  · cases hn
  · split_ifs with hk h₁ h₂ h₂
    · obtain ⟨r,hr,hres⟩ := h₂
      exact absurd hres (hnew r hr)
    · simp
    · exact absurd ⟨_,List.mem_append_right _ (List.mem_singleton.mpr rfl),rfl⟩ h₁
    · exact absurd ⟨_,List.mem_append_right _ (List.mem_singleton.mpr rfl),rfl⟩ h₁
    · rw [hids hk]
  · split_ifs with hk h₁ h₂ h₂
    · simp
    · exact absurd ⟨r,hr,hres⟩ h₂
    · refine absurd ⟨_,List.mem_map.mpr ⟨r,hr,if_pos rfl⟩,?_⟩ h₁
      exact hres
    · exact absurd ⟨r,hr,hres⟩ h₂
    · rw [hids hk]

/-- Deleting a row makes progress, unless the only row that goes is the action's own lock row. -/
theorem rowsLeft_deleteRows {batch : List ℤ} {id : ℤ} (hb : id ∈ batch) (hid : id ∈ ids k db)
    {r : DistributedLockRow} (hr : r ∈ db.distributedLock.rows)
    (hres : r.resource = (Action.table k).resource) :
    rowsLeft k (deleteRows batch db k) < rowsLeft k db ∨
      k = .distributedLock ∧ r.id ∈ batch ∧ rowsLeft k (deleteRows batch db k) ≤ rowsLeft k db := by
  by_cases hk : k = .distributedLock
  · subst hk
    have hdel : (deleteRows batch db .distributedLock).distributedLock =
        db.distributedLock.delete fun r => batch.contains (Row.id r) := rfl
    unfold rowsLeft
    rw [if_pos rfl,if_pos rfl,hdel]
    by_cases hrb : r.id ∈ batch
    · exact .inr ⟨rfl,hrb,spareRows_delete _ _ _⟩
    · obtain ⟨x,hx,rfl⟩ := List.mem_map.mp hid
      refine .inl (spareRows_delete_lt (List.mem_filter.mpr ⟨hr,?_⟩) hres
        ⟨x,hx,List.contains_iff_mem.mpr hb⟩)
      simpa [Row.id] using hrb
  · refine .inl ?_
    unfold rowsLeft
    rw [if_neg hk,if_neg hk,ids_deleteRows]
    exact List.length_filter_lt_length_iff_exists.mpr ⟨id,hid,by simp [hb]⟩

theorem stateRowsLeft_le (hactions : s'.actions = s.actions)
    (h : ∀ k as, s.actions = .table k::as → rowsLeft k s'.db ≤ rowsLeft k s.db) :
    s'.rowsLeft ≤ s.rowsLeft := by
  unfold ExecuteState.rowsLeft
  rw [hactions]
  cases ha : s.actions with
  | nil => exact le_rfl
  | cons a as =>
    cases a with
    | jobItems => exact le_rfl
    | table k => exact h k as ha

theorem millisecondsLeft_anti {t u : ℤ} (h : t ≤ u) : millisecondsLeft u ≤ millisecondsLeft t := by
  unfold millisecondsLeft
  omega

theorem timeLeft_of_waiting (hpos : ∀ lock ks, s.position ≠ .delete lock ks) :
    timeLeft is s = millisecondsLeft (DateTime.toEpochDate (is 0).utcNow) := by
  unfold timeLeft
  cases hp : s.position with
  | delete lock ks => exact absurd hp (hpos lock ks)
  | _ => rfl

theorem timeLeft_later (ht : InOrder t is) (hpos : ∀ lock ks, s.position ≠ .delete lock ks)
    (hpos' : ∀ lock ks, s'.position ≠ .delete lock ks) : timeLeft (later is) s' ≤ timeLeft is s := by
  rw [timeLeft_of_waiting hpos,timeLeft_of_waiting hpos']
  exact millisecondsLeft_anti (DateTime.toEpochDate_mono (ht.mono 0))

theorem timeLeft_delete {lock : Lock} {ks : List Kind} {r : DistributedLockRow}
    (hpos : s.position = .delete lock ks) (hr : r ∈ s.db.distributedLock.rows)
    (hid : lock.lockId = some r.id) : timeLeft is s = millisecondsLeft (r.expireAtAsLong-300000) := by
  unfold timeLeft
  rw [hpos]
  dsimp only
  rw [hid,Option.bind_some,show s.db.distributedLock.byId r.id = some r from Table.byId_of_mem hr]

theorem remaining_le (hcalls : 6*s'.actions.length+callsLeft s' ≤ 6*s.actions.length+callsLeft s)
    (hrows : s'.rowsLeft ≤ s.rowsLeft) (htime : timeLeft (later is) s' ≤ timeLeft is s) :
    remaining (later is) s' ≤ remaining is s :=
  Prod.Lex.toLex_mono ⟨hcalls,Prod.Lex.toLex_mono ⟨hrows,htime⟩⟩

theorem remaining_lt_of_calls
    (h : 6*s'.actions.length+callsLeft s' < 6*s.actions.length+callsLeft s) :
    remaining (later is) s' < remaining is s := Prod.Lex.toLex_lt_toLex.mpr (.inl h)

theorem remaining_lt_of_rows
    (hcalls : 6*s'.actions.length+callsLeft s' = 6*s.actions.length+callsLeft s)
    (h : s'.rowsLeft < s.rowsLeft ∨
      s'.rowsLeft ≤ s.rowsLeft ∧ timeLeft (later is) s' < timeLeft is s) :
    remaining (later is) s' < remaining is s := by
  refine Prod.Lex.toLex_lt_toLex.mpr (.inr ⟨hcalls,?_⟩)
  obtain hlt | ⟨hle,hlt⟩ := h
  · exact Prod.Lex.toLex_lt_toLex.mpr (.inl hlt)
  · exact Prod.Lex.toLex_lt_toLex'.mpr ⟨hle,fun _ => hlt⟩

/-- Waiting does not lengthen the way. -/
theorem remaining_moves (ht : InOrder t is) {as : List Action} (ha : s.actions = a::as)
    (hpos : ∀ lock ks, s.position ≠ .delete lock ks) (h : Moves a (is 0) s s') :
    remaining (later is) s' ≤ remaining is s := by
  cases h with
  | granted id db hp hacq =>
    obtain ⟨r,hr,rfl,-,hexp,-⟩ := held_of_granted hacq
    refine remaining_le ?_ (stateRowsLeft_le rfl fun k as' hk => ?_) ?_
    · have hcalls : callsLeft s = 5 := by simp [callsLeft,hp]
      rw [hcalls]
      simp only [callsLeft,ha]
      cases a <;> simp [Action.kinds]
    · obtain rfl : a = .table k := (List.cons.inj (ha.symm.trans hk)).1
      exact rowsLeft_granted hacq
    · rw [timeLeft_of_waiting hpos,timeLeft_delete rfl hr rfl,hexp,Int.add_sub_cancel]
  | stays p _ =>
    exact remaining_le le_rfl (stateRowsLeft_le rfl fun k _ _ => rowsLeft_unlocked k p s.db)
      (timeLeft_later ht hpos hpos)
  | waits p _ q hq hp =>
    refine remaining_le ?_ (stateRowsLeft_le rfl fun k _ _ => rowsLeft_unlocked k p s.db)
      (timeLeft_later ht hpos ?_)
    · have hcalls : callsLeft s = 5 := by
        obtain hp | hp | ⟨lock,hp⟩ := hp <;> simp [callsLeft,hp]
      rw [hcalls]
      obtain rfl | rfl := hq <;> exact le_rfl
    · obtain rfl | rfl := hq <;> exact fun _ _ => nofun
  | finishes p _ lock hp =>
    refine (remaining_lt_of_calls ?_).le
    simp only [finish,callsLeft,ha,List.tail_cons,List.length_cons]
    omega
  | fails p _ e =>
    refine (remaining_lt_of_calls ?_).le
    simp only [fail,finish,callsLeft,ha,List.tail_cons,List.length_cons]
    omega

/-- The clean-up finds its own lock row only when the lock has run out meanwhile. -/
theorem expireAt_lt_of_mem {c : ℤ} {r : DistributedLockRow} (hr : r ∈ db.distributedLock.rows)
    (h : r.id ∈ expiredIds c db .distributedLock) : r.expireAtAsLong < DateTime.toEpochDate c := by
  obtain ⟨r',hr',hid⟩ := List.mem_map.mp h
  obtain ⟨hr',hlt⟩ := List.mem_filter.mp hr'
  rw [← Table.eq_of_id hr' hr hid]
  exact of_decide_eq_true hlt

/-- A call of `DeleteEntities` gets the action on. -/
theorem remaining_delete {db₀ : Db} (hn : 0 < n) (ht : InOrder t is) (hst : Stands t s)
    {as : List Action} (ha : s.actions = a::as) (hs : Sound t db₀ s) {lock : Lock} {ks : List Kind}
    (hpos : s.position = .delete lock ks) :
    remaining (later is) (deleteStep n a lock (is 0) s ks) < remaining is s := by
  have hcalls : 0 < callsLeft s := by
    simp only [callsLeft,hpos]
    split_ifs <;> omega
  unfold Stands at hst
  rw [hpos] at hst
  cases ks with
  | nil => exact remaining_lt_of_calls (Nat.add_lt_add_left hcalls _)
  | cons k ks =>
    cases h : callDeleteEntities n k (is 0) s.db with
    | mk db r =>
      simp only [deleteStep,h]
      cases r with
      | error e => exact remaining_lt_of_calls (Nat.add_lt_add_left hcalls _)
      | ok count =>
        dsimp only
        cases a with
        | jobItems =>
          refine remaining_lt_of_calls (Nat.add_lt_add_left ?_ _)
          cases ks with
          | nil =>
            rw [passed,if_pos (show Action.jobItems.removedCount count < n from hn)]
            exact hcalls
          | cons k' ks => simp [callsLeft,passed,hpos,ha]
        | table k' =>
          obtain ⟨hks,r,hr,hid,hres,hmax⟩ := hst k' as ha
          cases hks
          by_cases hcount : count < n
          · rw [passed,if_pos (show (Action.table k).removedCount count < n from hcount)]
            exact remaining_lt_of_calls (Nat.add_lt_add_left hcalls _)
          · rw [passed,if_neg (show ¬ (Action.table k).removedCount count < n from hcount)]
            obtain ⟨rfl,rfl⟩ := callDeleteEntities_eq_ok (ne_job_of_mem (hs.mem_collections ha)) h
            obtain ⟨id,hsel⟩ := List.exists_mem_of_length_pos (by omega :
              0 < (selectIds (is 0).order n (is 0).utcNow s.db k).length)
            have hids := (expiredIds_sublist _ _ _).subset (RowOrder.mem_of_mem_take hsel)
            refine remaining_lt_of_rows (by simp [callsLeft,hpos,ha]) ?_
            simp only [ExecuteState.rowsLeft,ha]
            refine (rowsLeft_deleteRows hsel hids hr hres).imp_right ?_
            rintro ⟨rfl,hrsel,hle⟩
            refine ⟨hle,?_⟩
            have hlt := expireAt_lt_of_mem hr (RowOrder.mem_of_mem_take hrsel)
            have hle := DateTime.toEpochDate_mono (ht.mono 0)
            rw [timeLeft_delete hpos hr hid,timeLeft_of_waiting (by simp),later_apply]
            unfold millisecondsLeft
            omega

theorem remaining_advance {db₀ : Db} (hn : 0 < n) (ht : InOrder t is) (hst : Stands t s)
    {as : List Action} (ha : s.actions = a::as) (hs : Sound t db₀ s) :
    remaining (later is) (advance n a (is 0) s) ≤ remaining is s ∧
      (s.Deleting → remaining (later is) (advance n a (is 0) s) < remaining is s) := by
  have hmoves {s' : ExecuteState} (hpos : ∀ lock ks, s.position ≠ .delete lock ks)
      (h : Moves a (is 0) s s') :
      remaining (later is) s' ≤ remaining is s ∧
        (s.Deleting → remaining (later is) s' < remaining is s) :=
    ⟨remaining_moves ht ha hpos h,fun ⟨lock,ks,hp⟩ => absurd hp (hpos lock ks)⟩
  unfold advance
  cases hpos : s.position with
  | acquire => exact hmoves (by simp [hpos]) (moves_acquireLock hpos)
  | delete lock ks =>
    have hlt := remaining_delete hn ht hst ha hs hpos
    exact ⟨hlt.le,fun _ => hlt⟩
  | release lock ending =>
    refine hmoves (by simp [hpos]) (moves_disposeLock hpos ?_)
    rintro e rfl
    unfold Stands at hst
    rwa [hpos] at hst
  | poll => exact hmoves (by simp [hpos]) (moves_poll hpos)

end Progress

end ExpirationExecute
end HangfireStorage
