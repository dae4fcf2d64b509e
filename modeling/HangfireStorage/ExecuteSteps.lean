import HangfireStorage.ExpiredRows

/-!
# What the steps of Execute preserve

Actions that are over have drained their tables, and no step undoes this.
-/

namespace HangfireStorage
namespace ExpirationExecute

open DistributedLock ExpirationManager LockScope Loop

/-- Lock rows have gone. -/
def unlocked (p : DistributedLockRow → Bool) (db : Db) : Db :=
  { db with distributedLock := db.distributedLock.delete p }

theorem unlocked_false (db : Db) : unlocked (fun _ => false) db = db := by
  rw [unlocked,Table.delete_of_forall fun _ _ => rfl]

/-- The row of the lock that is being released. -/
def Releases (s : ExecuteState) (p : DistributedLockRow → Bool) : Prop :=
  ∀ r, p r = true → ∃ lock ending, s.position = .release lock ending ∧ lock.lockId = some r.id

/-- All that a step does while no call of `DeleteEntities` is up. -/
inductive Moves (a : Action) (i : Circumstance) (s : ExecuteState) : ExecuteState → Prop
  | granted (id : ℤ) (db : Db) (hpos : s.position = .acquire)
      (h : tryAcquireWithEntity i.lockOrder a.resource defaultLockTimeout i.utcNow s.db =
        .ok (some id,db)) :
      Moves a i s { s with db := db,
                           position := .delete ⟨a.resource,defaultLockTimeout,some id⟩ a.kinds }
  | stays (p : DistributedLockRow → Bool) (hp : Releases s p) :
      Moves a i s { s with db := unlocked p s.db }
  | waits (p : DistributedLockRow → Bool) (hp : Releases s p) (q : Position)
      (hq : q = .acquire ∨ q = .poll)
      (hpos : s.position = .acquire ∨ s.position = .poll ∨ ∃ lock, s.position = .release lock .ran) :
      Moves a i s { s with db := unlocked p s.db, position := q }
  | finishes (p : DistributedLockRow → Bool) (hp : Releases s p) (lock : Lock)
      (hpos : s.position = .release lock .broke) :
      Moves a i s (finish { s with db := unlocked p s.db })
  | fails (p : DistributedLockRow → Bool) (hp : Releases s p) (e : Thrown) :
      Moves a i s (fail a e { s with db := unlocked p s.db })

section Moves

variable {n : ℕ} {a : Action} {i : Circumstance} {s : ExecuteState} {lock : Lock} {ending : Ending}

theorem leave_of_kind {e : Thrown} (h : e.kind ≠ .distributedLockTimeout) (s : ExecuteState) :
    leave a e s = fail a e s := if_neg h

theorem releases_none (s : ExecuteState) : Releases s fun _ => false := fun _ => nofun

theorem exists_unlocked (hpos : s.position = .release lock ending) (i : LockScope.Circumstance) :
    ∃ p, Releases s p ∧ (dispose lock i s.db).1 = unlocked p s.db := by
  obtain h | ⟨id,hid,h⟩ := dispose_db lock i s.db
  · exact ⟨fun _ => false,releases_none s,h.trans (unlocked_false s.db).symm⟩
  · refine ⟨_,fun r hr => ⟨lock,ending,hpos,?_⟩,h⟩
    rw [hid,of_decide_eq_true hr]

theorem moves_acquireLock (hpos : s.position = .acquire) : Moves a i s (acquireLock a i s) := by
  have hsame : s = { s with db := unlocked (fun _ => false) s.db } := by rw [unlocked_false]
  unfold acquireLock
  cases h : acquire a.resource defaultLockTimeout i.toCircumstance s.db with
  | mk db r =>
    obtain ⟨id,rfl,ht⟩ | ⟨rfl,hr⟩ := acquire_cases h
    · exact .granted id db hpos ht
    · cases r with
      | granted lock => exact absurd rfl (hr lock)
      | again =>
        have hstay := Moves.stays (a := a) (i := i) _ (releases_none s)
        rwa [← hsame] at hstay
      | raised e =>
        by_cases he : e.kind = .distributedLockTimeout
        · have hwait := Moves.waits (a := a) (i := i) _ (releases_none s) .poll (.inr rfl) (.inl hpos)
          rw [unlocked_false] at hwait
          simpa only [leave,if_pos he] using hwait
        · have hfail := Moves.fails (a := a) (i := i) _ (releases_none s) e
          rw [← hsame] at hfail
          simpa only [leave_of_kind he] using hfail

theorem moves_disposeLock (hpos : s.position = .release lock ending)
    (hraised : ∀ e, ending = .raised e → e.kind ≠ .distributedLockTimeout) :
    Moves a i s (disposeLock a lock ending i s) := by
  obtain ⟨p,hrel,hp⟩ := exists_unlocked hpos i.toCircumstance
  unfold disposeLock
  cases h : dispose lock i.toCircumstance s.db with
  | mk db r =>
    rw [h] at hp
    subst hp
    cases r with
    | done =>
      cases ending with
      | broke => exact .finishes p hrel lock hpos
      | ran => exact .waits p hrel .poll (.inr rfl) (.inr (.inr ⟨lock,hpos⟩))
      | raised e =>
        dsimp only
        rw [leave_of_kind (hraised e rfl)]
        exact .fails p hrel e
    | again => exact .stays p hrel
    | raised e =>
      obtain ⟨-,hthrown,-⟩ := dispose_raised.mp (congrArg Prod.snd h)
      dsimp only
      rw [leave_of_kind (i.thrown_kind e hthrown)]
      exact .fails p hrel e

theorem moves_poll (hpos : s.position = .poll) : Moves a i s (poll a i s) := by
  unfold poll
  cases i.thrown with
  | some e =>
    have hfail := Moves.fails (a := a) (i := i) _ (releases_none s) e
    rwa [unlocked_false] at hfail
  | none =>
    have hwait := Moves.waits (a := a) (i := i) _ (releases_none s) .acquire (.inl rfl)
      (.inr (.inl hpos))
    rwa [unlocked_false] at hwait

end Moves

/-- Readings of the clock do not decrease, and `Execute` starts at `t`. -/
structure InOrder (t : ℤ) (is : ℕ → Circumstance) : Prop where
  start : t ≤ (is 0).utcNow
  mono : ∀ k, (is k).utcNow ≤ (is (k+1)).utcNow

theorem InOrder.later {t : ℤ} {is : ℕ → Circumstance} (h : InOrder t is) : InOrder t (later is) :=
  ⟨h.start.trans (h.mono 0),fun k => h.mono (k+1)⟩

/-- The action's own lock row is there. -/
def Held (k : Kind) (lock : Lock) (db : Db) : Prop :=
  ∃ r ∈ db.distributedLock.rows, lock.lockId = some r.id ∧ r.resource = (Action.table k).resource ∧
    r.expireAtAsLong ≤ DateTime.toEpochDate DateTime.maxTicks

/-- What an action for a table has achieved where it stands. -/
def Stands (t : ℤ) (s : ExecuteState) : Prop :=
  match s.position with
  | .delete lock ks => ∀ k as, s.actions = .table k::as → ks = [k] ∧ Held k lock s.db
  | .release _ .broke => ∀ k as, s.actions = .table k::as → Drained t k s.db
  | .release _ (.raised e) => e.kind ≠ .distributedLockTimeout
  | _ => True

/-- Actions that are over and have not thrown have drained their tables. -/
structure Sound (t : ℤ) (db₀ : Db) (s : ExecuteState) : Prop where
  known : ∀ a ∈ s.actions, a ∈ actions
  done : ∀ k ∈ collections, Action.table k ∉ s.actions → (∀ e, (Action.table k,e) ∉ s.errors) →
    Drained t k s.db
  pruned : PrunedDb db₀ s.db

/-- What a step may do to the tables. -/
structure Shrinks (t : ℤ) (db db' : Db) : Prop where
  pruned : PrunedDb db db'
  drained : ∀ k, Drained t k db → Drained t k db'

section Soundness

variable {t : ℤ} {n : ℕ} {a : Action} {i : Circumstance} {s s' : ExecuteState} {db₀ db db' : Db}

theorem shrinks_unlocked (t : ℤ) (p : DistributedLockRow → Bool) (db : Db) :
    Shrinks t db (unlocked p db) :=
  ⟨prunedDb_locks fun _ hr => .inl (List.mem_of_mem_filter hr),
    fun _ h => h.locks fun _ hr => .inl (List.mem_of_mem_filter hr)⟩

theorem shrinks_callDeleteEntities (t : ℤ) (n : ℕ) (k : Kind) (i : Circumstance) (db : Db) :
    Shrinks t db (callDeleteEntities n k i db).1 := by
  obtain ⟨batch,hb,he⟩ := callDeleteEntities_fst n k i db
  rw [he]
  exact ⟨prunedDb_deleteRows hb,fun k' h => h.deleteRows batch k⟩

theorem toEpochDate_add_defaultLockTimeout (u : ℤ) :
    DateTime.toEpochDate (u+defaultLockTimeout) = DateTime.toEpochDate u + 300000 := by
  unfold DateTime.toEpochDate DateTime.ticksPerMillisecond defaultLockTimeout
  omega

/-- A lock row that was just written is far from expired. -/
theorem shrinks_granted {o : RowOrder DistributedLockRow} {now : ℤ} {id : ℤ} (ht : t ≤ now)
    (ha : a ∈ actions)
    (h : tryAcquireWithEntity o a.resource defaultLockTimeout now db = .ok (some id,db')) :
    Shrinks t db db' := by
  have hlate : DateTime.toEpochDate t ≤ DateTime.toEpochDate (now+defaultLockTimeout) := by
    have := DateTime.toEpochDate_mono ht
    rw [toEpochDate_add_defaultLockTimeout]
    omega
  have hshrinks {l : Table DistributedLockRow} (hl : ∀ r ∈ l.rows, r ∈ db.distributedLock.rows ∨
      r.resource = a.resource ∧ DateTime.toEpochDate t ≤ r.expireAtAsLong) :
      Shrinks t db { db with distributedLock := l } :=
    ⟨prunedDb_locks fun r hr => (hl r hr).imp_right fun hres => ⟨a,ha,hres.1⟩,
      fun k hk => hk.locks fun r hr => (hl r hr).imp_right And.right⟩
  obtain ⟨hn,-⟩ | ⟨-,-,rfl⟩ | ⟨r,hr,hres,-,-,rfl⟩ := tryAcquireWithEntity_eq_ok h
  · cases hn
  · refine hshrinks fun r hr => ?_
    rw [Table.rows_insert,List.mem_append,List.mem_singleton] at hr
    obtain hr | rfl := hr
    · exact .inl hr
    · exact .inr ⟨rfl,hlate⟩
  · refine hshrinks fun r' hr' => ?_
    rw [Table.rows_put,List.mem_map] at hr'
    obtain ⟨r₀,hr₀,rfl⟩ := hr'
    split_ifs
    · exact .inr ⟨hres,hlate⟩
    · exact .inl hr₀

theorem held_of_granted {o : RowOrder DistributedLockRow} {resource : String} {now : ℤ} {id : ℤ}
    (h : tryAcquireWithEntity o resource defaultLockTimeout now db = .ok (some id,db')) :
    ∃ r ∈ db'.distributedLock.rows, r.id = id ∧ r.resource = resource ∧
      r.expireAtAsLong = DateTime.toEpochDate now + 300000 ∧
      r.expireAtAsLong ≤ DateTime.toEpochDate DateTime.maxTicks := by
  have hmax := DateTime.toEpochDate_mono (inRange_of_tryAcquireWithEntity h).2
  have hexp := toEpochDate_add_defaultLockTimeout now
  obtain ⟨hn,-⟩ | ⟨hid,-,rfl⟩ | ⟨r,hr,hres,-,hid,rfl⟩ := tryAcquireWithEntity_eq_ok h
  · cases hn
  · cases hid
    exact ⟨_,List.mem_append_right _ (List.mem_singleton.mpr rfl),rfl,rfl,hexp,hmax⟩
  · cases hid
    refine ⟨reused now (now+defaultLockTimeout) r,?_,rfl,hres,hexp,hmax⟩
    rw [Table.rows_put]
    exact List.mem_map.mpr ⟨r,hr,if_pos rfl⟩

theorem Sound.mem_collections (h : Sound t db₀ s) {k : Kind} {as : List Action}
    (ha : s.actions = .table k::as) : k ∈ collections := by
  have hmem := h.known (.table k) (by rw [ha]; exact List.mem_cons_self)
  simpa [actions] using hmem

theorem Sound.of_shrinks (h : Sound t db₀ s) (hdb : Shrinks t s.db s'.db)
    (hactions : ∀ a ∈ s'.actions, a ∈ s.actions) (herrors : ∀ x ∈ s.errors, x ∈ s'.errors)
    (hover : ∀ k, Action.table k ∈ s.actions → Action.table k ∉ s'.actions →
      (∀ e, (Action.table k,e) ∉ s'.errors) → Drained t k s'.db) : Sound t db₀ s' where
  known a ha := h.known a (hactions a ha)
  done k hk hnot herr := by
    by_cases hmem : Action.table k ∈ s.actions
    · exact hover k hmem hnot herr
    · exact hdb.drained k (h.done k hk hmem fun e he => herr e (herrors _ he))
  pruned := h.pruned.trans hdb.pruned

theorem Sound.of_same (h : Sound t db₀ s) (hdb : Shrinks t s.db s'.db)
    (hactions : s'.actions = s.actions) (herrors : s'.errors = s.errors) : Sound t db₀ s' :=
  h.of_shrinks hdb (fun _ hm => hactions ▸ hm) (fun _ hm => herrors ▸ hm)
    fun _ hk hn => absurd (hactions ▸ hk) hn

/-- The head of the list is the one action that gets over. -/
theorem Sound.of_tail (h : Sound t db₀ s) {as : List Action} (ha : s.actions = a::as)
    (hdb : Shrinks t s.db s'.db) (hactions : s'.actions = as) (herrors : ∀ x ∈ s.errors, x ∈ s'.errors)
    (hover : ∀ k, a = .table k → (∀ e, (Action.table k,e) ∉ s'.errors) → Drained t k s'.db) :
    Sound t db₀ s' := by
  refine h.of_shrinks hdb (fun x hx => ?_) herrors fun k hk hn herr => ?_
  · rw [ha]
    exact List.mem_cons_of_mem a (hactions ▸ hx)
  · rw [ha,List.mem_cons] at hk
    obtain rfl | hk := hk
    · exact hover k rfl herr
    · exact absurd (hactions.symm ▸ hk) hn

theorem kind_of_callDeleteEntities {k : Kind} {e : Thrown}
    (h : (callDeleteEntities n k i db).2 = .error e) : e.kind ≠ .distributedLockTimeout := by
  unfold callDeleteEntities at h
  cases ht : i.thrown with
  | none =>
    rw [ht] at h
    dsimp only at h
    cases hr : (deleteEntities k i.order n i.utcNow db).2 with
    | ok count =>
      rw [hr] at h
      cases h
    | error f =>
      rw [hr] at h
      cases h
      exact nofun
  | some e' =>
    rw [ht] at h
    dsimp only at h
    cases hr : (deleteIds k ((batches SqlUtil.deleteBatchSize
        (selectIds i.order n i.utcNow db k)).take i.statements) 0 db).2 with
    | ok count =>
      rw [hr] at h
      cases h
      exact i.thrown_kind e ht
    | error f =>
      rw [hr] at h
      cases h
      exact nofun

theorem sound_moves (ht : t ≤ i.utcNow) (hs : Sound t db₀ s) (hst : Stands t s) {as : List Action}
    (ha : s.actions = a::as) (hpos : ∀ lock ks, s.position ≠ .delete lock ks) (h : Moves a i s s') :
    Sound t db₀ s' ∧ Stands t s' := by
  cases h with
  | granted id db hp hacq =>
    have hmem := hs.known a (by rw [ha]; exact List.mem_cons_self)
    refine ⟨hs.of_same (shrinks_granted ht hmem hacq) rfl rfl,fun k as' hk => ?_⟩
    obtain rfl : a = .table k := (List.cons.inj (ha.symm.trans hk)).1
    obtain ⟨r,hr,rfl,hres,-,hmax⟩ := held_of_granted hacq
    exact ⟨rfl,r,hr,rfl,hres,hmax⟩
  | stays p _ =>
    refine ⟨hs.of_same (shrinks_unlocked t p s.db) rfl rfl,?_⟩
    unfold Stands at hst ⊢
    cases hp : s.position with
    | acquire => trivial
    | delete lock ks => exact absurd hp (hpos lock ks)
    | release lock ending =>
      rw [hp] at hst
      cases ending with
      | broke => exact fun k as' hk => (shrinks_unlocked t p s.db).drained k (hst k as' hk)
      | ran => trivial
      | raised e => exact hst
    | poll => trivial
  | waits p _ q hq _ =>
    refine ⟨hs.of_same (shrinks_unlocked t p s.db) rfl rfl,?_⟩
    obtain rfl | rfl := hq <;> trivial
  | finishes p _ lock hp =>
    refine ⟨hs.of_tail ha (shrinks_unlocked t p s.db) (by simp [finish,ha]) (fun _ hx => hx)
      fun k hk _ => ?_,trivial⟩
    subst hk
    unfold Stands at hst
    rw [hp] at hst
    exact (shrinks_unlocked t p s.db).drained k (hst k as ha)
  | fails p _ e =>
    refine ⟨hs.of_tail ha (shrinks_unlocked t p s.db) (by simp [fail,finish,ha])
      (fun _ hx => List.mem_cons_of_mem _ hx) fun k hk herr => ?_,trivial⟩
    subst hk
    exact absurd List.mem_cons_self (herr e)

theorem sound_delete (ht : t ≤ i.utcNow) (hs : Sound t db₀ s) (hst : Stands t s) {as : List Action}
    (ha : s.actions = a::as) {lock : Lock} {ks : List Kind} (hpos : s.position = .delete lock ks) :
    Sound t db₀ (deleteStep n a lock i s ks) ∧ Stands t (deleteStep n a lock i s ks) := by
  unfold Stands at hst
  rw [hpos] at hst
  cases ks with
  | nil =>
    refine ⟨hs.of_same ⟨⟨.refl _,.refl _,.refl _,.refl _,fun _ => .inl⟩,fun _ h => h⟩ rfl rfl,
      fun k as' hk => ?_⟩
    cases (hst k as' hk).1
  | cons k ks =>
    have hshr := shrinks_callDeleteEntities t n k i s.db
    cases h : callDeleteEntities n k i s.db with
    | mk db r =>
      rw [h] at hshr
      simp only [deleteStep,h]
      cases r with
      | error e => exact ⟨hs.of_same hshr rfl rfl,kind_of_callDeleteEntities (congrArg Prod.snd h)⟩
      | ok count =>
        refine ⟨hs.of_same hshr rfl rfl,?_⟩
        cases ks with
        | cons k' ks => exact fun k'' as' hk => nomatch (hst k'' as' hk).1
        | nil =>
          unfold Stands passed
          dsimp only
          split_ifs with hcount
          · intro k' as' hk
            obtain ⟨hks,-⟩ := hst k' as' hk
            cases hks
            cases ha.symm.trans hk
            exact drained_of_pass (hs.mem_collections ha) ht h hcount
          · trivial

theorem sound_advance (ht : t ≤ i.utcNow) (hs : Sound t db₀ s) (hst : Stands t s) {as : List Action}
    (ha : s.actions = a::as) : Sound t db₀ (advance n a i s) ∧ Stands t (advance n a i s) := by
  unfold advance
  cases hpos : s.position with
  | acquire => exact sound_moves ht hs hst ha (by simp [hpos]) (moves_acquireLock hpos)
  | delete lock ks => exact sound_delete ht hs hst ha hpos
  | release lock ending =>
    refine sound_moves ht hs hst ha (by simp [hpos]) (moves_disposeLock hpos ?_)
    rintro e rfl
    unfold Stands at hst
    rwa [hpos] at hst
  | poll => exact sound_moves ht hs hst ha (by simp [hpos]) (moves_poll hpos)

end Soundness

end ExpirationExecute
end HangfireStorage
