import HangfireStorage.StepEffects
import HangfireStorage.Lease

/-!
# Mutual exclusion of distributed locks

Lock rows and lock objects refine the ledger of timed leases, its clock counting
whole milliseconds: the row of a resource is held by the object that was granted the
resource last.
-/

namespace HangfireStorage
namespace StorageSystem

open DistributedLock Machine Lease

def Event.AboutLocks : Event → Prop
  | .advanced _ | .acquired _ _ _ _ | .released _ _ _ => True
  | _ => False

/-- Everything a step that is no clean-up can do to the lock rows, the lock objects and the
clock. -/
inductive LockEffect (s : StorageState) (a : Action) (s' : StorageState) : Event → Prop
  | idle {e : Event} (hq : s'.db.distributedLock = s.db.distributedLock) (hn : s'.now = s.now)
      (hl : s'.locks = s.locks) (he : ¬ e.AboutLocks) : LockEffect s a s' e
  | advanced (hq : s'.db.distributedLock = s.db.distributedLock) (hn : s.now ≤ s'.now)
      (hl : s'.locks = s.locks) : LockEffect s a s' (.advanced s'.now)
  | inserted {resource : String} {timeout : ℤ}
      (hno : ∀ i ∈ s.db.distributedLock.rows, i.resource ≠ resource)
      (hq : s'.db.distributedLock =
        s.db.distributedLock.insert (inserted resource s.now (s.now+timeout)))
      (hn : s'.now = s.now)
      (hl : s'.locks = s.locks ++ [⟨resource,timeout,some s.db.distributedLock.nextId⟩]) :
      LockEffect s a s' (.acquired s.locks.length resource timeout s.now)
  | reused {i : DistributedLockRow} {timeout : ℤ} (hi : i ∈ s.db.distributedLock.rows)
      (hlt : i.expireAtAsLong < DateTime.toEpochDate s.now)
      (hq : s'.db.distributedLock =
        s.db.distributedLock.put (reused s.now (s.now+timeout) i)) (hn : s'.now = s.now)
      (hl : s'.locks = s.locks ++ [⟨i.resource,timeout,some i.id⟩]) :
      LockEffect s a s' (.acquired s.locks.length i.resource timeout s.now)
  | released {i : ℕ} {l : Lock} {id : ℤ} (ha : a = .releaseLock i false)
      (hi : s.locks[i]? = some l) (hid : l.lockId = some id)
      (hq : s'.db.distributedLock = s.db.distributedLock.delete fun r => r.id = id)
      (hn : s'.now = s.now) (hl : s'.locks = s.locks.set i { l with lockId := none }) :
      LockEffect s a s'
        (.released i l.resource (s'.db.distributedLock ≠ s.db.distributedLock))
  | again {i : ℕ} {r : String} (hq : s'.db.distributedLock = s.db.distributedLock)
      (hn : s'.now = s.now) (hl : s'.locks = s.locks) : LockEffect s a s' (.released i r false)

/-- The effect of a step on the locks. -/
theorem step_lockEffect {T : ℤ} {s : StorageState} (ser : SerializationHelper) (a : Action)
    (ha : a.isCleanup = false) : LockEffect s a (step ser T s a).1 (step ser T s a).2 := by
  have h : StepEffect ser T s a _ _ := step_effect a
  generalize (step ser T s a).1 = s', (step ser T s a).2 = e at h ⊢
  cases h with
  | advanced d => exact .advanced rfl (by simp) rfl
  | committed h => exact .idle (WriteOnlyTransaction.commit_untouched h).2 rfl rfl id
  | inserted hno => exact .inserted hno rfl rfl rfl
  | reused hi hlt => exact .reused hi hlt rfl rfl rfl
  | released hi hid ht => exact .released rfl hi hid ht rfl rfl
  | releasedAgain r => exact .again rfl rfl rfl
  | aggregated h =>
    obtain ⟨items,t,-,-,rfl⟩ := CountersAggregator.pass_eq_ok h
    exact .idle rfl rfl rfl id
  | idle | failed | created | fetched | removed | requeued | disposeRequeued | disposed | crashed =>
    exact .idle rfl rfl rfl id
  | selected | deleted | deletedNothing | deleteFailed => cases ha

def UniqueResources (t : Table DistributedLockRow) : Prop :=
  t.rows.Pairwise fun a b => a.resource ≠ b.resource

instance (t : Table DistributedLockRow) : Decidable (UniqueResources t) :=
  inferInstanceAs (Decidable (List.Pairwise _ _))

def lockResources (s : StorageState) : List String := s.locks.map Lock.resource

def lockOf (t : Table DistributedLockRow) (r : String) : Option DistributedLockRow :=
  t.rows.find? fun i => i.resource = r

/-- The lease on a resource. -/
def lockSlot (t : Table DistributedLockRow) (holders : List String) (r : String) :
    Slot (Option ℕ) ℤ :=
  match lockOf t r with
  | some i => .held (lastIndexOf r holders) i.expireAtAsLong
  | none => .free

def lockLedger (s : StorageState) : Ledger String (Option ℕ) ℤ :=
  ⟨DateTime.toEpochDate s.now,lockSlot s.db.distributedLock (lockResources s)⟩

def lockEvent : Event → Option (Lease.Event String (Option ℕ) ℤ)
  | .advanced t => some (.tick (DateTime.toEpochDate t))
  | .acquired i r timeout t =>
    some (.acquire (some i) r (DateTime.toEpochDate t) (DateTime.toEpochDate (t+timeout)))
  | .released i r true => some (.release (some i) r)
  | _ => none

/-- A release takes effect only through the object that was granted its row last, or where
the row is gone or has expired. -/
def OwnRelease (s : StorageState) (a : Action) : Prop :=
  match a with
  | .releaseLock i false => ∀ l ∈ s.locks[i]?, ∀ id ∈ l.lockId,
    (∀ l' ∈ s.locks.drop (i+1), l'.lockId ≠ some id) ∨
      ∀ r ∈ s.db.distributedLock.byId id, r.expireAtAsLong < DateTime.toEpochDate s.now
  | _ => True

instance (s : StorageState) (a : Action) : Decidable (OwnRelease s a) := by
  unfold OwnRelease
  split <;> infer_instance

/-- What the objects remember about the rows. -/
structure LocksOk (s : StorageState) : Prop where
  unique : UniqueResources s.db.distributedLock
  owner : ∀ r ∈ s.db.distributedLock.rows, ∀ j l, lastIndexOf r.resource (lockResources s) = some j →
    s.locks[j]? = some l → l.lockId = some r.id
  known : ∀ l ∈ s.locks, ∀ id ∈ l.lockId, id < s.db.distributedLock.nextId
  resource : ∀ l ∈ s.locks, ∀ id ∈ l.lockId, ∀ r ∈ s.db.distributedLock.rows, r.id = id →
    r.resource = l.resource

section Slots

variable {t : Table DistributedLockRow}

theorem lockOf_eq_some (hu : UniqueResources t) {r : String} {i : DistributedLockRow} :
    lockOf t r = some i ↔ i ∈ t.rows ∧ i.resource = r :=
  find?_eq_some_of_distinct hu

theorem UniqueResources.eq_of_resource (hu : UniqueResources t) {a b : DistributedLockRow}
    (ha : a ∈ t.rows) (hb : b ∈ t.rows) (h : a.resource = b.resource) : a = b :=
  Option.some_inj.mp (((lockOf_eq_some hu).mpr ⟨ha,h⟩).symm.trans ((lockOf_eq_some hu).mpr ⟨hb,rfl⟩))

theorem UniqueResources.insert (hu : UniqueResources t) {i : DistributedLockRow}
    (hno : ∀ r ∈ t.rows, r.resource ≠ i.resource) : UniqueResources (t.insert i) := by
  refine List.pairwise_append.mpr ⟨hu,by simp,?_⟩
  intro a ha b hb
  rw [List.mem_singleton.mp hb]
  exact hno a ha

theorem UniqueResources.put (hu : UniqueResources t) {i i' : DistributedLockRow} (hi : i ∈ t.rows)
    (hid : i'.id = i.id) (hr : i'.resource = i.resource) : UniqueResources (t.put i') := by
  have hres : ∀ a ∈ t.rows, (if Row.id a = Row.id i' then i' else a).resource = a.resource := by
    intro a ha
    split_ifs with h
    · rw [Table.eq_of_id ha hi (h.trans hid),hr]
    · rfl
  unfold UniqueResources
  rw [Table.rows_put,List.pairwise_map]
  exact hu.imp_of_mem fun ha hb hne => by rwa [hres _ ha,hres _ hb]

theorem lockOf_insert {i : DistributedLockRow} (hno : ∀ r ∈ t.rows, r.resource ≠ i.resource)
    (r : String) : lockOf (t.insert i) r =
      if r = i.resource then some (Row.withId t.nextId i) else lockOf t r := by
  have hres : (Row.withId t.nextId i).resource = i.resource := rfl
  unfold lockOf
  rw [Table.rows_insert,List.find?_append]
  split_ifs with hr
  · rw [List.find?_eq_none.mpr (by simpa [hr] using hno)]
    simp [hres,hr]
  · simp [hres,Ne.symm hr]

theorem lockOf_put (hu : UniqueResources t) {i i' : DistributedLockRow} (hi : i ∈ t.rows)
    (hid : i'.id = i.id) (hr : i'.resource = i.resource) (r : String) :
    lockOf (t.put i') r = if r = i.resource then some i' else lockOf t r := by
  have hu' := hu.put hi hid hr
  split_ifs with hk
  · exact (lockOf_eq_some hu').mpr ⟨List.mem_map.mpr ⟨i,hi,if_pos hid.symm⟩,hr.trans hk.symm⟩
  · apply Option.ext
    intro a
    rw [lockOf_eq_some hu',lockOf_eq_some hu,Table.rows_put,List.mem_map]
    constructor
    · rintro ⟨⟨b,hb,rfl⟩,hres⟩
      split_ifs at hres ⊢
      · exact absurd (hres.symm.trans hr) hk
      · exact ⟨hb,hres⟩
    · rintro ⟨ha,rfl⟩
      refine ⟨⟨a,ha,if_neg fun h => hk ?_⟩,rfl⟩
      rw [Table.eq_of_id ha hi (h.trans hid)]

theorem lockOf_delete (hu : UniqueResources t) (k : ℤ) (r : String) :
    lockOf (t.delete fun i => i.id = k) r = (lockOf t r).filter fun i => i.id ≠ k := by
  have hu' : UniqueResources (t.delete fun i => i.id = k) := hu.filter _
  apply Option.ext
  intro a
  rw [lockOf_eq_some hu',Option.filter_eq_some_iff,lockOf_eq_some hu,Table.rows_delete,
    List.mem_filter]
  simp only [Bool.not_eq_true',decide_eq_false_iff_not,decide_eq_true_eq]
  tauto

theorem lockSlot_insert (holders : List String) {i : DistributedLockRow}
    (hno : ∀ r ∈ t.rows, r.resource ≠ i.resource) :
    lockSlot (t.insert i) (holders ++ [i.resource]) =
      Function.update (lockSlot t holders) i.resource (.held (some holders.length) i.expireAtAsLong) := by
  funext r
  unfold lockSlot
  rw [lockOf_insert hno]
  by_cases hr : r = i.resource
  · simp [hr,lastIndexOf_append,Row.withId]
  · simp [hr,Ne.symm hr,lastIndexOf_append]

theorem lockSlot_put (holders : List String) (hu : UniqueResources t) {i : DistributedLockRow}
    (hi : i ∈ t.rows) (i' : DistributedLockRow) (hid : i'.id = i.id) (hr : i'.resource = i.resource) :
    lockSlot (t.put i') (holders ++ [i.resource]) =
      Function.update (lockSlot t holders) i.resource
        (.held (some holders.length) i'.expireAtAsLong) := by
  funext r
  unfold lockSlot
  rw [lockOf_put hu hi hid hr]
  by_cases hk : r = i.resource
  · simp [hk,lastIndexOf_append]
  · simp [hk,Ne.symm hk,lastIndexOf_append]

theorem lockSlot_delete (holders : List String) (hu : UniqueResources t) {i : DistributedLockRow}
    (hi : i ∈ t.rows) :
    lockSlot (t.delete fun r => r.id = i.id) holders =
      Function.update (lockSlot t holders) i.resource (lockSlot t holders i.resource).released := by
  have hown : lockOf t i.resource = some i := (lockOf_eq_some hu).mpr ⟨hi,rfl⟩
  funext r
  unfold lockSlot
  rw [lockOf_delete hu]
  by_cases hk : r = i.resource
  · subst hk
    simp [hown,Slot.released,Option.filter]
  · rw [Function.update_of_ne hk]
    cases h : lockOf t r with
    | none => rfl
    | some a =>
      obtain ⟨ha,rfl⟩ := (lockOf_eq_some hu).mp h
      have hne : a.id ≠ i.id := fun he => hk (by rw [Table.eq_of_id ha hi he])
      simp [Option.filter,hne]

end Slots

section Refinement

variable {s s' : StorageState} {a : Action} {e : Event}

theorem lockResources_set {i : ℕ} {l l' : Lock} (hi : s.locks[i]? = some l)
    (hl : s'.locks = s.locks.set i l') (hr : l'.resource = l.resource) :
    lockResources s' = lockResources s := by
  obtain ⟨hlt,rfl⟩ := List.getElem?_eq_some_iff.mp hi
  rw [lockResources,hl,List.map_set,hr,← List.map_set,List.set_getElem_self]
  rfl

theorem getElem?_lockResources {j : ℕ} {r : String} (h : (lockResources s)[j]? = some r) :
    ∃ l, s.locks[j]? = some l ∧ l.resource = r := by
  simpa [lockResources] using h

/-- A grant writes the row of its resource and appends the object that remembers the row. -/
theorem LocksOk.grant (hok : LocksOk s) {l : Lock} {i' : DistributedLockRow}
    (hu : UniqueResources s'.db.distributedLock)
    (hrows : ∀ r ∈ s'.db.distributedLock.rows,
      r = i' ∨ r ∈ s.db.distributedLock.rows ∧ r.resource ≠ l.resource)
    (hi : i'.resource = l.resource) (hid : l.lockId = some i'.id)
    (hlt : i'.id < s'.db.distributedLock.nextId)
    (hnext : s.db.distributedLock.nextId ≤ s'.db.distributedLock.nextId)
    (hfresh : ∀ l' ∈ s.locks, l'.lockId = some i'.id → l'.resource = l.resource)
    (hi' : i' ∈ s'.db.distributedLock.rows) (hl : s'.locks = s.locks ++ [l]) : LocksOk s' where
  unique := hu
  known l' hl' id hid' := by
    rw [hl,List.mem_append,List.mem_singleton] at hl'
    rcases hl' with hl' | rfl
    · exact (hok.known l' hl' id hid').trans_le hnext
    · obtain rfl : i'.id = id := by simpa [hid] using hid'
      exact hlt
  resource l' hl' id hid' r hr hrid := by
    rw [hl,List.mem_append,List.mem_singleton] at hl'
    rcases hl' with hl' | rfl
    · rcases hrows r hr with rfl | ⟨hr,-⟩
      · rw [hi,hfresh l' hl' (hrid ▸ hid')]
      · exact hok.resource l' hl' id hid' r hr hrid
    · obtain rfl : i'.id = id := by simpa [hid] using hid'
      rw [Table.eq_of_id hr hi' hrid,hi]
  owner r hr j l' hj hl' := by
    rw [lockResources,hl,List.map_append,List.map_singleton,lastIndexOf_append] at hj
    rcases hrows r hr with rfl | ⟨hr,hne⟩
    · rw [if_pos hi.symm,Option.some.injEq,List.length_map] at hj
      rw [hl,← hj,List.getElem?_concat_length,Option.some.injEq] at hl'
      rw [← hl',hid]
    · rw [if_neg (Ne.symm hne)] at hj
      obtain ⟨l'',hl'',-⟩ := getElem?_lockResources (getElem?_of_lastIndexOf hj)
      obtain ⟨hlt,-⟩ := List.getElem?_eq_some_iff.mp hl''
      rw [hl,List.getElem?_append_left hlt] at hl'
      exact hok.owner r hr j l' hj hl'

theorem locksOk_step (hok : LocksOk s) (he : LockEffect s a s' e) : LocksOk s' := by
  have hkeep : s'.db.distributedLock = s.db.distributedLock → s'.locks = s.locks → LocksOk s' := by
    intro hq hl
    refine ⟨hq ▸ hok.unique,?_,?_,?_⟩
    · simpa only [lockResources,hq,hl] using hok.owner
    · simpa only [hq,hl] using hok.known
    · simpa only [hq,hl] using hok.resource
  cases he with
  | idle hq _ hl | advanced hq _ hl | again hq _ hl => exact hkeep hq hl
  | @inserted resource timeout hno hq _ hl =>
    have hnew : Row.withId s.db.distributedLock.nextId
        (inserted resource s.now (s.now+timeout)) ∈ s'.db.distributedLock.rows := by
      rw [hq]
      exact List.mem_append_right _ (List.mem_singleton_self _)
    refine hok.grant ?_ ?_ rfl rfl ?_ ?_ ?_ hnew hl
    · rw [hq]
      exact hok.unique.insert hno
    · intro r hr
      rw [hq,Table.rows_insert,List.mem_append,List.mem_singleton] at hr
      rcases hr with hr | rfl
      · exact .inr ⟨hr,hno r hr⟩
      · exact .inl rfl
    · rw [hq]
      exact Int.lt_succ _
    · rw [hq]
      exact (Int.lt_succ _).le
    · intro l' hl' hid
      exact absurd (hok.known l' hl' _ hid) (lt_irrefl _)
  | @reused i timeout hi _ hq _ hl =>
    have hnew : reused s.now (s.now+timeout) i ∈ s'.db.distributedLock.rows := by
      rw [hq]
      exact List.mem_map.mpr ⟨i,hi,if_pos rfl⟩
    refine hok.grant ?_ ?_ rfl rfl ?_ ?_ ?_ hnew hl
    · rw [hq]
      exact hok.unique.put hi rfl rfl
    · intro r hr
      rw [hq,Table.rows_put] at hr
      obtain ⟨b,hb,rfl⟩ := List.mem_map.mp hr
      split_ifs with hid
      · exact .inl rfl
      · refine .inr ⟨hb,fun hres => hid ?_⟩
        rw [hok.unique.eq_of_resource hb hi hres]
        rfl
    · rw [hq]
      exact s.db.distributedLock.fresh i hi
    · rw [hq]
      exact le_rfl
    · intro l' hl' hid
      exact (hok.resource l' hl' i.id hid i hi rfl).symm
  | @released i l id _ hi hid hq _ hl =>
    have hmem : ∀ l' ∈ s'.locks, ∀ id' ∈ l'.lockId, l' ∈ s.locks := by
      intro l' hl' id' hid'
      rw [hl] at hl'
      rcases List.mem_or_eq_of_mem_set hl' with hl' | rfl
      · exact hl'
      · cases hid'
    refine ⟨?_,?_,?_,?_⟩
    · rw [hq]
      exact hok.unique.filter _
    · intro r hr j l' hj hl'
      rw [lockResources_set hi hl rfl] at hj
      rw [hq,Table.rows_delete,List.mem_filter] at hr
      have hne : r.id ≠ id := by simpa using hr.2
      by_cases hij : i = j
      · subst hij
        exact absurd (hid.symm.trans (hok.owner r hr.1 i l hj hi)) (by simpa using Ne.symm hne)
      · rw [hl,List.getElem?_set_ne hij] at hl'
        exact hok.owner r hr.1 j l' hj hl'
    · intro l' hl' id' hid'
      rw [hq]
      exact hok.known l' (hmem l' hl' id' hid') id' hid'
    · intro l' hl' id' hid' r hr
      rw [hq] at hr
      exact hok.resource l' (hmem l' hl' id' hid') id' hid' r (List.mem_of_mem_filter hr)

theorem releasable_lock (hok : LocksOk s) {i : ℕ} {l : Lock} {r : DistributedLockRow}
    (hC : OwnRelease s (.releaseLock i false)) (hi : s.locks[i]? = some l)
    (hid : l.lockId = some r.id) (hr : r ∈ s.db.distributedLock.rows) :
    (lockSlot s.db.distributedLock (lockResources s) r.resource).ReleasableBy (some i)
      (DateTime.toEpochDate s.now) := by
  have hrow : lockOf s.db.distributedLock r.resource = some r :=
    (lockOf_eq_some hok.unique).mpr ⟨hr,rfl⟩
  simp only [lockSlot,hrow,Slot.ReleasableBy]
  rcases hC l hi r.id hid with hlast | hexp
  · left
    have hres : (lockResources s)[i]? = some r.resource := by
      rw [hok.resource l (List.mem_of_getElem? hi) r.id hid r hr rfl]
      simp [lockResources,hi]
    obtain ⟨j,hj,hij⟩ := lastIndexOf_of_getElem? hres
    obtain ⟨l',hl',-⟩ := getElem?_lockResources (getElem?_of_lastIndexOf hj)
    rcases hij.eq_or_lt with rfl | hlt
    · exact hj
    · have hmem : l' ∈ s.locks.drop (i+1) :=
        List.mem_of_getElem? (i := j-(i+1)) (by rw [List.getElem?_drop,← hl']; congr 1; omega)
      exact absurd (hok.owner r hr j l' hj hl') (hlast l' hmem)
  · exact .inr (hexp r (Table.byId_of_mem hr))

/-- Every step under the condition is a step of the ledger, or leaves it alone. -/
theorem lockLedger_step (hok : LocksOk s) (hC : OwnRelease s a) (he : LockEffect s a s' e) :
    Stutter Lease.Step (lockLedger s) (lockEvent e) (lockLedger s') := by
  cases he with
  | idle hq hn hl hab =>
    have hv : lockEvent e = none := by
      cases e with
      | advanced | acquired | released => exact absurd trivial hab
      | _ => rfl
    simp only [hv,stutter_none,lockLedger,lockResources,hq,hn,hl]
  | again hq hn hl => simp only [lockEvent,stutter_none,lockLedger,lockResources,hq,hn,hl]
  | advanced hq hn hl =>
    have hst := Step.tick (l := lockLedger s) (DateTime.toEpochDate_mono hn)
    simpa only [lockEvent,stutter_some,lockLedger,lockResources,hq,hl] using hst
  | @inserted resource timeout hno hq hn hl =>
    have hav : (lockSlot s.db.distributedLock (lockResources s) resource).Available
        (DateTime.toEpochDate s.now) := by
      rw [lockSlot,lockOf,List.find?_eq_none.mpr (by simpa using hno)]
      trivial
    have hr : lockResources s' = lockResources s ++ [resource] := by simp [lockResources,hl]
    have hlen : s.locks.length = (lockResources s).length := by simp [lockResources]
    have hst := Step.acquire (l := lockLedger s) (h := some s.locks.length)
      (e := DateTime.toEpochDate (s.now+timeout)) hav
    have hslot := lockSlot_insert (lockResources s)
      (i := inserted resource s.now (s.now+timeout)) hno
    simp only [inserted] at hq hslot
    simpa only [lockEvent,stutter_some,lockLedger,hq,hn,hr,hslot,hlen] using hst
  | @reused i timeout hi hlt hq hn hl =>
    have hav : (lockSlot s.db.distributedLock (lockResources s) i.resource).Available
        (DateTime.toEpochDate s.now) := by
      rw [lockSlot,(lockOf_eq_some hok.unique).mpr ⟨hi,rfl⟩]
      exact hlt
    have hr : lockResources s' = lockResources s ++ [i.resource] := by simp [lockResources,hl]
    have hlen : s.locks.length = (lockResources s).length := by simp [lockResources]
    have hst := Step.acquire (l := lockLedger s) (h := some s.locks.length)
      (e := DateTime.toEpochDate (s.now+timeout)) hav
    have hslot := lockSlot_put (lockResources s) hok.unique hi
      (reused s.now (s.now+timeout) i) rfl rfl
    simp only [reused] at hq hslot
    simpa only [lockEvent,stutter_some,lockLedger,hq,hn,hr,hslot,hlen] using hst
  | @released i l id ha hi hid hq hn hl =>
    subst ha
    have hr := lockResources_set hi hl rfl
    by_cases hrow : ∃ r ∈ s.db.distributedLock.rows, r.id = id
    · obtain ⟨r,hmem,rfl⟩ := hrow
      have hres := hok.resource l (List.mem_of_getElem? hi) r.id hid r hmem rfl
      have hne : decide (s'.db.distributedLock ≠ s.db.distributedLock) = true := by
        rw [decide_eq_true_eq]
        intro heq
        rw [← heq,hq] at hmem
        simpa using List.of_mem_filter hmem
      have hst := Step.release (l := lockLedger s) (releasable_lock hok hC hi hid hmem)
      have hslot := lockSlot_delete (lockResources s) hok.unique hmem
      rw [hne,← hres]
      simpa only [lockEvent,stutter_some,lockLedger,hq,hn,hr,hslot] using hst
    · have heq : s'.db.distributedLock = s.db.distributedLock := by
        rw [hq]
        exact Table.delete_of_forall fun r hr => by simpa using fun h => hrow ⟨r,hr,h⟩
      have hne : decide (s'.db.distributedLock ≠ s.db.distributedLock) = false := by simp [heq]
      rw [hne]
      simp only [lockEvent,stutter_none,lockLedger,heq,hn,hr]

end Refinement

/-- Between two grants of one resource the first lease has run out, in ticks, or its
object was released. -/
def LeaseExclusive (es : List Event) : Prop :=
  ∀ pre mid post i j r timeout t timeout' t',
    es = pre ++ .acquired i r timeout t :: (mid ++ .acquired j r timeout' t' :: post) →
    t + timeout < t' ∨ ∃ b, .released i r b ∈ mid

/-- Lock leases exclude each other in every run without stale releases. -/
theorem lock_exclusive {ser : SerializationHelper} {T : ℤ} {s : StorageState} {as : List Action}
    (hs : s.locks = []) (hu : UniqueResources s.db.distributedLock)
    (hc : ∀ a ∈ as, a.isCleanup = false) (hC : Along (step ser T) OwnRelease s as) :
    LeaseExclusive (trace (step ser T) s as) := by
  have h₀ : LocksOk s := by
    refine ⟨hu,fun r _ j l _ hl => ?_,by simp [hs],by simp [hs]⟩
    simp [hs] at hl
  have hC' : Along (step ser T) (fun s a => OwnRelease s a ∧ a.isCleanup = false) s as :=
    hC.and (along_of_forall fun a ha _ => hc a ha)
  have hpath := simulate (R := Lease.Step) lockLedger lockEvent
    (fun s a hI hC => locksOk_step hI (step_lockEffect ser a hC.2))
    (fun s a hI hC => lockLedger_step hI hC.1 (step_lockEffect ser a hC.2)) hC' h₀
  intro pre mid post i j r timeout t timeout' t' htr
  rw [htr] at hpath
  simp only [List.filterMap_append,List.filterMap_cons,lockEvent] at hpath
  rcases Lease.exclusive hpath with hlt | hrel
  · exact .inl (DateTime.lt_of_toEpochDate_lt hlt)
  · right
    obtain ⟨e,he,hv⟩ := List.mem_filterMap.mp hrel
    cases e with
    | released i' r' b =>
      cases b
      · simp [lockEvent] at hv
      · simp only [lockEvent,Option.some.injEq,Lease.Event.release.injEq] at hv
        exact ⟨true,by rwa [hv.1,hv.2] at he⟩
    | _ => simp [lockEvent] at hv

section Runs

def acquireJobs : Action := .acquireLock .stored "jobs" 100000

/-- Take-over of an expired lease, and a late release that finds its row gone. -/
theorem lock_exclusive_take_over :
    LeaseExclusive (trace (step Json.helper 0) (initial 0)
      [acquireJobs,.advance 110000,acquireJobs,.releaseLock 1 false,.releaseLock 0 false,
        acquireJobs]) :=
  lock_exclusive rfl (by decide) (by decide) (by decide)

/-- The late release of an expired lease frees the one that took its row over. -/
theorem stale_release_not_exclusive :
    ¬ LeaseExclusive (trace (step Json.helper 0) (initial 0)
      [acquireJobs,.advance 110000,acquireJobs,.releaseLock 0 false,acquireJobs]) := by
  have htr : trace (step Json.helper 0) (initial 0)
      [acquireJobs,.advance 110000,acquireJobs,.releaseLock 0 false,acquireJobs] =
      [.acquired 0 "jobs" 100000 0,.advanced 110000] ++
        .acquired 1 "jobs" 100000 110000 :: ([.released 0 "jobs" true] ++
          .acquired 2 "jobs" 100000 110000 :: []) := by
    decide
  intro h
  have h₁ := h _ _ _ _ _ _ _ _ _ _ htr
  simp at h₁

end Runs

end StorageSystem
end HangfireStorage
