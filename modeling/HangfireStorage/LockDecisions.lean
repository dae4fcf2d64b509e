import HangfireStorage.Lifespans
import HangfireStorage.LockExclusion

/-!
# Who is granted a lock

The row of a resource tells when the last lease on it runs out, unless a release has deleted it
since. An attempt is refused only because of that lease.
-/

namespace HangfireStorage
namespace StorageSystem

open DistributedLock ExpirationManager Lifespan Machine

def leaseStart (r : String) : Event → Option ℤ
  | .acquired _ resource timeout now => if resource = r then some (now+timeout) else none
  | _ => none

/-- The event is no release that deletes the row of the resource. -/
def SparesLease (r : String) (_ : ℤ) : Event → Prop
  | .released _ resource deleted => ¬ (resource = r ∧ deleted = true)
  | _ => True

instance (r : String) (t : ℤ) (e : Event) : Decidable (SparesLease r t e) := by
  unfold SparesLease
  split <;> infer_instance

def keepLease (t : ℤ) (_ : Event) : ℤ × Unit := (t,())

/-- The end of the lease on a resource, if there is one. -/
def lease (r : String) (es : List Event) : Option ℤ := current (leaseStart r) keepLease (SparesLease r) es

/-- The resource was acquired until the given time, and neither acquired again nor released by
deleting its row since. -/
def Leased (r : String) (es : List Event) (expireAt : ℤ) : Prop :=
  ∃ before e after, es = before ++ e::after ∧ leaseStart r e = some expireAt ∧
    ∀ e' ∈ after, leaseStart r e' = none ∧ SparesLease r expireAt e'

section Leases

variable {r : String} {es : List Event} {e : Event} {t : ℤ}

theorem lease_eq_some : lease r es = some t ↔ Leased r es t := current_constant fun _ _ => rfl

theorem lease_keep (hs : leaseStart r e = none) (hk : ∀ t, SparesLease r t e) :
    lease r (es ++ [e]) = lease r es := current_keep (fun _ _ => rfl) hs hk

theorem lease_start (hs : leaseStart r e = some t) : lease r (es ++ [e]) = some t := current_start hs

theorem lease_end (hs : leaseStart r e = none) (hk : ∀ t, ¬ SparesLease r t e) :
    lease r (es ++ [e]) = none := current_end hs hk

end Leases

section Steps

variable {ser : SerializationHelper} {T : ℤ} {s s' : StorageState} {a : Action} {e : Event}
  {es : List Event}

theorem lockEffect_of_step (ser : SerializationHelper) (a : Action)
    (hdel : ∀ rows, (step ser T s a).2 ≠ .deleted .distributedLock rows) :
    LockEffect s a (step ser T s a).1 (step ser T s a).2 := by
  by_cases ha : a.isCleanup = false
  · exact step_lockEffect ser a ha
  · have h : StepEffect ser T s a _ _ := step_effect a
    generalize (step ser T s a).1 = s', (step ser T s a).2 = e at h hdel ⊢
    cases h with
    | idle | failed | selected | deletedNothing | deleteFailed => exact .idle rfl rfl rfl id
    | @deleted i w batch rest hi hp hr =>
      have hlocks : (deleteRows batch s.db w.kind).distributedLock = s.db.distributedLock := by
        cases hk : w.kind with
        | distributedLock => exact absurd (congrArg (Event.deleted · _) hk) (hdel _)
        | _ => rfl
      exact .idle hlocks rfl rfl id
    | _ => exact absurd rfl ha

/-- The row of every resource tells the end of the lease on it. -/
structure ShowsLeases (s : StorageState) (es : List Event) : Prop where
  ok : LocksOk s
  rows : ∀ r, (lockOf s.db.distributedLock r).map DistributedLockRow.expireAtAsLong =
    (lease r es).map DateTime.toEpochDate

theorem leaseStart_of_not_aboutLocks (h : ¬ e.AboutLocks) (r : String) :
    leaseStart r e = none ∧ ∀ t, SparesLease r t e := by
  cases e with
  | acquired | released => exact absurd trivial h
  | _ => exact ⟨rfl,fun _ => trivial⟩

theorem ShowsLeases.keep (h : ShowsLeases s es) (hok : LocksOk s')
    (hq : s'.db.distributedLock = s.db.distributedLock)
    (he : ∀ r, leaseStart r e = none ∧ ∀ t, SparesLease r t e) : ShowsLeases s' (es ++ [e]) :=
  ⟨hok,fun r => by rw [hq,lease_keep (he r).1 (he r).2,h.rows r]⟩

theorem ShowsLeases.grant (h : ShowsLeases s es) (hok : LocksOk s') {i : ℕ} {resource : String}
    {timeout : ℤ} (row : DistributedLockRow)
    (hrow : row.expireAtAsLong = DateTime.toEpochDate (s.now+timeout))
    (hq : ∀ r, lockOf s'.db.distributedLock r =
      if r = resource then some row else lockOf s.db.distributedLock r) :
    ShowsLeases s' (es ++ [.acquired i resource timeout s.now]) := by
  refine ⟨hok,fun r => ?_⟩
  rw [hq]
  by_cases hr : r = resource
  · rw [if_pos hr,lease_start (t := s.now+timeout) (by simp [leaseStart,hr])]
    simp [hrow]
  · have hstart : leaseStart r (.acquired i resource timeout s.now) = none := by
      simp [leaseStart,Ne.symm hr]
    rw [if_neg hr,lease_keep hstart fun _ => trivial,h.rows r]

theorem ShowsLeases.release (h : ShowsLeases s es) (hok : LocksOk s') {i : ℕ} {l : Lock} {id : ℤ}
    (hi : s.locks[i]? = some l) (hid : l.lockId = some id)
    (hq : s'.db.distributedLock = s.db.distributedLock.delete fun r => r.id = id) :
    ShowsLeases s' (es ++ [.released i l.resource (s'.db.distributedLock ≠ s.db.distributedLock)]) := by
  by_cases hrow : ∃ row ∈ s.db.distributedLock.rows, row.id = id
  · obtain ⟨row,hmem,rfl⟩ := hrow
    have hlock := lockOf_delete h.ok.unique row.id
    have hres := h.ok.resource l (List.mem_of_getElem? hi) row.id hid row hmem rfl
    have hown : lockOf s.db.distributedLock l.resource = some row :=
      (lockOf_eq_some h.ok.unique).mpr ⟨hmem,hres⟩
    have hne : s'.db.distributedLock ≠ s.db.distributedLock := by
      intro heq
      rw [← heq,hq] at hmem
      simpa using List.of_mem_filter hmem
    refine ⟨hok,fun r => ?_⟩
    rw [show lockOf s'.db.distributedLock r = _ from (congrArg (lockOf · r) hq).trans (hlock r)]
    by_cases hr : r = l.resource
    · subst hr
      have hends : ∀ t, ¬ SparesLease l.resource t (.released i l.resource
          (s'.db.distributedLock ≠ s.db.distributedLock)) := by simp [SparesLease,hne]
      rw [lease_end rfl hends,hown]
      simp [Option.filter]
    · have hspares : ∀ t, SparesLease r t (.released i l.resource
          (s'.db.distributedLock ≠ s.db.distributedLock)) := by simp [SparesLease,Ne.symm hr]
      rw [lease_keep rfl hspares,← h.rows r]
      cases hl : lockOf s.db.distributedLock r with
      | none => rfl
      | some other =>
        obtain ⟨hother,rfl⟩ := (lockOf_eq_some h.ok.unique).mp hl
        have hids : other.id ≠ row.id := fun heq =>
          hr (by rw [Table.eq_of_id hother hmem heq,hres])
        simp [Option.filter,hids]
  · have heq : s'.db.distributedLock = s.db.distributedLock := by
      rw [hq]
      exact Table.delete_of_forall fun r hr => by simpa using fun hk => hrow ⟨r,hr,hk⟩
    refine h.keep hok heq fun r => ⟨rfl,fun t ht => ?_⟩
    simp [heq] at ht

theorem showsLeases_step (h : ShowsLeases s es) (he : LockEffect s a s' e) :
    ShowsLeases s' (es ++ [e]) := by
  have hok := locksOk_step h.ok he
  cases he with
  | idle hq _ _ hab => exact h.keep hok hq (leaseStart_of_not_aboutLocks hab)
  | advanced hq => exact h.keep hok hq fun _ => ⟨rfl,fun _ => trivial⟩
  | @inserted resource timeout hno hq =>
    refine h.grant hok (Row.withId s.db.distributedLock.nextId
      (inserted resource s.now (s.now+timeout))) rfl fun r => ?_
    rw [hq,lockOf_insert hno]
    rfl
  | @reused i timeout hi _ hq =>
    refine h.grant hok (reused s.now (s.now+timeout) i) rfl fun r => ?_
    have hid : (reused s.now (s.now+timeout) i).id = i.id := rfl
    rw [hq]
    exact lockOf_put h.ok.unique hi hid rfl r
  | released _ hi hid hq => exact h.release hok hi hid hq
  | again hq => exact h.keep hok hq fun _ => ⟨rfl,fun _ => by simp [SparesLease]⟩

theorem showsLeases_exec {now : ℤ} {as : List Action}
    (hdel : ∀ rows, .deleted .distributedLock rows ∉ trace (step ser T) (initial now) as) :
    ShowsLeases (exec (step ser T) (initial now) as) (trace (step ser T) (initial now) as) := by
  induction as using List.reverseRecOn with
  | nil =>
    refine ⟨⟨List.Pairwise.nil,nofun,nofun,nofun⟩,fun r => ?_⟩
    rfl
  | append_singleton as a ih =>
    rw [trace_append] at hdel ⊢
    rw [exec_append]
    have hlast : ∀ rows, (step ser T (exec (step ser T) (initial now) as) a).2 ≠
        .deleted .distributedLock rows := fun rows he => hdel rows (by simp [he])
    exact showsLeases_step (ih fun rows hr => hdel rows (List.mem_append_left _ hr))
      (lockEffect_of_step ser a hlast)

theorem firstOrDefault_resource {t : Table DistributedLockRow} (hu : UniqueResources t)
    (o : RowOrder DistributedLockRow) (r : String) :
    o.firstOrDefault (t.rows.filter fun i => i.resource = r) = lockOf t r := by
  cases ho : o.firstOrDefault (t.rows.filter fun i => i.resource = r) with
  | none =>
    have hnone := RowOrder.firstOrDefault_eq_none.mp ho
    exact (List.find?_eq_none.mpr (List.filter_eq_nil_iff.mp hnone)).symm
  | some i =>
    have hi := List.mem_filter.mp (RowOrder.firstOrDefault_mem ho)
    exact ((lockOf_eq_some hu).mpr ⟨hi.1,by simpa using hi.2⟩).symm

theorem acquireLock_event (hu : UniqueResources s.db.distributedLock)
    (o : RowOrder DistributedLockRow) {r : String} {timeout : ℤ}
    (hr : DateTime.InRange (s.now+timeout)) :
    (∀ t ∈ (lockOf s.db.distributedLock r).map DistributedLockRow.expireAtAsLong,
      t < DateTime.toEpochDate s.now) ∧
      (step ser T s (.acquireLock o r timeout)).2 = .acquired s.locks.length r timeout s.now ∨
    (∃ t ∈ (lockOf s.db.distributedLock r).map DistributedLockRow.expireAtAsLong,
      DateTime.toEpochDate s.now ≤ t) ∧ step ser T s (.acquireLock o r timeout) = (s,.silent) := by
  simp only [step,tryAcquireWithEntity,DateTime.add_of_inRange hr,firstOrDefault_resource hu]
  cases lockOf s.db.distributedLock r with
  | none => exact .inl ⟨by simp,rfl⟩
  | some i =>
    by_cases hlt : i.expireAtAsLong < DateTime.toEpochDate s.now
    · exact .inl ⟨by simpa using hlt,by simp [hlt]⟩
    · exact .inr ⟨by simpa using hlt,by simp [hlt]⟩

end Steps

/-- In every run in which no clean-up deletes lock rows, an attempt to acquire a resource is
granted exactly if no lease on it still runs, in whole milliseconds, and refused exactly
if the last one does: what was released or has run out keeps nobody waiting. -/
theorem lock_granted_iff (ser : SerializationHelper) (T now : ℤ) (as : List Action)
    (hdel : ∀ rows, .deleted .distributedLock rows ∉ trace (step ser T) (initial now) as)
    (o : RowOrder DistributedLockRow) (r : String) (timeout : ℤ)
    (hr : DateTime.InRange ((exec (step ser T) (initial now) as).now + timeout)) :
    let s := exec (step ser T) (initial now) as
    let es := trace (step ser T) (initial now) as
    ((step ser T s (.acquireLock o r timeout)).2 = .acquired s.locks.length r timeout s.now ↔
      ∀ t, Leased r es t → DateTime.toEpochDate t < DateTime.toEpochDate s.now) ∧
    (step ser T s (.acquireLock o r timeout) = (s,.silent) ↔
      ∃ t, Leased r es t ∧ DateTime.toEpochDate s.now ≤ DateTime.toEpochDate t) := by
  intro s es
  have h : ShowsLeases s es := showsLeases_exec hdel
  simp only [← lease_eq_some]
  have hdecided := @acquireLock_event ser T s h.ok.unique o r timeout hr
  simp only [h.rows r,Option.mem_def,Option.map_eq_some_iff,forall_exists_index,and_imp,
    forall_apply_eq_imp_iff₂,exists_exists_and_eq_and] at hdecided
  have hone : ¬ ((∀ t, lease r es = some t →
      DateTime.toEpochDate t < DateTime.toEpochDate s.now) ∧
      ∃ t, lease r es = some t ∧ DateTime.toEpochDate s.now ≤ DateTime.toEpochDate t) := by
    rintro ⟨hall,t,ht,hle⟩
    exact absurd (hall t ht) (not_lt.mpr hle)
  have hevents : ¬ ((step ser T s (.acquireLock o r timeout)).2 =
      .acquired s.locks.length r timeout s.now ∧
      step ser T s (.acquireLock o r timeout) = (s,.silent)) := by
    rintro ⟨hacquired,hsilent⟩
    rw [hsilent] at hacquired
    cases hacquired
  obtain ⟨hover,hacquired⟩ | ⟨hruns,hsilent⟩ := hdecided
  · exact ⟨⟨fun _ => hover,fun _ => hacquired⟩,fun hs => absurd ⟨hacquired,hs⟩ hevents,
      fun hr => absurd ⟨hover,hr⟩ hone⟩
  · exact ⟨⟨fun ha => absurd ⟨ha,hsilent⟩ hevents,fun ho => absurd ⟨ho,hruns⟩ hone⟩,
      fun _ => hruns,fun _ => hsilent⟩

/-- The holder of a lock has vanished, and its lease has run out. -/
theorem lock_granted_iff_vanished :
    let s := exec (step Json.helper 0) (initial 0) [acquireJobs,.advance 10110000]
    let es := trace (step Json.helper 0) (initial 0) [acquireJobs,.advance 10110000]
    ((step Json.helper 0 s (.acquireLock .stored "jobs" 5)).2 =
        .acquired s.locks.length "jobs" 5 s.now ↔
      ∀ t, Leased "jobs" es t → DateTime.toEpochDate t < DateTime.toEpochDate s.now) ∧
    (step Json.helper 0 s (.acquireLock .stored "jobs" 5) = (s,.silent) ↔
      ∃ t, Leased "jobs" es t ∧ DateTime.toEpochDate s.now ≤ DateTime.toEpochDate t) := by
  refine lock_granted_iff Json.helper 0 0 [acquireJobs,.advance 10110000] (fun rows hrows => ?_)
    .stored "jobs" 5 (by decide)
  have htrace : trace (step Json.helper 0) (initial 0) [acquireJobs,.advance 10110000] =
      [.acquired 0 "jobs" 100000 0,.advanced 10110000] := by decide
  rw [htrace] at hrows
  simp at hrows

end StorageSystem
end HangfireStorage
