import HangfireStorage.LockExclusion
import HangfireStorage.ProcessRuns
import Mathlib.Data.Fintype.Basic

/-!
# Using blocks of distributed locks

Two processes are not in using blocks of one resource at a time, unless one of them has been there
for longer than its lease.
-/

namespace HangfireStorage
namespace StorageSystem

open DistributedLock Lease Machine

def Action.releases : Action → Option ℕ
  | .releaseLock i _ => some i
  | _ => none

section Leases

variable {s s' : StorageState} {a : Action} {e : Event} {h : Option ℕ} {n : ℕ} {l : Lock}
  {r : String} {t : ℤ} {f : DistributedLockRow → Bool}

theorem lockEvent_eq_release (he : lockEvent e = some (.release h r)) :
    ∃ i, h = some i ∧ e = .released i r true := by
  cases e with
  | released i r' b =>
    cases b
    · cases he
    · cases he
      exact ⟨i,rfl,rfl⟩
  | advanced | acquired => cases he
  | _ => cases he

/-- Only its own release ends a lease that runs. -/
theorem guarded_effect (hok : LocksOk s) (hC : OwnRelease s a) (he : LockEffect s a s' e)
    (hn : a.releases ≠ some n) (hg : Guarded (some n) r t (lockLedger s)) :
    Guarded (some n) r t (lockLedger s') := by
  have hst := lockLedger_step hok hC he
  cases hv : lockEvent e with
  | none =>
    rw [hv,stutter_none] at hst
    rw [hst]
    exact hg
  | some ev =>
    rw [hv,stutter_some] at hst
    refine hst.guarded hg fun hev => ?_
    subst hev
    obtain ⟨i,hi,hrel⟩ := lockEvent_eq_release hv
    cases hi
    cases he with
    | released ha =>
      subst ha
      exact hn (congrArg some (Event.released.inj hrel).1)
    | again =>
      have hfalse := (Event.released.inj hrel).2.2
      cases hfalse
    | idle _ _ _ hab =>
      rw [hrel] at hab
      exact hab trivial
    | advanced | inserted | reused => cases hrel

theorem lockOf_deleteRows (hu : UniqueResources s.db.distributedLock) (f : DistributedLockRow → Bool)
    (r : String) : lockOf (s.db.distributedLock.delete f) r =
      (lockOf s.db.distributedLock r).filter fun i => !f i := by
  have hu' : UniqueResources (s.db.distributedLock.delete f) := hu.filter _
  apply Option.ext
  intro a
  rw [lockOf_eq_some hu',Option.filter_eq_some_iff,lockOf_eq_some hu,Table.rows_delete,List.mem_filter]
  tauto

theorem guarded_deleted (hu : UniqueResources s.db.distributedLock)
    (hq : s'.db.distributedLock = s.db.distributedLock.delete f) (hl : s'.locks = s.locks)
    (hn : s'.now = s.now) (hexp : ∀ i ∈ s.db.distributedLock.rows, f i = true →
      i.expireAtAsLong < DateTime.toEpochDate s.now) (hg : Guarded h r t (lockLedger s)) :
    Guarded h r t (lockLedger s') := by
  have hslot : (lockLedger s').slot r = (lockLedger s).slot r ∨
      ∃ i ∈ s.db.distributedLock.rows, f i = true ∧
        (lockLedger s).slot r = .held (lastIndexOf r (lockResources s)) i.expireAtAsLong := by
    simp only [lockLedger,lockSlot,lockResources,hq,hl,lockOf_deleteRows hu]
    cases hrow : lockOf s.db.distributedLock r with
    | none => exact .inl rfl
    | some i =>
      cases hf : f i with
      | false => exact .inl (by simp [Option.filter,hf])
      | true => exact .inr ⟨i,((lockOf_eq_some hu).mp hrow).1,hf,rfl⟩
  have hnow : (lockLedger s').now = (lockLedger s).now := by simp [lockLedger,hn]
  unfold Guarded at hg ⊢
  rw [hnow]
  obtain hsame | ⟨i,hi,hf,hheld⟩ := hslot
  · rwa [hsame]
  · rw [hheld] at hg
    obtain hg | hg | hg := hg
    · cases hg
      exact .inr (.inr (hexp i hi hf))
    · cases hg
    · exact .inr (.inr hg)

theorem locksOk_deleted (hok : LocksOk s) (hq : s'.db.distributedLock = s.db.distributedLock.delete f)
    (hl : s'.locks = s.locks) : LocksOk s' := by
  have hrows : ∀ r ∈ s'.db.distributedLock.rows, r ∈ s.db.distributedLock.rows := by
    rw [hq]
    exact fun r hr => List.mem_of_mem_filter hr
  refine ⟨?_,fun r hr j l hj hl' => ?_,fun l hl' id hid => ?_,fun l hl' id hid r hr => ?_⟩
  · rw [hq]
    exact hok.unique.filter _
  · rw [lockResources,hl] at hj
    exact hok.owner r (hrows r hr) j l hj (hl ▸ hl')
  · rw [hq]
    exact hok.known l (hl ▸ hl') id hid
  · exact hok.resource l (hl ▸ hl') id hid r (hrows r hr)

theorem slot_ne_retired (s : StorageState) (r : String) : (lockLedger s).slot r ≠ .retired := by
  intro hslot
  simp only [lockLedger,lockSlot] at hslot
  split at hslot <;> cases hslot

/-- A release before the lease is over is the holder's own. -/
theorem ownRelease_of_guarded (hok : LocksOk s) (hl : s.locks[n]? = some l)
    (hg : Guarded (some n) l.resource t (lockLedger s)) (ht : DateTime.toEpochDate s.now ≤ t) :
    OwnRelease s (.releaseLock n false) := by
  intro l' hl' id hid
  cases hl.symm.trans hl'
  left
  intro l'' hl'' hid''
  have hslot : lockSlot s.db.distributedLock (lockResources s) l.resource = .held (some n) t := by
    obtain hg | hg | hg := hg
    · exact hg
    · exact absurd hg (slot_ne_retired s _)
    · exact absurd hg (not_lt.mpr ht)
  unfold lockSlot at hslot
  split at hslot
  · rename_i row hrow
    obtain ⟨hmem,hres⟩ := (lockOf_eq_some hok.unique).mp hrow
    have hlast : lastIndexOf row.resource (lockResources s) = some n := by
      rw [hres]
      exact (Slot.held.inj hslot).1
    have hown := hok.owner row hmem n l hlast hl
    obtain rfl : id = row.id := Option.some.inj (hid.symm.trans hown)
    obtain ⟨m,hm⟩ := List.mem_iff_getElem?.mp hl''
    rw [List.getElem?_drop] at hm
    have hres'' : (lockResources s)[n+1+m]? = some row.resource := by
      rw [hok.resource l'' (List.mem_of_getElem? hm) row.id hid'' row hmem rfl]
      simp [lockResources,hm]
    obtain ⟨j,hj,hle⟩ := lastIndexOf_of_getElem? hres''
    obtain rfl : n = j := Option.some.inj (hlast.symm.trans hj)
    omega
  · cases hslot

theorem guarded_of_acquired {x y : Ledger String (Option ℕ) ℤ} {u : ℤ}
    (hst : Lease.Step x (.acquire h r u t) y) : Guarded h r t y := by
  cases hst with
  | acquire => exact .inl (by simp)

/-- What a step does to the locks, and which lock object it releases. -/
inductive LockChange (s s' : StorageState) (o : Option ℕ) : Prop
  | action {a : Action} {e : Event} (he : LockEffect s a s' e) (hC : OwnRelease s a) (ho : a.releases = o)
  | deleted {f : DistributedLockRow → Bool} (hq : s'.db.distributedLock = s.db.distributedLock.delete f)
      (hl : s'.locks = s.locks) (hn : s'.now = s.now) (hexp : ∀ i ∈ s.db.distributedLock.rows,
        f i = true → i.expireAtAsLong < DateTime.toEpochDate s.now) (ho : o = none)

variable {o : Option ℕ}

theorem LockChange.of_table (hq : s'.db.distributedLock = s.db.distributedLock) (hl : s'.locks = s.locks)
    (hn : s'.now = s.now) : LockChange s s' none :=
  .action (a := .crash 0) (e := .silent) (.idle hq hn hl id) trivial rfl

theorem LockChange.locksOk (hc : LockChange s s' o) (hok : LocksOk s) : LocksOk s' := by
  cases hc with
  | action he _ _ => exact locksOk_step hok he
  | deleted hq hl _ _ _ => exact locksOk_deleted hok hq hl

theorem LockChange.guarded (hc : LockChange s s' o) (hok : LocksOk s) (ho : o ≠ some n)
    (hg : Guarded (some n) r t (lockLedger s)) : Guarded (some n) r t (lockLedger s') := by
  cases hc with
  | action he hC hrel => exact guarded_effect hok hC he (hrel ▸ ho) hg
  | deleted hq hl hn hexp _ => exact guarded_deleted hok.unique hq hl hn hexp hg

theorem LockChange.locks (hc : LockChange s s' o) (ho : o ≠ some n) (hn : n < s.locks.length) :
    s'.locks[n]? = s.locks[n]? := by
  cases hc with
  | action he _ hrel =>
    cases he with
    | idle _ _ hl _ | advanced _ _ hl | again _ _ hl => rw [hl]
    | inserted _ _ _ hl | reused _ _ _ _ hl => rw [hl,List.getElem?_append_left hn]
    | released ha _ _ _ _ hl =>
      subst ha
      rw [hl,List.getElem?_set_ne fun hi => ho (hrel ▸ congrArg some hi)]
  | deleted _ hl _ _ _ => rw [hl]

theorem granted_effect {q : RowOrder DistributedLockRow} {timeout id : ℤ} {db : Db}
    (ha : tryAcquireWithEntity q r timeout s.now s.db = .ok (some id,db)) :
    LockEffect s (.acquireLock q r timeout) { s with db := db, locks := s.locks ++ [⟨r,timeout,some id⟩] }
      (.acquired s.locks.length r timeout s.now) := by
  obtain ⟨hnone,-⟩ | ⟨hid,hno,rfl⟩ | ⟨i,hi,rfl,hlt,hid,rfl⟩ := tryAcquireWithEntity_eq_ok ha
  · cases hnone
  · cases hid
    exact .inserted hno rfl rfl rfl
  · cases hid
    exact .reused hi hlt rfl rfl rfl

end Leases

end StorageSystem

namespace Processes

open DistributedLock ExpirationManager JobQueue Lease LockScope Machine StorageSystem

def Held.expiry (x : Held) : ℤ := DateTime.toEpochDate (x.since+x.lock.timeout)

/-- A process that leaves its using block does so before its lease is over, or finds the row its own
still; and it deletes no lock row of a lease that runs. -/
def Timely (s : StorageState) (p : Process) : Prop :=
  (p.inside.isNone = true → ∀ x ∈ p.held, DateTime.toEpochDate s.now ≤ x.expiry ∨
      OwnRelease s (.releaseLock x.number false)) ∧
    ∀ w ∈ p.sweep, w.2.kind = .distributedLock → ∀ r ∈ s.db.distributedLock.rows,
      r.id ∈ w.2.pending.headD [] → r.expireAtAsLong < DateTime.toEpochDate s.now

instance (s : StorageState) (p : Process) : Decidable (Timely s p) := by
  unfold Timely
  infer_instance

/-- What keeps two using blocks apart. -/
structure SectionsOk (s : StorageState) (p : Process) : Prop where
  ok : LocksOk s
  holds : HoldsOk s p
  booked : ∀ x ∈ p.inside, s.locks[x.number]? = some x.lock
  guarded : ∀ x ∈ p.held, s.locks[x.number]? = some x.lock →
    Guarded (some x.number) x.lock.resource x.expiry (lockLedger s)

section Sections

variable {s s' : StorageState} {p p' q : Process} {T : ℤ} {o : Option ℕ}

theorem Process.held_of_inside {x : Held} (hx : x ∈ p.inside) : x ∈ p.held := by
  cases p with
  | idle | aggregator => cases hx
  | dequeue c =>
    simp only [Process.inside] at hx
    split at hx
    · rename_i hpos
      simpa [Process.held,hpos,Dequeue.Position.lock] using hx
    · cases hx
  | cleanUp c =>
    simp only [Process.inside] at hx
    split at hx
    · rename_i hpos
      simpa [Process.held,hpos,ExpirationExecute.Position.lock] using hx
    · cases hx

theorem SectionsOk.keep (h : SectionsOk s q) (hc : LockChange s s' o) (hq : HoldsOk s' q)
    (ho : ∀ x ∈ q.held, o ≠ some x.number) : SectionsOk s' q where
  ok := hc.locksOk h.ok
  holds := hq
  booked x hx := by
    have hheld := Process.held_of_inside hx
    rw [hc.locks (ho x hheld) (h.holds.lock x hheld).lt]
    exact h.booked x hx
  guarded x hx hl := by
    rw [hc.locks (ho x hx) (h.holds.lock x hx).lt] at hl
    exact hc.guarded h.ok (ho x hx) (h.guarded x hx hl)

theorem ProcessEffect.change (he : ProcessEffect T s p s' p') (h : SectionsOk s p) (ht : Timely s p) :
    ∃ o, LockChange s s' o ∧ ∀ n, o = some n → p'.inside = none ∧ ∃ x ∈ p.held, x.number = n ∧
      s'.locks[n]? = some { x.lock with lockId := none } := by
  cases he with
  | quiet => exact ⟨none,.of_table rfl rfl rfl,fun n hn => by cases hn⟩
  | aggregated hp =>
    obtain ⟨items,t,-,-,rfl⟩ := CountersAggregator.pass_eq_ok hp
    exact ⟨none,.of_table rfl rfl rfl,fun n hn => by cases hn⟩
  | granted ha => exact ⟨none,.action (granted_effect ha) trivial rfl,fun n hn => by cases hn⟩
  | @released x id _ hx hid hleaving hinside =>
    obtain ⟨id',hid',-,hl | ⟨hl,hgone⟩⟩ := h.holds.lock x hx
    · have hin : p.inside.isNone = true := by rw [hleaving]; rfl
      have hown : OwnRelease s (.releaseLock x.number false) :=
        (ht.1 hin x hx).elim (ownRelease_of_guarded h.ok hl (h.guarded x hx hl)) fun hown => hown
      refine ⟨some x.number,.action (.released rfl hl hid rfl rfl rfl) hown rfl,fun n hn => ?_⟩
      cases hn
      exact ⟨hinside,x,hx,rfl,List.getElem?_set_self (List.getElem?_eq_some_iff.mp hl).1⟩
    · obtain rfl : id = id' := Option.some.inj (hid.symm.trans hid')
      rw [released_again hl hgone]
      exact ⟨none,.of_table rfl rfl rfl,fun n hn => by cases hn⟩
  | fetched hf =>
    obtain ⟨c,-,⟨hnone,-⟩ | ⟨i,-,j,-,-,rfl⟩⟩ := fetch_eq_ok hf
    · cases hnone
    · exact ⟨none,.of_table rfl rfl rfl,fun n hn => by cases hn⟩
  | selected | deleteFailed => exact ⟨none,.of_table rfl rfl rfl,fun n hn => by cases hn⟩
  | @deleted number m w batch rest db _ hw hp hd =>
    obtain ⟨rfl,-,-⟩ := deleteStatement_eq_ok hd
    refine ⟨none,?_,fun n hn => by cases hn⟩
    cases hk : w.kind with
    | distributedLock =>
      refine .deleted (f := fun r => batch.contains r.id) rfl rfl rfl (fun r hr hb => ?_) rfl
      refine ht.2 (number,w) hw hk r hr ?_
      simpa [hp] using hb
    | _ => exact .of_table rfl rfl rfl

theorem ProcessEffect.sections (he : ProcessEffect T s p s' p') (h : SectionsOk s p)
    (ht : Timely s p) : SectionsOk s' p' := by
  obtain ⟨o,hc,ho⟩ := he.change h ht
  have hholds := he.holds h.holds
  have hkeep (hheld : ∀ x ∈ p'.held, x ∈ p.held) (hinside : ∀ x ∈ p'.inside, x ∈ p.inside) :
      SectionsOk s' p' := by
    refine ⟨hc.locksOk h.ok,hholds,fun x hx => ?_,fun x hx hl => ?_⟩
    · have hx' := Process.held_of_inside (hinside x hx)
      have hne : o ≠ some x.number := by
        intro hn
        rw [(ho _ hn).1] at hx
        cases hx
      rw [hc.locks hne (h.holds.lock x hx').lt]
      exact h.booked x (hinside x hx)
    · have hx' := hheld x hx
      have hne : o ≠ some x.number := by
        intro hn
        obtain ⟨-,y,hy,-,hset⟩ := ho _ hn
        obtain rfl := Option.mem_unique hx' hy
        obtain ⟨id,hid,-⟩ := h.holds.lock x hx'
        rw [Option.some.inj (hl.symm.trans hset)] at hid
        cases hid
      rw [hc.locks hne (h.holds.lock x hx').lt] at hl
      exact hc.guarded h.ok hne (h.guarded x hx' hl)
  cases he with
  | quiet hw | aggregated _ hw | released _ _ _ _ hw | deleteFailed _ _ _ _ hw =>
    exact hkeep hw.held hw.inside
  | granted ha hheld hinside =>
    refine ⟨hc.locksOk h.ok,hholds,fun x hx => ?_,fun x hx _ => ?_⟩
    · rw [hinside x hx]
      simp
    · have hst := lockLedger_step h.ok (by trivial) (granted_effect ha)
      rw [hheld x hx]
      exact guarded_of_acquired hst
  | fetched _ hheld hinside => exact hkeep hheld (by simp [hinside])
  | selected hheld hinside | deleted _ _ _ hheld hinside => exact hkeep hheld hinside

/-- Two processes that are in using blocks of one resource cannot both have a lease that runs. -/
theorem SectionsOk.exclusive (hp : SectionsOk s p) (hq : SectionsOk s q) (hpq : Apart p q) {x y : Held}
    (hx : x ∈ p.inside) (hy : y ∈ q.inside) (hr : x.lock.resource = y.lock.resource) :
    x.since+x.lock.timeout < s.now ∨ y.since+y.lock.timeout < s.now := by
  have hx' := Process.held_of_inside hx
  have hy' := Process.held_of_inside hy
  obtain hgx | hgx | hgx := hp.guarded x hx' (hp.booked x hx)
  · obtain hgy | hgy | hgy := hq.guarded y hy' (hq.booked y hy)
    · rw [hr,hgy] at hgx
      exact absurd (Option.some.inj (Slot.held.inj hgx).1).symm (hpq.lock x hx' y hy')
    · exact absurd hgy (slot_ne_retired s _)
    · exact .inr (DateTime.lt_of_toEpochDate_lt hgy)
  · exact absurd hgx (slot_ne_retired s _)
  · exact .inl (DateTime.lt_of_toEpochDate_lt hgx)

end Sections

section Pools

variable {ι : Type} [DecidableEq ι] {options : Dequeue.Options} {ser : SerializationHelper}
  {p : Pool ι Process StorageState}

/-- Clients do not clean up and leave the lock objects of the processes alone, nobody releases a
lease that is another's by now, and no delete statement hits a lease that runs. -/
def Orderly (p : Pool ι Process StorageState) : PoolAction ι Input Action → Prop
  | .client a => a.isCleanup = false ∧ OwnRelease p.shared a ∧
      ∀ i, ∀ x ∈ (p.own i).held, a.releases ≠ some x.number
  | .process i _ => Timely p.shared (p.own i)

instance [Fintype ι] (p : Pool ι Process StorageState) (a : PoolAction ι Input Action) :
    Decidable (Orderly p a) := by
  unfold Orderly
  split <;> infer_instance

theorem sections_step (h : Peaceful SectionsOk Apart p) {a : PoolAction ι Input Action}
    (ha : Orderly p a) : Peaceful SectionsOk Apart
      (poolStep (step ser options.invisibilityTimeout) (processStep options) p a).1 := by
  cases a with
  | client a =>
    obtain ⟨hclean,hown,hfree⟩ := ha
    refine h.client fun i hi => ?_
    have he := step_lockEffect (T := options.invisibilityTimeout) (s := p.shared) ser a hclean
    refine hi.keep (.action he hown rfl) (hi.holds.keep (keeps_step _ _ _ a) fun x _ hn => ?_) (hfree i)
    rw [hn] at hclean
    cases hclean
  | process i k =>
    have he := process_effect options k p.shared (p.own i)
    have hi := h.own i
    obtain ⟨o,hc,ho⟩ := he.change hi ha
    refine h.process (fun _ _ => Apart.symm) (he.sections hi ha) fun y hy hiy =>
      ⟨hy.keep hc (he.others hi.holds hy.holds hiy) fun x hx hn => ?_,he.apart hy.holds hiy⟩
    obtain ⟨-,z,hz,hnumber,-⟩ := ho _ hn
    exact hiy.lock z hz x hx hnumber

end Pools

/-- Mutual exclusion of Dequeue calls and of the actions of expiration managers in every orderly
interleaving: where two of them are in a using block of one resource, one has been there for longer
than its lease. -/
theorem sections_exclusive {ι : Type} [DecidableEq ι] (ser : SerializationHelper)
    (options : Dequeue.Options) {p : Pool ι Process StorageState} (hidle : ∀ i, p.own i = .idle)
    (hlocks : p.shared.locks = []) (hu : UniqueResources p.shared.db.distributedLock)
    {as : List (PoolAction ι Input Action)}
    (hC : Along (poolStep (step ser options.invisibilityTimeout) (processStep options)) Orderly p as) :
    let q := exec (poolStep (step ser options.invisibilityTimeout) (processStep options)) p as
    ∀ i j, i ≠ j → ∀ x ∈ (q.own i).inside, ∀ y ∈ (q.own j).inside,
      x.lock.resource = y.lock.resource →
      x.since+x.lock.timeout < q.shared.now ∨ y.since+y.lock.timeout < q.shared.now := by
  intro q i j hij x hx y hy hr
  have hok : LocksOk p.shared := by
    refine ⟨hu,fun r _ j l _ hl => ?_,by simp [hlocks],by simp [hlocks]⟩
    simp [hlocks] at hl
  have h₀ : Peaceful SectionsOk Apart p := by
    refine ⟨fun i => ?_,fun i j _ => ?_⟩
    · rw [hidle]
      exact ⟨hok,⟨nofun,nofun,nofun⟩,nofun,nofun⟩
    · rw [hidle]
      exact ⟨nofun,nofun,nofun⟩
  have hq : Peaceful SectionsOk Apart q :=
    exec_invariant (I := Peaceful SectionsOk Apart) (fun p a h ha => sections_step h ha) hC h₀
  exact (hq.own i).exclusive (hq.own j) (hq.apart i j hij) hx hy hr

/-- Two workers, one of which has waited under its lock for too long. -/
def overdue : List (PoolAction Bool Input Action) :=
  [worker (.dequeue ["default"]),worker attempt,worker attempt,.client (.advance 700000000),
    .process false (.dequeue ["default"]),.process false attempt,.process false attempt]

theorem sections_exclusive_overdue :
    let q := exec (poolStep (step Json.helper Dequeue.defaults.invisibilityTimeout)
      (processStep Dequeue.defaults)) servers overdue
    ∃ x ∈ (q.own true).inside, ∃ y ∈ (q.own false).inside, x.lock.resource = y.lock.resource ∧
      (x.since+x.lock.timeout < q.shared.now ∨ y.since+y.lock.timeout < q.shared.now) :=
  ⟨⟨0,90000000000,"JobQueue",600000000,some 1⟩,rfl,⟨1,90700000000,"JobQueue",600000000,some 1⟩,rfl,rfl,
    sections_exclusive Json.helper Dequeue.defaults (p := servers) (fun _ => rfl) rfl
      (by decide) (by decide) true false (by decide) _ rfl _ rfl rfl⟩

end Processes
end HangfireStorage
