import HangfireStorage.Deliveries
import HangfireStorage.Pools
import HangfireStorage.ProcessEffects

/-!
# Runs of processes

The books know what every process holds, and no two processes hold the same. So a step of a
process is a step of the storage system, or none.
-/

namespace HangfireStorage
namespace Processes

open DistributedLock ExpirationManager JobQueue LockScope Machine StorageSystem

/-- What a step leaves of the books. A row that is gone does not come back. -/
structure Keeps (s : StorageState) (a : Action) (s' : StorageState) : Prop where
  nextId : s.db.distributedLock.nextId ≤ s'.db.distributedLock.nextId
  gone : ∀ id < s.db.distributedLock.nextId, (∀ r ∈ s.db.distributedLock.rows, r.id ≠ id) →
    ∀ r ∈ s'.db.distributedLock.rows, r.id ≠ id
  locks : ∀ (n : ℕ) (l : Lock), s.locks[n]? = some l → s'.locks[n]? = some l ∨
    s'.locks[n]? = some { l with lockId := none } ∧
      ∀ id ∈ l.lockId, ∀ r ∈ s'.db.distributedLock.rows, r.id ≠ id
  sweeps : ∀ (n : ℕ) (w : Sweep), a ≠ .deleteBatch n → s.sweeps[n]? = some w → s'.sweeps[n]? = some w
  handles : deliveries s <+: deliveries s'

section Books

variable {s s' : StorageState} {a : Action} {ser : SerializationHelper} {T : ℤ}

theorem getElem?_of_longer {α : Type*} {l l' : List α} (h : l <+: l') {n : ℕ} {x : α}
    (hn : l[n]? = some x) : l'[n]? = some x := by
  obtain ⟨t,rfl⟩ := h
  obtain ⟨hlt,-⟩ := List.getElem?_eq_some_iff.mp hn
  rw [List.getElem?_append_left hlt,hn]

/-- No lock object changes, and lock rows come with new ids if at all. -/
theorem Keeps.of_rows (hn : s.db.distributedLock.nextId ≤ s'.db.distributedLock.nextId)
    (hr : ∀ r ∈ s'.db.distributedLock.rows, s.db.distributedLock.nextId ≤ r.id ∨
      ∃ r₀ ∈ s.db.distributedLock.rows, r₀.id = r.id)
    (hl : s.locks <+: s'.locks)
    (hsweeps : ∀ (n : ℕ) (w : Sweep), a ≠ .deleteBatch n → s.sweeps[n]? = some w → s'.sweeps[n]? = some w)
    (hhandles : deliveries s <+: deliveries s') : Keeps s a s' where
  nextId := hn
  gone id hid hgone r hmem := by
    obtain hnew | ⟨r₀,hr₀,hsame⟩ := hr r hmem
    · exact (hid.trans_le hnew).ne'
    · exact hsame ▸ hgone r₀ hr₀
  locks n l hl' := .inl (getElem?_of_longer hl hl')
  sweeps := hsweeps
  handles := hhandles

theorem Keeps.of_table (hq : s'.db.distributedLock = s.db.distributedLock) (hl : s'.locks = s.locks)
    (hsweeps : ∀ (n : ℕ) (w : Sweep), a ≠ .deleteBatch n → s.sweeps[n]? = some w → s'.sweeps[n]? = some w)
    (hhandles : deliveries s <+: deliveries s') : Keeps s a s' :=
  .of_rows (by rw [hq]) (fun r hr => .inr ⟨r,hq ▸ hr,rfl⟩) (hl ▸ List.prefix_rfl) hsweeps hhandles

theorem keeps_step (ser : SerializationHelper) (T : ℤ) (s : StorageState) (a : Action) :
    Keeps s a (step ser T s a).1 := by
  have h : StepEffect ser T s a _ _ := step_effect a
  generalize (step ser T s a).1 = s', (step ser T s a).2 = e at h ⊢
  have hset {i : ℕ} {h h' : Handle} (hi : s.handles[i]? = some h) (hj : h'.job = h.job) :
      deliveries s <+: (s.handles.set i h').map Handle.job :=
    (deliveries_set hi hj).symm ▸ List.prefix_rfl
  have hsweep {i : ℕ} {w : Sweep} (n : ℕ) (w' : Sweep) (hn : Action.deleteBatch i ≠ .deleteBatch n)
      (h : s.sweeps[n]? = some w') : (s.sweeps.set i w)[n]? = some w' := by
    rwa [List.getElem?_set_ne fun hi => hn (congrArg _ hi)]
  cases h with
  | committed h =>
    exact .of_table (WriteOnlyTransaction.commit_untouched h).2 rfl (fun _ _ _ h => h) List.prefix_rfl
  | fetched =>
    exact .of_table rfl rfl (fun _ _ _ h => h) (by simp [deliveries])
  | removed hc hi => exact .of_table rfl rfl (fun _ _ _ h => h) (hset hi rfl)
  | requeued hc hi => exact .of_table rfl rfl (fun _ _ _ h => h) (hset hi rfl)
  | disposeRequeued hc hi => exact .of_table rfl rfl (fun _ _ _ h => h) (hset hi rfl)
  | disposed hi => exact .of_table rfl rfl (fun _ _ _ h => h) (hset hi rfl)
  | inserted =>
    refine .of_rows (Int.lt_succ _).le (fun r hr => ?_) (List.prefix_append _ _) (fun _ _ _ h => h)
      List.prefix_rfl
    obtain hr | hr := List.mem_append.mp hr
    · exact .inr ⟨r,hr,rfl⟩
    · rw [List.mem_singleton.mp hr]
      exact .inl le_rfl
  | @reused _ _ i hi =>
    refine .of_rows le_rfl (fun r hr => ?_) (List.prefix_append _ _) (fun _ _ _ h => h)
      List.prefix_rfl
    obtain ⟨r₀,hr₀,rfl⟩ := List.mem_map.mp hr
    refine .inr ⟨r₀,hr₀,?_⟩
    split_ifs with hid
    · exact hid
    · rfl
  | @released i l id t hi hid ht =>
    subst ht
    have hrows : ∀ r ∈ (s.db.distributedLock.delete fun r => r.id = id).rows,
        r ∈ s.db.distributedLock.rows ∧ r.id ≠ id := by simp
    refine ⟨le_rfl,fun id' _ hgone r hr => hgone r (hrows r hr).1,fun n l' hl => ?_,
      fun _ _ _ h => h,List.prefix_rfl⟩
    obtain rfl | hne := eq_or_ne i n
    · cases hi.symm.trans hl
      refine .inr ⟨List.getElem?_set_self (List.getElem?_eq_some_iff.mp hi).1,?_⟩
      rw [hid]
      rintro id' ⟨rfl⟩ r hr
      exact (hrows r hr).2
    · exact .inl (by rwa [List.getElem?_set_ne hne])
  | aggregated h =>
    obtain ⟨items,t,-,-,rfl⟩ := CountersAggregator.pass_eq_ok h
    exact .of_table rfl rfl (fun _ _ _ h => h) List.prefix_rfl
  | selected =>
    exact .of_table rfl rfl (fun _ _ _ h => getElem?_of_longer (List.prefix_append _ _) h)
      List.prefix_rfl
  | @deleted i w batch rest hi hp hr =>
    refine .of_rows ?_ (fun r hr => .inr ⟨r,?_,rfl⟩) List.prefix_rfl hsweep List.prefix_rfl
    · cases w.kind <;> exact le_rfl
    · cases hk : w.kind <;> simp only [hk,deleteRows] at hr <;>
        first | exact hr | exact List.mem_of_mem_filter hr
  | deleteFailed => exact .of_table rfl rfl hsweep List.prefix_rfl
  | idle | failed | advanced | created | crashed | releasedAgain | deletedNothing =>
    exact .of_table rfl rfl (fun _ _ _ h => h) List.prefix_rfl

end Books

/-- The object is on the books, or its row has been deleted and will not come back. -/
def HeldOk (s : StorageState) (x : Held) : Prop :=
  ∃ id, x.lock.lockId = some id ∧ id < s.db.distributedLock.nextId ∧
    (s.locks[x.number]? = some x.lock ∨ s.locks[x.number]? = some { x.lock with lockId := none } ∧
      ∀ r ∈ s.db.distributedLock.rows, r.id ≠ id)

structure HoldsOk (s : StorageState) (p : Process) : Prop where
  lock : ∀ x ∈ p.held, HeldOk s x
  sweep : ∀ x ∈ p.sweep, s.sweeps[x.1]? = some x.2
  handle : ∀ x ∈ p.handle, (deliveries s)[x.1]? = some x.2

structure Apart (p q : Process) : Prop where
  lock : ∀ x ∈ p.held, ∀ y ∈ q.held, x.number ≠ y.number
  sweep : ∀ x ∈ p.sweep, ∀ y ∈ q.sweep, x.1 ≠ y.1
  handle : ∀ x ∈ p.handle, ∀ y ∈ q.handle, x.1 ≠ y.1

section Holdings

variable {s s' : StorageState} {a : Action} {x : Held} {p p' q : Process} {T : ℤ}

theorem Apart.symm (h : Apart p q) : Apart q p :=
  ⟨fun x hx y hy => (h.lock y hy x hx).symm,fun x hx y hy => (h.sweep y hy x hx).symm,
    fun x hx y hy => (h.handle y hy x hx).symm⟩

theorem HeldOk.lt (h : HeldOk s x) : x.number < s.locks.length := by
  obtain ⟨id,-,-,hl | ⟨hl,-⟩⟩ := h <;> exact (List.getElem?_eq_some_iff.mp hl).1

theorem HeldOk.keep (h : HeldOk s x) (hk : Keeps s a s') : HeldOk s' x := by
  obtain ⟨id,hid,hlt,hl | ⟨hl,hgone⟩⟩ := h
  · refine ⟨id,hid,hlt.trans_le hk.nextId,(hk.locks _ _ hl).imp_right fun h => ⟨h.1,h.2 id hid⟩⟩
  · refine ⟨id,hid,hlt.trans_le hk.nextId,.inr ⟨?_,hk.gone id hlt hgone⟩⟩
    exact (hk.locks _ _ hl).elim (fun h => h) And.left

/-- Only a step of a process with the same clean-up step takes that away from it. -/
theorem HoldsOk.keep (h : HoldsOk s p) (hk : Keeps s a s')
    (ha : ∀ x ∈ p.sweep, a ≠ .deleteBatch x.1) : HoldsOk s' p where
  lock x hx := (h.lock x hx).keep hk
  sweep x hx := hk.sweeps _ _ (ha x hx) (h.sweep x hx)
  handle x hx := getElem?_of_longer hk.handles (h.handle x hx)

/-- To delete a row that has gone, for an object that is released on the books, changes nothing. -/
theorem released_again {id : ℤ} {n : ℕ} {l : Lock} (hl : s.locks[n]? = some l)
    (hgone : ∀ r ∈ s.db.distributedLock.rows, r.id ≠ id) :
    { s with
      db := { s.db with distributedLock := s.db.distributedLock.delete fun r => r.id = id }
      locks := s.locks.set n l } = s := by
  have hrows : (s.db.distributedLock.delete fun r => r.id = id) = s.db.distributedLock :=
    Table.delete_of_forall fun r hr => by simpa using hgone r hr
  have hlocks : s.locks.set n l = s.locks := by
    obtain ⟨hlt,rfl⟩ := List.getElem?_eq_some_iff.mp hl
    rw [List.set_getElem_self]
  rw [hrows,hlocks]

/-- A step of a process is a step of the storage system, or none. -/
theorem ProcessEffect.action (ser : SerializationHelper) (he : ProcessEffect T s p s' p')
    (h : HoldsOk s p) : s' = s ∨ ∃ a, s' = (step ser T s a).1 ∧
      ∀ n, a = .deleteBatch n → ∃ w, (n,w) ∈ p.sweep := by
  have hother {a : Action} (ha : a.isCleanup = false) (n : ℕ) (hn : a = .deleteBatch n) :
      ∃ w, (n,w) ∈ p.sweep := by
    rw [hn] at ha
    cases ha
  cases he with
  | quiet => exact .inl rfl
  | @aggregated o db _ hp => exact .inr ⟨.aggregate o,by simp [step,hp,StorageState.withDb],hother rfl⟩
  | @granted o r timeout id db _ ha => exact .inr ⟨.acquireLock o r timeout,by simp [step,ha],hother rfl⟩
  | @released x id _ hx hid =>
    obtain ⟨id',hid',-,hl | ⟨hl,hgone⟩⟩ := h.lock x hx
    · exact .inr ⟨.releaseLock x.number false,
        by simp [step,StorageSystem.releaseLock,hl,Lock.release,hid],hother rfl⟩
    · obtain rfl : id = id' := Option.some.inj (hid.symm.trans hid')
      exact .inl (released_again hl hgone)
  | @fetched o queues token job db _ hf => exact .inr ⟨.dequeue o queues token,by simp [step,hf],hother rfl⟩
  | @selected k o size age => exact .inr ⟨.select k o size age,rfl,fun n hn => by cases hn⟩
  | @deleted number m w batch rest db _ hw hp hd =>
    refine .inr ⟨.deleteBatch number,?_,fun n hn => ⟨w,by cases hn; exact hw⟩⟩
    simp [step,StorageSystem.deleteBatch,h.sweep _ hw,Sweep.next,hp,hd,Except.map]
  | @deleteFailed number w batch rest f _ hw hp hd =>
    refine .inr ⟨.deleteBatch number,?_,fun n hn => ⟨w,by cases hn; exact hw⟩⟩
    simp [step,StorageSystem.deleteBatch,h.sweep _ hw,Sweep.next,hp,hd,Except.map]

/-- What a step of one process leaves to another one. -/
theorem ProcessEffect.others (he : ProcessEffect T s p s' p') (h : HoldsOk s p)
    (hq : HoldsOk s q) (hpq : Apart p q) : HoldsOk s' q := by
  obtain rfl | ⟨a,rfl,ha⟩ := he.action Json.helper h
  · exact hq
  · refine hq.keep (keeps_step _ _ s a) fun y hy hn => ?_
    obtain ⟨w,hw⟩ := ha _ hn
    exact hpq.sweep _ hw y hy rfl

theorem ProcessEffect.holds (he : ProcessEffect T s p s' p') (h : HoldsOk s p) : HoldsOk s' p' := by
  have hkeep : (∀ x ∈ p.held, HeldOk s' x) ∧ deliveries s <+: deliveries s' := by
    obtain rfl | ⟨a,rfl,-⟩ := he.action Json.helper h
    · exact ⟨h.lock,List.prefix_rfl⟩
    · have hk := keeps_step Json.helper T s a
      exact ⟨fun x hx => (h.lock x hx).keep hk,hk.handles⟩
  have hhandle : ∀ x ∈ p.handle, (deliveries s')[x.1]? = some x.2 :=
    fun x hx => getElem?_of_longer hkeep.2 (h.handle x hx)
  cases he with
  | quiet hw | aggregated _ hw | released _ _ _ _ hw =>
    exact ⟨fun x hx => hkeep.1 x (hw.held x hx),fun x hx => h.sweep x (hw.sweep x hx),
      fun x hx => hhandle x (hw.handle x hx)⟩
  | @granted o r timeout id db _ ha hheld hinside hh hs =>
    refine ⟨fun x hx => ?_,fun x hx => h.sweep x (hs x hx),fun x hx => hhandle x (hh x hx)⟩
    rw [hheld x hx]
    refine ⟨id,rfl,?_,.inl (by simp)⟩
    obtain ⟨hnone,-⟩ | ⟨hid,-,rfl⟩ | ⟨i,hi,-,-,hid,rfl⟩ := tryAcquireWithEntity_eq_ok ha
    · cases hnone
    · cases hid
      exact Int.lt_succ _
    · cases hid
      exact s.db.distributedLock.fresh i hi
  | @fetched o queues token job db _ hf hheld hinside hh hs =>
    refine ⟨fun x hx => hkeep.1 x (hheld x hx),by simp [hs],fun x hx => ?_⟩
    rw [hh] at hx
    obtain rfl : (s.handles.length,job) = x := Option.some.inj hx
    simp [deliveries,Handle.new]
  | selected hheld hinside hh hs =>
    refine ⟨fun x hx => hkeep.1 x (hheld x hx),fun x hx => ?_,by simp [hh]⟩
    rw [hs] at hx
    obtain rfl := Option.some.inj hx
    simp
  | @deleted number m w batch rest db _ hw hp hd hheld hinside hh hs =>
    refine ⟨fun x hx => hkeep.1 x (hheld x hx),fun x hx => ?_,by simp [hh]⟩
    rw [hs] at hx
    obtain rfl := Option.some.inj hx
    exact List.getElem?_set_self (List.getElem?_eq_some_iff.mp (h.sweep _ hw)).1
  | deleteFailed _ _ _ hs hw =>
    exact ⟨fun x hx => hkeep.1 x (hw.held x hx),by simp [hs],fun x hx => hhandle x (hw.handle x hx)⟩

theorem ProcessEffect.apart (he : ProcessEffect T s p s' p') (hq : HoldsOk s q)
    (hpq : Apart p q) : Apart p' q := by
  cases he with
  | quiet hw | aggregated _ hw | released _ _ _ _ hw | deleteFailed _ _ _ _ hw =>
    exact ⟨fun x hx => hpq.lock x (hw.held x hx),fun x hx => hpq.sweep x (hw.sweep x hx),
      fun x hx => hpq.handle x (hw.handle x hx)⟩
  | granted ha hheld hinside hh hs =>
    refine ⟨fun x hx y hy => ?_,fun x hx => hpq.sweep x (hs x hx),fun x hx => hpq.handle x (hh x hx)⟩
    rw [hheld x hx]
    exact (hq.lock y hy).lt.ne'
  | fetched hf hheld hinside hh hs =>
    refine ⟨fun x hx => hpq.lock x (hheld x hx),by simp [hs],fun x hx y hy => ?_⟩
    rw [hh] at hx
    obtain rfl := Option.some.inj hx
    have hlt := (List.getElem?_eq_some_iff.mp (hq.handle y hy)).1
    rw [deliveries,List.length_map] at hlt
    exact hlt.ne'
  | selected hheld hinside hh hs =>
    refine ⟨fun x hx => hpq.lock x (hheld x hx),fun x hx y hy => ?_,by simp [hh]⟩
    rw [hs] at hx
    obtain rfl := Option.some.inj hx
    exact (List.getElem?_eq_some_iff.mp (hq.sweep y hy)).1.ne'
  | deleted hw hp hd hheld hinside hh hs =>
    refine ⟨fun x hx => hpq.lock x (hheld x hx),fun x hx y hy => ?_,by simp [hh]⟩
    rw [hs] at hx
    obtain rfl := Option.some.inj hx
    exact hpq.sweep _ hw y hy

theorem ProcessEffect.delivers (he : ProcessEffect T s p s' p') (h : HoldsOk s p) :
    deliveries s <+: deliveries s' := by
  obtain rfl | ⟨a,rfl,-⟩ := he.action Json.helper h
  · exact List.prefix_rfl
  · exact (keeps_step Json.helper T s a).handles

theorem ProcessEffect.handle (he : ProcessEffect T s p s' p') :
    ∀ x ∈ p'.handle, x ∈ p.handle ∨ x.1 = (deliveries s).length := by
  intro x hx
  cases he with
  | quiet hw | aggregated _ hw | released _ _ _ _ hw | deleteFailed _ _ _ _ hw =>
    exact .inl (hw.handle x hx)
  | granted _ _ _ hh _ => exact .inl (hh x hx)
  | fetched _ _ _ hh _ =>
    rw [hh] at hx
    obtain rfl := Option.some.inj hx
    exact .inr (by simp [deliveries])
  | selected _ _ hh _ | deleted _ _ _ _ _ hh _ => simp [hh] at hx

end Holdings

section Returns

variable {options : Dequeue.Options} {s : StorageState} {p : Process} {k : Input}

theorem fetchedJob_of_step {queues : List String} {i : Dequeue.Circumstance} {c c' : Dequeue.CallState}
    {job : FetchedJob} (h : Dequeue.step options queues i c = (c',some (.ok job))) :
    c.fetchedJob = some job := by
  have hleave {e : Thrown} {c₁ : Dequeue.CallState} :
      Dequeue.leave e c₁ ≠ (c',some (.ok job)) := by
    intro hl
    obtain ⟨-,⟨-,hr,-⟩ | ⟨-,hr⟩⟩ := Dequeue.leave_spec hl <;> cases hr
  unfold Dequeue.step at h
  split at h
  · split at h <;> cases h
  · unfold Dequeue.acquireLock at h
    split at h
    · cases h
    · cases h
    · exact absurd h hleave
  · cases (Dequeue.fetchUnder_spec h).1
  · unfold Dequeue.disposeLock at h
    split at h
    · unfold Dequeue.afterUsing at h
      split at h
      · exact absurd h hleave
      · cases h
        assumption
      · cases h
    · cases h
    · exact absurd h hleave
  · split at h
    · cases h
    · split at h
      · rename_i hjob
        cases h
        exact hjob
      · cases h

theorem processStep_returned {handle : ℕ} {job : FetchedJob}
    (h : (processStep options k s p).2 = .returned handle job) :
    (handle,job) ∈ p.handle ∧ (processStep options k s p).1.2 = .idle := by
  unfold processStep at h ⊢
  split at h
  · split_ifs at h
  · cases h
  · cases h
  · rename_i i c
    unfold dequeueStep at h ⊢
    dsimp only at h ⊢
    split at h <;> rename_i hr
    · cases h
      have hjob := fetchedJob_of_step (Prod.ext rfl hr)
      simp [Process.handle,show c.fetchedJob = some job from hjob]
    · cases h
    · cases h
  · cases h
  · cases h
  · cases h

end Returns

variable {ι : Type} [DecidableEq ι]

/-- What calls of Dequeue return, with the numbers of the handles. -/
def returns (es : List (Event ⊕ ι × Outcome)) : List (ℕ × FetchedJob) :=
  es.filterMap fun
    | .inr (_,.returned handle job) => some (handle,job)
    | _ => none

/-- No two calls have had or have one handle. -/
structure PoolOk (p : Pool ι Process StorageState) (es : List (Event ⊕ ι × Outcome)) : Prop where
  peaceful : Peaceful HoldsOk Apart p
  returned : ∀ x ∈ returns es, (deliveries p.shared)[x.1]? = some x.2 ∧
    ∀ i, ∀ y ∈ (p.own i).handle, y.1 ≠ x.1
  once : ((returns es).map Prod.fst).Nodup

section Pools

variable {options : Dequeue.Options} {ser : SerializationHelper} {p : Pool ι Process StorageState}
  {es : List (Event ⊕ ι × Outcome)}

omit [DecidableEq ι] in
theorem PoolOk.client (h : PoolOk p es) {a : Action} (ha : a.isCleanup = false) (e : Event) :
    PoolOk { p with shared := (step ser options.invisibilityTimeout p.shared a).1 } (es ++ [.inl e]) := by
  have hk := keeps_step ser options.invisibilityTimeout p.shared a
  have hes : returns (es ++ [(.inl e : Event ⊕ ι × Outcome)]) = returns es := by simp [returns]
  refine ⟨h.peaceful.client fun i hi => hi.keep hk fun x hx hn => ?_,?_,by rw [hes]; exact h.once⟩
  · rw [hn] at ha
    cases ha
  · rw [hes]
    exact fun x hx => ⟨getElem?_of_longer hk.handles (h.returned x hx).1,(h.returned x hx).2⟩

theorem PoolOk.process (h : PoolOk p es) (i : ι) (k : Input) :
    PoolOk ⟨(processStep options k p.shared (p.own i)).1.1,
      Function.update p.own i (processStep options k p.shared (p.own i)).1.2⟩
      (es ++ [.inr (i,(processStep options k p.shared (p.own i)).2)]) := by
  have he := process_effect options k p.shared (p.own i)
  have hret {handle : ℕ} {job : FetchedJob} :
      (processStep options k p.shared (p.own i)).2 = .returned handle job →
        (handle,job) ∈ (p.own i).handle ∧ (processStep options k p.shared (p.own i)).1.2 = .idle :=
    processStep_returned
  generalize (processStep options k p.shared (p.own i)).1.1 = s',
    (processStep options k p.shared (p.own i)).1.2 = p',
    (processStep options k p.shared (p.own i)).2 = o at he hret ⊢
  have hpeace := h.peaceful.process (fun _ _ => Apart.symm) (he.holds (h.peaceful.own i))
    fun y hy hxy => ⟨he.others (h.peaceful.own i) hy hxy,he.apart hy hxy⟩
  have hpre := he.delivers (h.peaceful.own i)
  have hown (x : ℕ × FetchedJob) (hx : x ∈ returns es) (j : ι) (y : ℕ × FetchedJob)
      (hy : y ∈ (Function.update p.own i p' j).handle) : y.1 ≠ x.1 := by
    obtain ⟨hjob,hne⟩ := h.returned x hx
    obtain rfl | hj := eq_or_ne j i
    · rw [Function.update_self] at hy
      obtain hold | hnew := he.handle y hy
      · exact hne j y hold
      · rw [hnew]
        exact (List.getElem?_eq_some_iff.mp hjob).1.ne'
    · rw [Function.update_of_ne hj] at hy
      exact hne j y hy
  have hreturned (x : ℕ × FetchedJob) (hx : x ∈ returns es) : (deliveries s')[x.1]? = some x.2 ∧
      ∀ j, ∀ y ∈ (Function.update p.own i p' j).handle, y.1 ≠ x.1 :=
    ⟨getElem?_of_longer hpre (h.returned x hx).1,hown x hx⟩
  cases o with
  | silent | thrown =>
    refine ⟨hpeace,?_,?_⟩
    · simpa [returns] using hreturned
    · simpa [returns] using h.once
  | returned handle job =>
    obtain ⟨hhandle,rfl⟩ := hret rfl
    have hes : returns (es ++ [.inr (i,.returned handle job)]) = returns es ++ [(handle,job)] := by
      simp [returns]
    refine ⟨hpeace,fun x hx => ?_,?_⟩
    · rw [hes,List.mem_append,List.mem_singleton] at hx
      obtain hx | rfl := hx
      · exact hreturned x hx
      · refine ⟨getElem?_of_longer hpre ((h.peaceful.own i).handle _ hhandle),fun j y hy => ?_⟩
        obtain rfl | hj := eq_or_ne j i
        · simp [Process.handle] at hy
        · simp only [Function.update_of_ne hj] at hy
          exact (h.peaceful.apart j i hj).handle y hy _ hhandle
    · rw [hes,List.map_append,List.map_singleton,List.nodup_append]
      refine ⟨h.once,List.nodup_singleton _,fun n hn m hm => ?_⟩
      obtain ⟨x,hx,rfl⟩ := List.mem_map.mp hn
      rw [List.mem_singleton.mp hm]
      exact ((h.returned x hx).2 i _ hhandle).symm

def NotCleanup : PoolAction ι Input Action → Prop
  | .client a => a.isCleanup = false
  | .process _ _ => True

theorem poolOk_step (h : PoolOk p es) {a : PoolAction ι Input Action} (ha : NotCleanup a) :
    PoolOk (poolStep (step ser options.invisibilityTimeout) (processStep options) p a).1
      (es ++ [(poolStep (step ser options.invisibilityTimeout) (processStep options) p a).2]) := by
  cases a with
  | client a => exact h.client ha _
  | process i k => exact h.process i k

/-- Without handles at first, each one is the outcome of a fetch. -/
theorem fetched_of_deliveries (ser : SerializationHelper) (T : ℤ) {s : StorageState}
    (hs : s.handles = []) {bs : List Action} {n : ℕ} {job : FetchedJob}
    (h : (deliveries (exec (step ser T) s bs))[n]? = some job) :
    ∃ now, .fetched n job.id now ∈ trace (step ser T) s bs := by
  let I (s : StorageState) (es : List Event) : Prop :=
    ∀ (n : ℕ) (job : FetchedJob), (deliveries s)[n]? = some job → ∃ now, .fetched n job.id now ∈ es
  have hstep (s : StorageState) (a : Action) (es : List Event) (hI : I s es) (_ : True) :
      I (step ser T s a).1 (es ++ [(step ser T s a).2]) := by
    intro n job hjob
    have he : StepEffect ser T s a _ _ := step_effect a
    generalize (step ser T s a).1 = s', (step ser T s a).2 = e at he hjob ⊢
    have hkeep (hd : deliveries s' = deliveries s) : ∃ now, .fetched n job.id now ∈ es ++ [e] := by
      obtain ⟨now,hmem⟩ := hI n job (hd ▸ hjob)
      exact ⟨now,List.mem_append_left _ hmem⟩
    cases he with
    | removed _ hi | requeued _ hi | disposeRequeued _ hi | disposed hi =>
      exact hkeep (deliveries_set hi rfl)
    | @fetched o queues token i j hi hel hq hj =>
      simp only [deliveries,List.map_append,List.map_singleton] at hjob
      obtain hlt | hge := Nat.lt_or_ge n (s.handles.map Handle.job).length
      · rw [List.getElem?_append_left hlt] at hjob
        obtain ⟨now,hmem⟩ := hI n job hjob
        exact ⟨now,List.mem_append_left _ hmem⟩
      · rw [List.getElem?_append_right hge] at hjob
        obtain ⟨hlt,hget⟩ := List.getElem?_eq_some_iff.mp hjob
        have hn : n = s.handles.length := by
          simp only [List.length_map,List.length_singleton] at hge hlt
          omega
        subst hn
        refine ⟨s.now,List.mem_append_right _ ?_⟩
        simp [← hget,Handle.new]
    | _ => exact hkeep rfl
  have hnil : I s [] := by simp [I,deliveries,hs]
  have hrun : I (exec (step ser T) s bs) ([] ++ trace (step ser T) s bs) :=
    exec_trace_invariant (C := fun _ _ => True) hstep (along_of_forall fun _ _ _ => trivial) hnil
  rw [List.nil_append] at hrun
  exact hrun n job h

end Pools

/-- Calls of Dequeue, `Execute` of expiration managers statement by statement, and loops of counters
aggregators, any number of them among clients that do anything but clean up, in any order: together
they are a run of the storage system that the clients cannot tell from theirs. Every job that a call
returns has been fetched for its handle in that run, and no two calls return one handle. -/
theorem processes_refine (ser : SerializationHelper) (options : Dequeue.Options)
    {p : Pool ι Process StorageState} (hidle : ∀ i, p.own i = .idle) (hs : p.shared.handles = [])
    {as : List (PoolAction ι Input Action)} (hclients : ∀ a, .client a ∈ as → a.isCleanup = false) :
    let T := options.invisibilityTimeout
    let q := exec (poolStep (step ser T) (processStep options)) p as
    let es := trace (poolStep (step ser T) (processStep options)) p as
    (∃ bs, q.shared = exec (step ser T) p.shared bs ∧
      (es.filterMap Sum.getLeft?).Sublist (trace (step ser T) p.shared bs) ∧
      ∀ x ∈ returns es, (q.shared.handles[x.1]?).map Handle.job = some x.2 ∧
        ∃ now, .fetched x.1 x.2.id now ∈ trace (step ser T) p.shared bs) ∧
      ((returns es).map Prod.fst).Nodup := by
  intro T q es
  have hC : Along (poolStep (step ser T) (processStep options)) (fun _ a => NotCleanup a) p as := by
    refine along_of_forall fun a ha _ => ?_
    cases a with
    | client a => exact hclients a ha
    | process i k => trivial
  have h₀ : PoolOk p ([] : List (Event ⊕ ι × Outcome)) := by
    refine ⟨⟨fun i => ?_,fun i j _ => ?_⟩,by simp [returns],by simp [returns]⟩
    · rw [hidle]
      exact ⟨nofun,nofun,nofun⟩
    · rw [hidle]
      exact ⟨nofun,nofun,nofun⟩
  have hok : PoolOk q es :=
    exec_trace_invariant (I := PoolOk) (fun p a es h ha => poolOk_step h ha) hC h₀
  obtain ⟨bs,hq,hshown⟩ : ∃ bs, q.shared = exec (step ser T) p.shared bs ∧
      (es.filterMap Sum.getLeft?).Sublist (trace (step ser T) p.shared bs) := by
    refine exec_refines (J := fun p => ∃ es, PoolOk p es) Pool.shared Sum.getLeft?
      (fun p a h ha => h.elim fun es h => ⟨_,poolOk_step h ha⟩) (fun p a h _ => ?_) hC ⟨[],h₀⟩
    obtain ⟨es,h⟩ := h
    cases a with
    | client a => exact ⟨[a],rfl,List.Sublist.refl _⟩
    | process i k =>
      obtain hsame | ⟨a,ha,-⟩ := (process_effect options k p.shared (p.own i)).action ser
        (h.peaceful.own i)
      · exact ⟨[],hsame,List.nil_sublist _⟩
      · exact ⟨[a],ha,List.nil_sublist _⟩
  refine ⟨⟨bs,hq,hshown,fun x hx => ?_⟩,hok.once⟩
  have hjob := (hok.returned x hx).1
  refine ⟨by simpa [deliveries] using hjob,fetched_of_deliveries ser T hs ?_⟩
  rw [← hq]
  exact hjob

def servers : Pool Bool Process StorageState :=
  ⟨⟨Dequeue.queued,90000000000,[],[],[],[]⟩,fun _ => .idle⟩

def worker (i : Input) : PoolAction Bool Input Action := .process true i

def manager (i : Input) : PoolAction Bool Input Action := .process false i

def attempt : Input := .dequeueStep Dequeue.calm

def pass : Input :=
  .cleanUpStep ⟨Dequeue.calm.toCircumstance,.stored,0,nofun⟩ 0

def busy : List (PoolAction Bool Input Action) :=
  [worker (.dequeue ["default"]),manager (.cleanUp 1000),worker attempt,manager pass,
    worker attempt,manager pass,worker attempt,.client (.commit []),manager pass,worker attempt]

theorem processes_refine_busy :
    let T := Dequeue.defaults.invisibilityTimeout
    let q := exec (poolStep (step Json.helper T) (processStep Dequeue.defaults)) servers busy
    let es := trace (poolStep (step Json.helper T) (processStep Dequeue.defaults)) servers busy
    (∃ bs, q.shared = exec (step Json.helper T) servers.shared bs ∧
      (es.filterMap Sum.getLeft?).Sublist (trace (step Json.helper T) servers.shared bs) ∧
      ∀ x ∈ returns es, (q.shared.handles[x.1]?).map Handle.job = some x.2 ∧
        ∃ now, .fetched x.1 x.2.id now ∈ trace (step Json.helper T) servers.shared bs) ∧
      ((returns es).map Prod.fst).Nodup :=
  processes_refine Json.helper Dequeue.defaults (fun _ => rfl) rfl
    (by simp [busy,worker,manager,Action.isCleanup])

example : returns (trace (poolStep (step Json.helper Dequeue.defaults.invisibilityTimeout)
    (processStep Dequeue.defaults)) servers busy) = [(0,⟨1,1,"default"⟩)] := by
  decide

end Processes
end HangfireStorage
