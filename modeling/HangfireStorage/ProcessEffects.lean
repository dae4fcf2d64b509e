import HangfireStorage.Processes
import HangfireStorage.StepEffects

/-!
# What processes do

Every step of a process has one of a fixed list of outcomes.
-/

namespace HangfireStorage
namespace Processes

open DistributedLock ExpirationManager JobQueue LockScope Machine StorageSystem

/-- Everything that a step of a process can do. -/
inductive ProcessEffect (T : ℤ) (s : StorageState) (p : Process) : StorageState → Process → Prop
  | quiet {p' : Process} (h : p'.Within p) : ProcessEffect T s p s p'
  | aggregated {o : RowOrder CounterRow} {db : Db} {p' : Process}
      (hp : CountersAggregator.pass o s.db = .ok db) (h : p'.Within p) :
      ProcessEffect T s p (s.withDb db) p'
  | granted {o : RowOrder DistributedLockRow} {r : String} {timeout id : ℤ} {db : Db} {p' : Process}
      (ha : tryAcquireWithEntity o r timeout s.now s.db = .ok (some id,db))
      (hheld : ∀ x ∈ p'.held, x = ⟨s.locks.length,s.now,r,timeout,some id⟩)
      (hinside : ∀ x ∈ p'.inside, x = ⟨s.locks.length,s.now,r,timeout,some id⟩)
      (hhandle : ∀ x ∈ p'.handle, x ∈ p.handle) (hsweep : ∀ x ∈ p'.sweep, x ∈ p.sweep) :
      ProcessEffect T s p { s with db := db, locks := s.locks ++ [⟨r,timeout,some id⟩] } p'
  | released {x : Held} {id : ℤ} {p' : Process} (hx : x ∈ p.held) (hid : x.lock.lockId = some id)
      (hleaving : p.inside = none) (hinside : p'.inside = none) (h : p'.Within p) :
      ProcessEffect T s p
        { s with
          db := { s.db with distributedLock := s.db.distributedLock.delete fun r => r.id = id }
          locks := s.locks.set x.number { x.lock with lockId := none } } p'
  | fetched {o : RowOrder JobQueueRow} {queues : List String} {token : String} {job : FetchedJob}
      {db : Db} {p' : Process} (hf : fetch T o queues token s.now s.db = .ok (some job,db))
      (hheld : ∀ x ∈ p'.held, x ∈ p.held) (hinside : p'.inside = none)
      (hhandle : p'.handle = some (s.handles.length,job)) (hsweep : p'.sweep = none) :
      ProcessEffect T s p { s with db := db, handles := s.handles ++ [Handle.new job] } p'
  | selected {k : Kind} {o : RowOrder ℤ} {size : ℤ} {age : ℕ} {p' : Process}
      (hheld : ∀ x ∈ p'.held, x ∈ p.held) (hinside : ∀ x ∈ p'.inside, x ∈ p.inside)
      (hhandle : p'.handle = none) (hsweep : p'.sweep = some (s.sweeps.length,
        Sweep.start k o (numberOfRecordsInSinglePass size) (s.now-age) s.db)) :
      ProcessEffect T s p { s with sweeps := s.sweeps ++
        [Sweep.start k o (numberOfRecordsInSinglePass size) (s.now-age) s.db] } p'
  | deleted {number m : ℕ} {w : Sweep} {batch : List ℤ} {rest : List (List ℤ)} {db : Db} {p' : Process}
      (hw : (number,w) ∈ p.sweep) (hp : w.pending = batch::rest)
      (hd : deleteStatement batch s.db w.kind = .ok (db,m))
      (hheld : ∀ x ∈ p'.held, x ∈ p.held) (hinside : ∀ x ∈ p'.inside, x ∈ p.inside)
      (hhandle : p'.handle = none) (hsweep : p'.sweep = some (number,{ w with pending := rest })) :
      ProcessEffect T s p
        { s with db := db, sweeps := s.sweeps.set number { w with pending := rest } } p'
  | deleteFailed {number : ℕ} {w : Sweep} {batch : List ℤ} {rest : List (List ℤ)} {f : Fault}
      {p' : Process} (hw : (number,w) ∈ p.sweep) (hp : w.pending = batch::rest)
      (hd : deleteStatement batch s.db w.kind = .error f) (hsweep : p'.sweep = none)
      (h : p'.Within p) :
      ProcessEffect T s p { s with sweeps := s.sweeps.set number ⟨w.kind,[]⟩ } p'

section Effects

variable {options : Dequeue.Options} {s : StorageState}

/-- The storage after an unsuccessful wait for a lock, or a release that deletes nothing. -/
theorem bookLocks_none {number : ℕ} {before after : Option Lock} {locks : List Lock}
    (h : before = none → after = none) : bookLocks number before after false locks = locks := by
  cases before with
  | none => rw [h rfl]; rfl
  | some lock => rfl

theorem deletesRow_none {i : LockScope.Circumstance} {releases : Option ℤ} (h : releases = none) :
    deletesRow i releases = false := by
  rw [h]
  rfl

theorem dispose_cases (lock : Lock) (i : LockScope.Circumstance) (db : Db) :
    (deletesRow i lock.lockId = false ∧ (dispose lock i db).1 = db) ∨
      ∃ id, deletesRow i lock.lockId = true ∧ lock.lockId = some id ∧ (dispose lock i db).1 =
        { db with distributedLock := db.distributedLock.delete fun r => r.id = id } := by
  unfold dispose deletesRow
  cases lock.lockId with
  | none => exact .inl ⟨rfl,rfl⟩
  | some id =>
    cases i.thrown with
    | none => exact .inr ⟨id,rfl,rfl,rfl⟩
    | some e => cases i.deleted <;> simp

/-- What the fetch under the lock can do. -/
theorem fetchUnder_cases (options : Dequeue.Options) (queues : List String) (lock : Lock)
    (i : Dequeue.Circumstance) (c : Dequeue.CallState) :
    ∃ c', Dequeue.fetchUnder options queues lock i c = (c',none) ∧
      ((∃ pending, c'.position = .release lock pending) ∧ c'.db = c.db ∧
          committedJob (.fetch lock) c' = none ∧
          (c'.fetchedJob = none ∨ c'.fetchedJob = c.fetchedJob) ∨
        ∃ job, c'.position = .release lock none ∧ c'.fetchedJob = some job ∧
          fetch options.invisibilityTimeout i.queueOrder queues i.token i.utcNow c.db =
            .ok (some job,c'.db)) := by
  unfold Dequeue.fetchUnder
  cases hw : wrapForTransaction (none,c.db) (Dequeue.fetchTransaction options queues i c.db) with
  | error e => exact ⟨_,rfl,.inl ⟨⟨_,rfl⟩,rfl,rfl,.inr rfl⟩⟩
  | ok r =>
    obtain ⟨job,db⟩ := r
    refine ⟨_,rfl,?_⟩
    obtain ht | he := wrapForTransaction_eq_ok hw
    · unfold Dequeue.fetchTransaction at ht
      split at ht
      · cases ht
      · have hfetch := mapError_eq_ok ht
        cases job with
        | some job => exact .inr ⟨job,rfl,rfl,hfetch⟩
        | none =>
          obtain ⟨c₁,-,⟨-,rfl,-⟩ | ⟨i,-,j,-,hsome,-⟩⟩ := fetch_eq_ok hfetch
          · exact .inl ⟨⟨_,rfl⟩,rfl,rfl,.inl rfl⟩
          · cases hsome
    · cases he
      exact .inl ⟨⟨_,rfl⟩,rfl,rfl,.inl rfl⟩

section Dequeue

variable {i : Dequeue.Circumstance} {c : DequeueCall} {c' : Dequeue.CallState} {r : Dequeue.Result}

theorem dequeueStep_storage (hstep : Dequeue.step options c.queues { i with utcNow := s.now }
      ⟨s.db,c.position,c.fetchedJob⟩ = (c',r)) : (dequeueStep options i s c).1.1 =
      { s with
        db := c'.db
        handles := s.handles ++ (committedJob c.position c').toList.map Handle.new
        locks := bookLocks c.lock c.position.lock c'.position.lock
          (deletesRow i.toCircumstance c.position.releases) s.locks } := by
  simp only [dequeueStep,hstep]
  split <;> rfl

theorem dequeueStep_process (hstep : Dequeue.step options c.queues { i with utcNow := s.now }
      ⟨s.db,c.position,c.fetchedJob⟩ = (c',none)) : (dequeueStep options i s c).1.2 =
      .dequeue { c with
        position := c'.position
        fetchedJob := c'.fetchedJob
        handle := if (committedJob c.position c').isSome then s.handles.length else c.handle
        lock := if c.position.lock.isSome then c.lock else s.locks.length
        since := if c.position.lock.isSome then c.since else s.now } := by
  simp only [dequeueStep,hstep]

/-- A step that is granted no lock and commits no fetch. -/
theorem dequeueStep_within (hstep : Dequeue.step options c.queues { i with utcNow := s.now }
      ⟨s.db,c.position,c.fetchedJob⟩ = (c',r)) (hjob : committedJob c.position c' = none)
    (hlock : c'.position.lock = none ∨ c'.position.lock = c.position.lock)
    (hinside : ∀ lock, c'.position = .fetch lock → c.position = .fetch lock)
    (hfetched : c'.fetchedJob = none ∨ c'.fetchedJob = c.fetchedJob) :
    (dequeueStep options i s c).1.2.Within (.dequeue c) := by
  simp only [dequeueStep,hstep,hjob]
  split
  · exact Process.within_idle _
  · exact Process.within_idle _
  · constructor
    · intro x hx
      obtain hnone | hsame := hlock
      · simp [Process.held,hnone] at hx
      · cases hl : c.position.lock with
        | none => simp [Process.held,hsame,hl] at hx
        | some lock => simpa [Process.held,hsame,hl] using hx
    · intro x hx
      simp only [Process.inside] at hx
      split at hx
      · rename_i lock hp
        simpa [Process.inside,hinside lock hp,Dequeue.Position.lock] using hx
      · cases hx
    · intro x hx
      obtain hnone | hsame := hfetched
      · simp [Process.handle,hnone] at hx
      · simpa [Process.handle,hsame] using hx
    · nofun

theorem dequeueStep_quiet (hstep : Dequeue.step options c.queues { i with utcNow := s.now }
      ⟨s.db,c.position,c.fetchedJob⟩ = (c',r))
    (hdb : c'.db = s.db) (hjob : committedJob c.position c' = none)
    (hdeletes : deletesRow i.toCircumstance c.position.releases = false)
    (hlock : c'.position.lock = none ∨ c'.position.lock = c.position.lock)
    (hinside : ∀ lock, c'.position = .fetch lock → c.position = .fetch lock)
    (hfetched : c'.fetchedJob = none ∨ c'.fetchedJob = c.fetchedJob) {T : ℤ} :
    ProcessEffect T s (.dequeue c) (dequeueStep options i s c).1.1 (dequeueStep options i s c).1.2 := by
  have hbooks : bookLocks c.lock c.position.lock c'.position.lock false s.locks = s.locks :=
    bookLocks_none fun hnone => hlock.elim id fun h => h.trans hnone
  rw [dequeueStep_storage hstep,hdb,hjob,hdeletes,hbooks,Option.toList_none,List.map_nil,
    List.append_nil]
  exact .quiet (dequeueStep_within hstep hjob hlock hinside hfetched)

theorem disposeLock_cases {lock : Lock} {pending : Option Thrown} {c : Dequeue.CallState}
    (h : Dequeue.disposeLock lock pending i c = (c',r)) :
    c'.db = (dispose lock i.toCircumstance c.db).1 ∧ c'.fetchedJob = c.fetchedJob ∧
      (c'.position = c.position ∨ c'.position = .poll) := by
  have hleave {e : Thrown} {c₁ : Dequeue.CallState} (h : Dequeue.leave e c₁ = (c',r)) :
      c'.db = c₁.db ∧ c'.fetchedJob = c₁.fetchedJob ∧
        (c'.position = c₁.position ∨ c'.position = .poll) := by
    unfold Dequeue.leave at h
    split_ifs at h <;> cases h
    · exact ⟨rfl,rfl,.inr rfl⟩
    · exact ⟨rfl,rfl,.inl rfl⟩
  unfold Dequeue.disposeLock at h
  split at h <;> rename_i hd <;> rw [hd]
  · unfold Dequeue.afterUsing at h
    split at h
    · exact hleave h
    · cases h
      exact ⟨rfl,rfl,.inl rfl⟩
    · cases h
      exact ⟨rfl,rfl,.inr rfl⟩
  · cases h
    exact ⟨rfl,rfl,.inl rfl⟩
  · exact hleave h

theorem dequeue_effect (i : Dequeue.Circumstance) (c : DequeueCall) :
    ProcessEffect options.invisibilityTimeout s (.dequeue c) (dequeueStep options i s c).1.1
      (dequeueStep options i s c).1.2 := by
  cases hs : Dequeue.step options c.queues { i with utcNow := s.now }
    ⟨s.db,c.position,c.fetchedJob⟩ with
  | mk c' r =>
  have hquiet (hpos : ∀ lock, c.position ≠ .fetch lock) (hdb : c'.db = s.db)
      (hdeletes : deletesRow i.toCircumstance c.position.releases = false)
      (hjob : c'.fetchedJob = c.fetchedJob) (hlock : c'.position = c.position ∨ c'.position.lock = none) :
      ProcessEffect options.invisibilityTimeout s (.dequeue c)
        (dequeueStep options i s c).1.1 (dequeueStep options i s c).1.2 := by
    refine dequeueStep_quiet hs hdb ?_ hdeletes ?_ (fun lock hl => ?_) (.inr hjob)
    · unfold committedJob
      split
      · exact absurd ‹_› (hpos _)
      · rfl
    · exact hlock.symm.imp_right (congrArg _)
    · obtain hsame | hnone := hlock
      · exact hsame ▸ hl
      · simp [hl,Dequeue.Position.lock] at hnone
  have hstep := hs
  cases hpos : c.position with
  | head =>
    simp only [Dequeue.step,hpos] at hstep
    split at hstep <;> cases hstep <;>
      exact hquiet (by simp [hpos]) rfl (deletesRow_none (by rw [hpos]; rfl)) rfl (.inr rfl)
  | acquire =>
    simp only [Dequeue.step,hpos,Dequeue.acquireLock] at hstep
    split at hstep <;> rename_i ha
    · obtain ⟨id,hlock,ht⟩ | ⟨-,hno⟩ := acquire_cases ha
      · cases hstep
        cases hlock
        rw [dequeueStep_storage hs,dequeueStep_process hs]
        simp only [hpos,committedJob,Option.toList_none,List.map_nil,List.append_nil]
        exact .granted ht (fun x hx => (Option.some.inj hx).symm) (fun x hx => (Option.some.inj hx).symm)
          (fun x hx => hx) (fun x hx => by cases hx)
      · exact absurd rfl (hno _)
    · cases hstep
      obtain ⟨id,hlock,-⟩ | ⟨rfl,-⟩ := acquire_cases ha
      · cases hlock
      · exact hquiet (by simp [hpos]) rfl (deletesRow_none (by rw [hpos]; rfl)) rfl (.inr rfl)
    · obtain ⟨id,hlock,-⟩ | ⟨rfl,-⟩ := acquire_cases ha
      · cases hlock
      · simp only [Dequeue.leave] at hstep
        split_ifs at hstep <;> cases hstep <;>
          exact hquiet (by simp [hpos]) rfl (deletesRow_none (by rw [hpos]; rfl)) rfl (.inr rfl)
  | fetch lock =>
    obtain ⟨⟨db₁,position₁,job₁⟩,hfetch,hcases⟩ := fetchUnder_cases options c.queues lock
      { i with utcNow := s.now } ⟨s.db,.fetch lock,c.fetchedJob⟩
    rw [Dequeue.step.eq_def,hpos] at hstep
    obtain ⟨rfl,rfl⟩ := Prod.mk.inj (hfetch.symm.trans hstep)
    obtain ⟨⟨pending,rfl⟩,hdb,hjob,hf⟩ | ⟨job,rfl,rfl,hf⟩ := hcases
    · refine dequeueStep_quiet hs hdb (by rw [hpos]; exact hjob) (by rw [hpos]; rfl) ?_
        (fun _ h => by cases h) hf
      rw [hpos]
      exact .inr rfl
    · rw [dequeueStep_storage hs,dequeueStep_process hs]
      simp only [hpos]
      exact .fetched hf
        (fun x hx => by simpa [Process.held,hpos,Dequeue.Position.lock] using hx) rfl rfl rfl
  | release lock pending =>
    simp only [Dequeue.step,hpos] at hstep
    obtain ⟨hdb,hjob,hp⟩ := disposeLock_cases hstep
    have hp' : c'.position = c.position ∨ c'.position.lock = none :=
      hp.imp (·.trans hpos.symm) fun h => by rw [h]; rfl
    obtain ⟨hdel,hsame⟩ | ⟨id,hdel,hid,hgone⟩ := dispose_cases lock i.toCircumstance s.db
    · exact hquiet (by simp [hpos]) (hdb.trans hsame) (by rw [hpos]; exact hdel) hjob hp'
    · have hcommit : committedJob c.position c' = none := by
        rw [hpos]
        rfl
      have hnofetch (l : Lock) (h : c'.position = .fetch l) : False := by
        obtain hp | hp := hp
        · rw [hp] at h
          cases h
        · rw [hp] at h
          cases h
      have hwithin := dequeueStep_within hs hcommit
        (hp'.symm.imp_right (congrArg Dequeue.Position.lock)) (fun l h => (hnofetch l h).elim)
        (.inr hjob)
      have hinside : (dequeueStep options i s c).1.2.inside = none := by
        simp only [dequeueStep,hs]
        split
        · rfl
        · rfl
        · simp only [Process.inside]
      have heffect := ProcessEffect.released (T := options.invisibilityTimeout) (s := s)
        (x := ⟨c.lock,c.since,lock⟩) (by simp [Process.held,hpos,Dequeue.Position.lock]) hid
        (by simp [Process.inside,hpos]) hinside hwithin
      rw [dequeueStep_storage hs,hcommit,hdb.trans hgone,hpos]
      simpa [bookLocks,hdel,Dequeue.Position.lock,Dequeue.Position.releases] using heffect
  | poll =>
    simp only [Dequeue.step,hpos] at hstep
    split at hstep
    · cases hstep
      exact hquiet (by simp [hpos]) rfl (deletesRow_none (by rw [hpos]; rfl)) rfl (.inr rfl)
    · split at hstep <;> cases hstep <;>
        exact hquiet (by simp [hpos]) rfl (deletesRow_none (by rw [hpos]; rfl)) rfl (.inr rfl)

end Dequeue

section CleanUp

variable {a : ExpirationExecute.Action} {i : ExpirationExecute.Circumstance} {c : CleanUp} {T : ℤ}
  {r : ExpirationExecute.ExecuteState}

theorem leave_cases (a : ExpirationExecute.Action) (e : Thrown) (r : ExpirationExecute.ExecuteState) :
    (ExpirationExecute.leave a e r).db = r.db ∧
      (ExpirationExecute.leave a e r).position.lock = none := by
  unfold ExpirationExecute.leave
  split_ifs <;> exact ⟨rfl,rfl⟩

theorem releaseLock_cases (a : ExpirationExecute.Action) (lock : Lock)
    (ending : ExpirationExecute.Ending) (r : ExpirationExecute.ExecuteState) :
    (ExpirationExecute.disposeLock a lock ending i r).db = (dispose lock i.toCircumstance r.db).1 ∧
      ((ExpirationExecute.disposeLock a lock ending i r).position = r.position ∨
        (ExpirationExecute.disposeLock a lock ending i r).position.lock = none) := by
  unfold ExpirationExecute.disposeLock
  split <;> rename_i hd <;> rw [hd]
  · cases ending with
    | broke => exact ⟨rfl,.inr rfl⟩
    | ran => exact ⟨rfl,.inr rfl⟩
    | raised e => exact (leave_cases a e _).imp_right .inr
  · exact ⟨rfl,.inl rfl⟩
  · exact (leave_cases a _ _).imp_right .inr

/-- Of the steps outside the using block only a grant has one ahead. -/
theorem lockStep_within
    (hr : ExpirationExecute.advance (numberOfRecordsInSinglePass c.deleteExpiredBatchSize) a
      { i with utcNow := s.now } ⟨s.db,c.actions,c.position,c.errors⟩ = r)
    (hlock : r.position = c.position ∨ r.position.lock = none) :
    (lockStep a i s c).2.Within (.cleanUp c) := by
  simp only [lockStep,hr]
  obtain hsame | hnone := hlock
  · refine ⟨fun x hx => ?_,fun x hx => ?_,nofun,fun x hx => hx⟩
    · cases hl : c.position.lock with
      | none => simp [Process.held,hsame,hl] at hx
      | some lock => simpa [Process.held,hsame,hl] using hx
    · cases hpos : c.position with
      | delete lock ks =>
        simpa [Process.inside,hsame,hpos,ExpirationExecute.Position.lock] using hx
      | acquire | release | poll => simp [Process.inside,hsame,hpos] at hx
  · refine ⟨fun x hx => ?_,fun x hx => ?_,nofun,fun x hx => hx⟩
    · simp [Process.held,hnone] at hx
    · cases hpos : r.position with
      | delete lock ks => simp [hpos,ExpirationExecute.Position.lock] at hnone
      | acquire | release | poll => simp [Process.inside,hpos] at hx

theorem lockStep_quiet
    (hr : ExpirationExecute.advance (numberOfRecordsInSinglePass c.deleteExpiredBatchSize) a
      { i with utcNow := s.now } ⟨s.db,c.actions,c.position,c.errors⟩ = r)
    (hdb : r.db = s.db) (hdeletes : deletesRow i.toCircumstance c.position.releases = false)
    (hlock : r.position = c.position ∨ r.position.lock = none) :
    ProcessEffect T s (.cleanUp c) (lockStep a i s c).1 (lockStep a i s c).2 := by
  have hwithin := lockStep_within hr hlock
  have hbooks : bookLocks c.lock c.position.lock r.position.lock false s.locks = s.locks :=
    bookLocks_none fun hnone => hlock.elim (fun h => h ▸ hnone) id
  have hs : (lockStep a i s c).1 = s := by simp only [lockStep,hr,hdb,hdeletes,hbooks]
  rw [hs]
  exact .quiet hwithin

theorem lockStep_effect (a : ExpirationExecute.Action) (i : ExpirationExecute.Circumstance) (c : CleanUp)
    (hpos : ∀ lock ks, c.position ≠ .delete lock ks) :
    ProcessEffect T s (.cleanUp c) (lockStep a i s c).1 (lockStep a i s c).2 := by
  cases hr : ExpirationExecute.advance (numberOfRecordsInSinglePass c.deleteExpiredBatchSize) a
    { i with utcNow := s.now } ⟨s.db,c.actions,c.position,c.errors⟩ with
  | mk db' actions' position' errors' =>
  have hadvance := hr
  cases hp : c.position with
  | acquire =>
    simp only [ExpirationExecute.advance,hp,ExpirationExecute.acquireLock] at hadvance
    split at hadvance <;> rename_i ha
    · obtain ⟨id,hlock,ht⟩ | ⟨-,hno⟩ := acquire_cases ha
      · cases hadvance
        cases hlock
        simp only [lockStep,hr]
        simp only [hp]
        exact .granted ht (fun x hx => (Option.some.inj hx).symm) (fun x hx => (Option.some.inj hx).symm)
          (fun x hx => by cases hx) (fun x hx => hx)
      · exact absurd rfl (hno _)
    · cases hadvance
      obtain ⟨id,hlock,-⟩ | ⟨rfl,-⟩ := acquire_cases ha
      · cases hlock
      · exact lockStep_quiet hr rfl (deletesRow_none (by rw [hp]; rfl)) (.inr rfl)
    · obtain ⟨id,hlock,-⟩ | ⟨rfl,-⟩ := acquire_cases ha
      · cases hlock
      · obtain ⟨hdb,hnone⟩ := leave_cases a _ _
        rw [hadvance] at hdb hnone
        exact lockStep_quiet hr hdb (deletesRow_none (by rw [hp]; rfl)) (.inr hnone)
  | delete lock ks => exact absurd hp (hpos lock ks)
  | release lock ending =>
    obtain ⟨hdb,hlock⟩ := releaseLock_cases (i := { i with utcNow := s.now }) a lock ending
      ⟨s.db,c.actions,.release lock ending,c.errors⟩
    simp only [ExpirationExecute.advance,hp] at hadvance
    rw [hadvance] at hdb hlock
    have hlock' : position' = c.position ∨ position'.lock = none :=
      hlock.imp_left (·.trans hp.symm)
    obtain ⟨hdel,hsame⟩ | ⟨id,hdel,hid,hgone⟩ := dispose_cases lock i.toCircumstance s.db
    · exact lockStep_quiet hr (hdb.trans hsame) (by rw [hp]; exact hdel) hlock'
    · have hinside : (lockStep a i s c).2.inside = none := by
        simp only [lockStep,hr,Process.inside]
        obtain rfl | hnone := hlock
        · rfl
        · cases position' with
          | delete lock ks => cases hnone
          | acquire | release | poll => rfl
      have heffect := ProcessEffect.released (T := T) (s := s) (x := ⟨c.lock,c.since,lock⟩)
        (by simp [Process.held,hp,ExpirationExecute.Position.lock]) hid
        (by simp [Process.inside,hp]) hinside (lockStep_within hr hlock')
      have hstorage : (lockStep a i s c).1 = { s with
          db := { s.db with distributedLock := s.db.distributedLock.delete fun r => r.id = id }
          locks := s.locks.set c.lock { lock with lockId := none } } := by
        have hgone' : db' = _ := hdb.trans hgone
        simp only [lockStep,hr,hgone']
        simp [hp,bookLocks,hdel,ExpirationExecute.Position.lock,ExpirationExecute.Position.releases]
      rw [hstorage]
      exact heffect
  | poll =>
    simp only [ExpirationExecute.advance,hp,ExpirationExecute.poll] at hadvance
    split at hadvance <;> cases hadvance <;>
      exact lockStep_quiet hr rfl (deletesRow_none (by rw [hp]; rfl)) (.inr rfl)

/-- A step inside the using block has the lock as before. -/
theorem within_of_delete {lock : Lock} {kinds : List Kind} (hpos : c.position = .delete lock kinds)
    {position : ExpirationExecute.Position} {sweep : Option (ℕ × Sweep × ℕ)}
    (hlock : position.lock = some lock) (hsweep : ∀ x ∈ sweep, x ∈ c.sweep) :
    (Process.cleanUp { c with position := position, sweep := sweep }).Within (.cleanUp c) := by
  refine ⟨fun x hx => ?_,fun x hx => ?_,nofun,fun x hx => ?_⟩
  · simp only [Process.held,hlock] at hx
    simpa [Process.held,hpos,ExpirationExecute.Position.lock] using hx
  · cases position with
    | delete lock' ks =>
      cases hlock
      simpa [Process.inside,hpos] using hx
    | acquire | release | poll => cases hx
  · obtain ⟨y,hy,rfl⟩ := Option.mem_map.mp hx
    exact Option.mem_map.mpr ⟨y,hsweep y hy,rfl⟩

theorem deleteStep_effect (a : ExpirationExecute.Action) {lock : Lock}
    (i : ExpirationExecute.Circumstance) (age : ℕ) {c : CleanUp} {kinds : List Kind}
    (hpos : c.position = .delete lock kinds) :
    ProcessEffect T s (.cleanUp c) (deleteStep a lock i age s c kinds).1
      (deleteStep a lock i age s c kinds).2 := by
  have hraise (e : Thrown) : (raise lock e c).Within (.cleanUp c) :=
    within_of_delete hpos rfl nofun
  cases kinds with
  | nil => exact .quiet (within_of_delete hpos rfl fun x hx => hx)
  | cons k ks =>
    simp only [deleteStep]
    split
    · exact .quiet (hraise _)
    · exact .selected (fun x hx => hx) (fun x hx => hx) rfl rfl
    · rename_i number w count ht hsweep
      have hw : (number,w) ∈ (Process.cleanUp c).sweep := by
        simp [Process.sweep,hsweep]
      split
      · refine .quiet (within_of_delete hpos ?_ nofun)
        cases ks <;> rfl
      · rename_i batch rest hp
        split
        · rename_i f hd
          exact .deleteFailed hw hp hd rfl (hraise _)
        · rename_i db m hd
          exact .deleted hw hp hd (fun x hx => hx) (fun x hx => hx) rfl rfl

theorem cleanUp_effect (i : ExpirationExecute.Circumstance) (age : ℕ) (c : CleanUp) :
    ProcessEffect T s (.cleanUp c) (cleanUpStep i age s c).1 (cleanUpStep i age s c).2 := by
  unfold cleanUpStep
  split
  · exact .quiet (Process.within_idle _)
  · rename_i a _ lock kinds _ hpos
    exact deleteStep_effect a i age hpos
  · rename_i a _ _ hno
    exact lockStep_effect a i c hno

end CleanUp

theorem aggregate_effect {T : ℤ} (o : RowOrder CounterRow) (removedCount : ℕ) :
    ProcessEffect T s (.aggregator removedCount) (aggregateStep o s removedCount).1
      (aggregateStep o s removedCount).2 := by
  have hwithin : (aggregateStep o s removedCount).2.Within (.aggregator removedCount) := by
    unfold aggregateStep
    dsimp only
    split_ifs
    · exact Process.within_idle _
    · exact ⟨nofun,nofun,nofun,nofun⟩
  cases hp : CountersAggregator.pass o s.db with
  | error f =>
    have hs : (aggregateStep o s removedCount).1 = s := by
      simp [aggregateStep,CountersAggregator.round,CountersAggregator.countedPass,hp,Except.map,
        StorageState.withDb]
    rw [hs]
    exact .quiet hwithin
  | ok db =>
    have hs : (aggregateStep o s removedCount).1 = s.withDb db := by
      simp [aggregateStep,CountersAggregator.round,CountersAggregator.countedPass,hp,Except.map]
    rw [hs]
    exact .aggregated hp hwithin

theorem process_effect (options : Dequeue.Options) (k : Input) (s : StorageState) (p : Process) :
    ProcessEffect options.invisibilityTimeout s p (processStep options k s p).1.1
      (processStep options k s p).1.2 := by
  have hstart {p' : Process} (h : p'.held = none ∧ p'.inside = none ∧ p'.handle = none ∧
      p'.sweep = none) : p'.Within .idle :=
    ⟨by simp [h.1],by simp [h.2.1],by simp [h.2.2.1],by simp [h.2.2.2]⟩
  unfold processStep
  split
  · split_ifs
    · exact .quiet (.refl _)
    · exact .quiet (hstart ⟨rfl,rfl,rfl,rfl⟩)
  · exact .quiet (hstart ⟨rfl,rfl,rfl,rfl⟩)
  · exact .quiet (hstart ⟨rfl,rfl,rfl,rfl⟩)
  · exact dequeue_effect _ _
  · exact cleanUp_effect _ _ _
  · exact aggregate_effect _ _
  · exact .quiet (.refl _)

end Effects

end Processes
end HangfireStorage
