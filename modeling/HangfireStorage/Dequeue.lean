import HangfireStorage.JobQueue
import HangfireStorage.LockScope
import HangfireStorage.Loops

/-!
# A call of Dequeue

The call between two points at which something can throw is one step.
-/

namespace HangfireStorage
namespace Dequeue

open DistributedLock JobQueue LockScope Loop

/-- What a step meets: the order of the fetch query and the new token, too. -/
structure Circumstance extends LockScope.Circumstance where
  queueOrder : RowOrder JobQueueRow
  token : String

/-- Where the call stands. In `release` an exception of the using block may be on its way out. -/
inductive Position
  | head
  | acquire
  | fetch (lock : Lock)
  | release (lock : Lock) (pending : Option Thrown)
  | poll
  deriving DecidableEq, Repr

structure CallState where
  db : Db
  position : Position
  fetchedJob : Option FetchedJob
  deriving DecidableEq

structure Options where
  invisibilityTimeout : ℤ
  jobQueueDistributedLockTimeout : ℤ

abbrev Result := Option (Except Thrown FetchedJob)

def resource : String := "JobQueue"

def leave (e : Thrown) (s : CallState) : CallState × Result :=
  if e.kind = .distributedLockTimeout then ({ s with position := .poll },none) else (s,some (.error e))

def acquireLock (options : Options) (i : Circumstance) (s : CallState) : CallState × Result :=
  match acquire resource options.jobQueueDistributedLockTimeout i.toCircumstance s.db with
  | (db,.granted lock) => ({ s with db := db, position := .fetch lock },none)
  | (db,.again) => ({ s with db := db },none)
  | (db,.raised e) => leave e { s with db := db }

def fetchTransaction (options : Options) (queues : List String) (i : Circumstance) (db : Db) :
    Except Thrown (Option FetchedJob × Db) :=
  match i.thrown with
  | some e => .error e
  | none => (fetch options.invisibilityTimeout i.queueOrder queues i.token i.utcNow db).mapError .ofFault

/-- The fetch transaction under the lock; an exception leaves the using block by its end. -/
def fetchUnder (options : Options) (queues : List String) (lock : Lock) (i : Circumstance)
    (s : CallState) : CallState × Result :=
  match wrapForTransaction (none,s.db) (fetchTransaction options queues i s.db) with
  | .error e => ({ s with position := .release lock (some e) },none)
  | .ok (job,db) => (⟨db,.release lock none,job⟩,none)

def afterUsing (pending : Option Thrown) (s : CallState) : CallState × Result :=
  match pending, s.fetchedJob with
  | some e, _ => leave e s
  | none, some job => (s,some (.ok job))
  | none, none => ({ s with position := .poll },none)

/-- What `Release` throws replaces an exception on its way out. -/
def disposeLock (lock : Lock) (pending : Option Thrown) (i : Circumstance) (s : CallState) :
    CallState × Result :=
  match dispose lock i.toCircumstance s.db with
  | (db,.done) => afterUsing pending { s with db := db }
  | (db,.again) => ({ s with db := db },none)
  | (db,.raised e) => leave e { s with db := db }

def step (options : Options) (queues : List String) (i : Circumstance) (s : CallState) :
    CallState × Result :=
  match s.position with
  | .head =>
    match i.thrown with
    | some e => (s,some (.error e))
    | none => ({ s with position := .acquire },none)
  | .acquire => acquireLock options i s
  | .fetch lock => fetchUnder options queues lock i s
  | .release lock pending => disposeLock lock pending i s
  | .poll =>
    match i.thrown with
    | some e => (s,some (.error e))
    | none =>
      match s.fetchedJob with
      | some job => (s,some (.ok job))
      | none => ({ s with position := .head },none)

/-- The call, cut after `n` steps. An empty array of queues is refused at once. -/
def dequeue (options : Options) (queues : List String) (n : ℕ) (is : ℕ → Circumstance) (db : Db) :
    CallState × Result :=
  if queues = [] then (⟨db,.head,none⟩,some (.error (.ofFault .argument)))
  else run (step options queues) n is ⟨db,.head,none⟩

/-- No queue row has another FetchedAt or FetchToken. -/
def Untouched (db db' : Db) : Prop :=
  ∀ k, (db'.jobQueue.byId k).map (fun r => (r.fetchedAt,r.fetchToken)) =
    (db.jobQueue.byId k).map fun r => (r.fetchedAt,r.fetchToken)

theorem untouched_of_eq {db db' : Db} (h : db'.jobQueue = db.jobQueue) : Untouched db db' := by
  intro k
  rw [h]

theorem untouched_congr {db₀ db₁ db db' : Db} (h₀ : db₁.jobQueue = db₀.jobQueue)
    (h : db'.jobQueue = db.jobQueue) : Untouched db₁ db' ↔ Untouched db₀ db := by
  unfold Untouched
  rw [h₀,h]

/-- The release throws what neither of its two wrappers takes care of. -/
def Escapes (lock : Lock) (i : Circumstance) : Prop :=
  lock.lockId ≠ none ∧ ∃ e, i.thrown = some e ∧ e.deadlock = false ∧ e.kind = .other

/-- With a row already taken, an exception gets out of the using block, or out of the poll after
one that was caught. -/
def LosesJob (i : Circumstance) (s : CallState) : Prop :=
  s.fetchedJob ≠ none ∧
    match s.position with
    | .release lock _ => Escapes lock i
    | .poll => i.thrown ≠ none
    | _ => False

section Fetches

variable {T now c : ℤ} {o : RowOrder JobQueueRow} {queues : List String} {token : String} {db db' : Db}

theorem cutoff_le (hT : 0 < T) (h : cutoff T now = .ok c) : c ≤ now := by
  obtain ⟨-,rfl⟩ := DateTime.add_eq_ok.mp h
  have hr : DateTime.roundToMilliseconds (-T) ≤ 0 := by
    rw [DateTime.roundToMilliseconds_neg hT]
    omega
  unfold DateTime.ticksPerMillisecond
  omega

/-- A row that is taken was not fetched at the same time before. -/
theorem not_untouched_of_fetch (hT : 0 < T) {job : FetchedJob}
    (h : fetch T o queues token now db = .ok (some job,db')) : ¬ Untouched db db' := by
  intro hu
  obtain ⟨c,hc,⟨hnone,-⟩ | ⟨i,hi,j,-,-,rfl⟩⟩ := fetch_eq_ok h
  · cases hnone
  · obtain ⟨hrow,hel,-⟩ := mem_candidates.mp hi
    have hi' := hu i.id
    rw [byId_put_marked hrow,if_pos rfl,show db.jobQueue.byId i.id = some i from
      Table.byId_of_mem hrow] at hi'
    obtain ⟨hat,-⟩ := Prod.mk.inj (Option.some.inj hi')
    have hle := cutoff_le hT hc
    rw [eligible,← hat] at hel
    simp only [marked,Option.isNone_some,expiredBefore,Bool.false_or,decide_eq_true_eq] at hel
    omega

end Fetches

section Steps

variable {options : Options} {queues : List String} {i : Circumstance} {s s' : CallState} {r : Result}
  {db₀ : Db} {lock : Lock} {pending : Option Thrown}

structure Quiet (s s' : CallState) : Prop where
  jobQueue : s'.db.jobQueue = s.db.jobQueue
  fetchedJob : s'.fetchedJob = s.fetchedJob

theorem Quiet.trans {s₁ s₂ s₃ : CallState} (h : Quiet s₁ s₂) (h' : Quiet s₂ s₃) : Quiet s₁ s₃ :=
  ⟨h'.jobQueue.trans h.jobQueue,h'.fetchedJob.trans h.fetchedJob⟩

theorem leave_spec {e : Thrown} (h : leave e s = (s',r)) :
    Quiet s s' ∧ (e.kind = .distributedLockTimeout ∧ r = none ∧ s'.position = .poll ∨
      e.kind ≠ .distributedLockTimeout ∧ r = some (.error e)) := by
  unfold leave at h
  split_ifs at h with he <;> cases h
  · exact ⟨⟨rfl,rfl⟩,.inl ⟨he,rfl,rfl⟩⟩
  · exact ⟨⟨rfl,rfl⟩,.inr ⟨he,rfl⟩⟩

theorem acquireLock_quiet (h : acquireLock options i s = (s',r)) : Quiet s s' := by
  have hdb {db : Db} {a : Acquired}
      (ha : acquire resource options.jobQueueDistributedLockTimeout i.toCircumstance s.db = (db,a)) :
      db.jobQueue = s.db.jobQueue := by
    obtain ⟨id,-,ht⟩ | ⟨rfl,-⟩ := acquire_cases ha
    · obtain ⟨-,rfl⟩ | ⟨-,-,rfl⟩ | ⟨_,-,-,-,-,rfl⟩ := tryAcquireWithEntity_eq_ok ht <;> rfl
    · rfl
  unfold acquireLock at h
  split at h <;> rename_i ha
  · cases h
    exact ⟨hdb ha,rfl⟩
  · cases h
    exact ⟨hdb ha,rfl⟩
  · obtain ⟨hq,hf⟩ := (leave_spec h).1
    exact ⟨hq.trans (hdb ha),hf⟩

/-- Either a row is taken and the lock is released next, or no queue row is touched. -/
theorem fetchUnder_spec (h : fetchUnder options queues lock i s = (s',r)) : r = none ∧
    (s'.db.jobQueue = s.db.jobQueue ∧ (s'.fetchedJob = none ∨ s'.fetchedJob = s.fetchedJob) ∨
      s'.position = .release lock none ∧ ∃ job, s'.fetchedJob = some job ∧
        fetch options.invisibilityTimeout i.queueOrder queues i.token i.utcNow s.db =
          .ok (some job,s'.db)) := by
  unfold fetchUnder at h
  split at h
  · cases h
    exact ⟨rfl,.inl ⟨rfl,.inr rfl⟩⟩
  · rename_i job db hw
    cases h
    refine ⟨rfl,?_⟩
    obtain ht | he := wrapForTransaction_eq_ok hw
    · unfold fetchTransaction at ht
      split at ht
      · cases ht
      · have hfetch := mapError_eq_ok ht
        cases job with
        | some job => exact .inr ⟨rfl,job,rfl,hfetch⟩
        | none =>
          obtain ⟨c,-,⟨-,rfl,-⟩ | ⟨i,-,j,-,hsome,-⟩⟩ := fetch_eq_ok hfetch
          · exact .inl ⟨rfl,.inl rfl⟩
          · cases hsome
    · cases he
      exact .inl ⟨rfl,.inl rfl⟩

theorem afterUsing_quiet (h : afterUsing pending s = (s',r)) : Quiet s s' := by
  unfold afterUsing at h
  split at h
  · exact (leave_spec h).1
  · cases h
    exact ⟨rfl,rfl⟩
  · cases h
    exact ⟨rfl,rfl⟩

theorem afterUsing_job {job : FetchedJob} (hjob : s.fetchedJob = some job) :
    afterUsing none s = (s,some (.ok job)) := by
  unfold afterUsing
  rw [hjob]

/-- The release is over, is tried again, or has let an exception out. -/
theorem disposeLock_spec (h : disposeLock lock pending i s = (s',r)) :
    ∃ s₁, Quiet s s₁ ∧ s₁.position = s.position ∧
      (¬ Escapes lock i ∧ (afterUsing pending s₁ = (s',r) ∨ s' = s₁ ∧ r = none) ∨
        ∃ e, leave e s₁ = (s',r) ∧ (Escapes lock i ↔ e.kind ≠ .distributedLockTimeout)) := by
  have hquiet : Quiet s { s with db := (dispose lock i.toCircumstance s.db).1 } := by
    obtain hd | ⟨id,-,hd⟩ := dispose_db lock i.toCircumstance s.db <;> rw [hd] <;> exact ⟨rfl,rfl⟩
  have hraised (he : Escapes lock i) :
      ∃ e, (dispose lock i.toCircumstance s.db).2 = .raised e ∧ e.kind = .other := by
    obtain ⟨hl,e,hi,hd,hk⟩ := he
    exact ⟨e,dispose_raised.mpr ⟨hl,hi,hd,by simp [hk]⟩,hk⟩
  refine ⟨_,hquiet,rfl,?_⟩
  unfold disposeLock at h
  split at h <;> rename_i hd <;> rw [hd] at hraised ⊢
  · refine .inl ⟨fun he => ?_,.inl h⟩
    obtain ⟨e,he,-⟩ := hraised he
    cases he
  · cases h
    refine .inl ⟨fun he => ?_,.inr ⟨rfl,rfl⟩⟩
    obtain ⟨e,he,-⟩ := hraised he
    cases he
  · rename_i e
    refine .inr ⟨e,h,fun he => ?_,fun hk => ?_⟩
    · obtain ⟨e',he',hk'⟩ := hraised he
      cases he'
      simp [hk']
    · obtain ⟨hl,hi,hdead,htr⟩ := dispose_raised.mp (congrArg Prod.snd hd)
      refine ⟨hl,e,hi,hdead,?_⟩
      cases hkind : e.kind with
      | distributedLockTimeout => exact absurd hkind hk
      | transaction => exact absurd hkind htr
      | other => rfl

/-- With a job fetched, a row is marked and the call is on its way to return it. -/
structure Tracked (db₀ : Db) (s : CallState) : Prop where
  idle : s.fetchedJob = none → s.db.jobQueue = db₀.jobQueue
  taken : s.fetchedJob ≠ none → ¬ Untouched db₀ s.db ∧
    (s.position = .poll ∨ ∃ lock, s.position = .release lock none)

theorem tracked_of_quiet (hs : Tracked db₀ s) (h : Quiet s s')
    (hpos : s.fetchedJob ≠ none → s'.position = s.position ∨ s'.position = .poll) :
    Tracked db₀ s' := by
  constructor
  · intro hnone
    exact h.jobQueue.trans (hs.idle (h.fetchedJob.symm.trans hnone))
  · intro hsome
    rw [h.fetchedJob] at hsome
    obtain ⟨hmarked,hp⟩ := hs.taken hsome
    refine ⟨fun hu => hmarked ((untouched_congr rfl h.jobQueue).mp hu),?_⟩
    obtain hsame | hpoll := hpos hsome
    · rwa [hsame]
    · exact .inl hpoll

theorem step_quiet (hpos : ∀ lock, s.position ≠ .fetch lock) (h : step options queues i s = (s',r)) :
    Quiet s s' := by
  unfold step at h
  split at h
  case h_1 =>
    split at h <;> cases h <;> exact ⟨rfl,rfl⟩
  case h_2 => exact acquireLock_quiet h
  case h_3 lock hp => exact absurd hp (hpos lock)
  case h_4 =>
    obtain ⟨s₁,hq,-,⟨-,ha | ⟨rfl,-⟩⟩ | ⟨e,hl,-⟩⟩ := disposeLock_spec h
    · exact hq.trans (afterUsing_quiet ha)
    · exact hq
    · exact hq.trans (leave_spec hl).1
  case h_5 =>
    split at h
    · cases h
      exact ⟨rfl,rfl⟩
    · split at h <;> cases h <;> exact ⟨rfl,rfl⟩

/-- A step from a state with a job fetched: it goes on and stays on its way, returns the job,
or leaves the call by an exception. -/
theorem step_taken (hs : Tracked db₀ s) (hjob : s.fetchedJob ≠ none)
    (h : step options queues i s = (s',r)) : Quiet s s' ∧
      (r = none ∧ (s'.position = s.position ∨ s'.position = .poll) ∧ ¬ LosesJob i s ∨
        (∃ job, r = some (.ok job)) ∧ ¬ LosesJob i s ∨ (∃ e, r = some (.error e)) ∧ LosesJob i s) := by
  obtain ⟨job,hjob'⟩ := Option.ne_none_iff_exists'.mp hjob
  obtain ⟨-,hp | ⟨lock,hp⟩⟩ := hs.taken hjob
  · refine ⟨step_quiet (by simp [hp]) h,?_⟩
    have hloses : LosesJob i s ↔ i.thrown ≠ none := by simp [LosesJob,hjob,hp]
    rw [hloses]
    simp only [step,hp,hjob'] at h
    split at h <;> rename_i hi <;> cases h
    · exact .inr (.inr ⟨⟨_,rfl⟩,by simp [hi]⟩)
    · exact .inr (.inl ⟨⟨_,rfl⟩,by simp [hi]⟩)
  · refine ⟨step_quiet (by simp [hp]) h,?_⟩
    have hloses : LosesJob i s ↔ Escapes lock i := by simp [LosesJob,hjob,hp]
    rw [hloses]
    simp only [step,hp] at h
    obtain ⟨s₁,hq,hp₁,⟨hesc,ha | ⟨rfl,rfl⟩⟩ | ⟨e,hl,hesc⟩⟩ := disposeLock_spec h
    · rw [afterUsing_job (hq.fetchedJob.trans hjob')] at ha
      cases ha
      exact .inr (.inl ⟨⟨_,rfl⟩,hesc⟩)
    · exact .inl ⟨rfl,.inl hp₁,hesc⟩
    · obtain ⟨-,⟨hk,rfl,hpoll⟩ | ⟨hk,rfl⟩⟩ := leave_spec hl
      · exact .inl ⟨rfl,.inr hpoll,fun he => hesc.mp he hk⟩
      · exact .inr (.inr ⟨⟨_,rfl⟩,hesc.mpr hk⟩)

theorem step_tracked (hT : 0 < options.invisibilityTimeout) (hs : Tracked db₀ s)
    (h : step options queues i s = (s',none)) : Tracked db₀ s' ∧ ¬ LosesJob i s := by
  by_cases hjob : s.fetchedJob = none
  · refine ⟨?_,fun hl => hl.1 hjob⟩
    by_cases hpos : ∀ lock, s.position ≠ .fetch lock
    · exact tracked_of_quiet hs (step_quiet hpos h) (absurd hjob)
    · push Not at hpos
      obtain ⟨lock,hp⟩ := hpos
      simp only [step,hp] at h
      obtain ⟨-,⟨hq,hf⟩ | ⟨hp',job,hf,hfetch⟩⟩ := fetchUnder_spec h
      · refine ⟨fun _ => hq.trans (hs.idle hjob),fun hsome => absurd ?_ hsome⟩
        exact hf.elim id (·.trans hjob)
      · refine ⟨fun hnone => ?_,fun _ => ⟨fun hu => ?_,.inr ⟨lock,hp'⟩⟩⟩
        · cases hf.symm.trans hnone
        · exact not_untouched_of_fetch hT hfetch ((untouched_congr (hs.idle hjob) rfl).mpr hu)
  · obtain ⟨hq,⟨-,hp,hl⟩ | ⟨⟨job,hr⟩,-⟩ | ⟨⟨e,hr⟩,-⟩⟩ := step_taken hs hjob h
    · exact ⟨tracked_of_quiet hs hq fun _ => hp,hl⟩
    · cases hr
    · cases hr

theorem step_ends {r : Except Thrown FetchedJob} (hs : Tracked db₀ s)
    (h : step options queues i s = (s',some r)) :
    (∀ e, r = .error e → Untouched db₀ s'.db) ↔ ¬ LosesJob i s := by
  by_cases hjob : s.fetchedJob = none
  · have hq : s'.db.jobQueue = db₀.jobQueue := by
      by_cases hpos : ∀ lock, s.position ≠ .fetch lock
      · exact (step_quiet hpos h).jobQueue.trans (hs.idle hjob)
      · push Not at hpos
        obtain ⟨lock,hp⟩ := hpos
        simp only [step,hp] at h
        cases (fetchUnder_spec h).1
    exact ⟨fun _ hl => hl.1 hjob,fun _ _ _ => untouched_of_eq hq⟩
  · obtain ⟨hq,⟨hr,-⟩ | ⟨⟨job,hr⟩,hl⟩ | ⟨⟨e,hr⟩,hl⟩⟩ := step_taken hs hjob h
    · cases hr
    · cases hr
      exact ⟨fun _ => hl,fun _ => nofun⟩
    · cases hr
      refine ⟨fun hu => absurd ?_ (hs.taken hjob).1,fun hn => absurd hl hn⟩
      exact (untouched_congr rfl hq.jobQueue).mp (hu e rfl)

end Steps

/-- A call that leaves by an exception has taken nothing, exactly if none of its steps loses the
job. The setter of the option keeps the invisibility timeout positive. -/
theorem dequeue_takes_nothing_iff (options : Options) (hT : 0 < options.invisibilityTimeout)
    (queues : List String) (is : ℕ → Circumstance) (db : Db) (n : ℕ) (s : CallState)
    (r : Except Thrown FetchedJob) (h : dequeue options queues n is db = (s,some r)) :
    (∀ e, r = .error e → Untouched db s.db) ↔
      (queues ≠ [] → ∀ k < n, ∀ s₁, run (step options queues) k is ⟨db,.head,none⟩ = (s₁,none) →
        ¬ LosesJob (is k) s₁) := by
  unfold dequeue at h
  split_ifs at h with hqueues
  · cases h
    exact ⟨fun _ hne => absurd hqueues hne,fun _ _ _ => untouched_of_eq rfl⟩
  · rw [run_exit_iff (I := Tracked db) (C := fun i s => ¬ LosesJob i s)
      (Q := fun s (r : Except Thrown FetchedJob) => ∀ e, r = .error e → Untouched db s.db)
      (fun i s s' hs hstep => step_tracked hT hs hstep)
      (fun i s s' r hs hstep => step_ends hs hstep) ⟨fun _ => rfl,absurd rfl⟩ h]
    exact ⟨fun hall _ => hall,fun hall => hall hqueues⟩

def queued : Db := { Db.empty with
  job := Table.empty.insert ⟨0,"a","",0,none,none,none,none⟩
  jobQueue := Table.empty.insert ⟨0,some 1,"default",none,none⟩ }

def defaults : Options := ⟨9000000000,600000000⟩

def calm : Circumstance := ⟨⟨none,.stored,90000000000,true,false,false⟩,.stored,"token"⟩

def fetchFails : ℕ → Circumstance
  | 2 => { calm with thrown := some ⟨.other,false⟩ }
  | _ => calm

/-- No connection is left in the pool for the delete of the lock row, say, which is an
InvalidOperationException. -/
def releaseFails : ℕ → Circumstance
  | 3 => { calm with thrown := some ⟨.other,false⟩ }
  | _ => calm

theorem dequeue_takes_nothing_fetchFails :
    (dequeue defaults ["default"] 4 fetchFails queued).2 = some (.error ⟨.other,false⟩) ∧
    Untouched queued (dequeue defaults ["default"] 4 fetchFails queued).1.db := by
  refine ⟨rfl,?_⟩
  refine (dequeue_takes_nothing_iff defaults (by decide) ["default"] fetchFails queued 4 _ _
    (Prod.ext rfl rfl)).mpr (fun _ k hk s₁ h hloses => ?_) _ rfl
  have hidle : s₁.fetchedJob = none := by
    obtain rfl | rfl | rfl | rfl : k = 0 ∨ k = 1 ∨ k = 2 ∨ k = 3 := by omega
    all_goals
      cases h
      rfl
  exact hloses.1 hidle

/-- The call fails and the row stays fetched. -/
theorem dequeue_loses_job :
    (dequeue defaults ["default"] 4 releaseFails queued).2 = some (.error ⟨.other,false⟩) ∧
    (dequeue defaults ["default"] 4 releaseFails queued).1.db.jobQueue.rows =
      [⟨1,some 1,"default",some 90000000000,some "token"⟩] ∧
    ¬ Untouched queued (dequeue defaults ["default"] 4 releaseFails queued).1.db :=
  ⟨rfl,rfl,fun h => absurd (h 1) (by decide)⟩

end Dequeue
end HangfireStorage
