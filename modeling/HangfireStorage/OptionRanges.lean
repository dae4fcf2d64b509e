import HangfireStorage.Dequeue
import HangfireStorage.StorageOptions

/-!
# What Dequeue makes of the options

Any positive span is accepted. The wait for the mutex, the expiry of the lock and the cut-off of
the fetch have ranges of their own.
-/

namespace HangfireStorage
namespace OptionRanges

open DistributedLock JobQueue

/-- The conversion in `Monitor.TryEnter`: whole milliseconds, -1 for an infinite wait. -/
def tryEnterMilliseconds (timeout : ℤ) : Except Fault ℤ :=
  let tm := timeout.tdiv DateTime.ticksPerMillisecond
  if tm < -1 ∨ 2147483647 < tm then .error .argumentOutOfRange else .ok tm

/-- No time arithmetic of a call of `Dequeue` is out of range: the wait of `TryMutex`, the expiry
of the lock row and the cut-off of the fetch, whatever the database holds. -/
structure Usable (options : FluentNHibernateStorageOptions) (utcNow : ℤ) : Prop where
  mutex : tryEnterMilliseconds options.queuePollInterval.ticks ≠ .error .argumentOutOfRange
  expiry : ∀ o db, tryAcquireWithEntity o Dequeue.resource
    options.jobQueueDistributedLockTimeout.ticks utcNow db ≠ .error .argumentOutOfRange
  cutoff : ∀ o queues token db, fetch options.invisibilityTimeout.ticks o queues token utcNow db ≠
    .error .argumentOutOfRange

/-- The expiry is before the year 10000, the time-out of a job counted in milliseconds is not
longer than the years there have been, and the poll interval has an Int32 of milliseconds. -/
structure WithinRange (options : FluentNHibernateStorageOptions) (utcNow : ℤ) : Prop where
  jobQueueDistributedLockTimeout :
    options.jobQueueDistributedLockTimeout.ticks ≤ DateTime.maxTicks - utcNow
  invisibilityTimeout : (options.invisibilityTimeout.ticks+5000)/10000*10000 ≤ utcNow
  queuePollInterval : options.queuePollInterval.ticks < 2147483648*10000

section Arithmetic

variable {T now : ℤ} {db : Db}

theorem tryEnterMilliseconds_iff (hT : 0 < T) :
    tryEnterMilliseconds T ≠ .error .argumentOutOfRange ↔ T < 2147483648*10000 := by
  unfold tryEnterMilliseconds DateTime.ticksPerMillisecond
  rw [Int.tdiv_eq_ediv_of_nonneg hT.le]
  dsimp only
  split_ifs with h
  · simp only [ne_eq,not_true_eq_false,false_iff]
    omega
  · simp only [ne_eq,reduceCtorEq,not_false_eq_true,true_iff]
    omega

theorem add_ne_iff {t span : ℤ} :
    DateTime.add t span ≠ .error .argumentOutOfRange ↔ DateTime.InRange (t+span) := by
  rw [ne_eq,DateTime.add_eq_error,and_iff_left rfl,not_not]

theorem tryAcquire_error {o : RowOrder DistributedLockRow} {resource : String} {f : Fault}
    (h : tryAcquireWithEntity o resource T now db = .error f) :
    f = .argumentOutOfRange ∧ DateTime.add now T = .error .argumentOutOfRange := by
  unfold tryAcquireWithEntity at h
  split at h
  · rename_i f' hadd
    cases h
    obtain ⟨-,rfl⟩ := DateTime.add_eq_error.mp hadd
    exact ⟨rfl,hadd⟩
  · split at h
    · cases h
    · split_ifs at h

theorem tryAcquire_ne_iff {resource : String} :
    (∀ o db, tryAcquireWithEntity o resource T now db ≠ .error .argumentOutOfRange) ↔
      DateTime.InRange (now+T) := by
  rw [← add_ne_iff]
  constructor
  · intro h hadd
    refine h .stored Db.empty ?_
    rw [tryAcquireWithEntity,hadd]
  · intro h o db hacquire
    exact h (tryAcquire_error hacquire).2

/-- A fetch that throws is out of range or meets a row without a job. -/
theorem fetch_error {o : RowOrder JobQueueRow} {queues : List String} {token : String} {f : Fault}
    (h : fetch T o queues token now db = .error f) :
    f = .argumentOutOfRange ∧ cutoff T now = .error .argumentOutOfRange ∨
      f = .nullReference ∧ ∃ row ∈ db.jobQueue.rows, row.job = none := by
  unfold fetch at h
  split at h
  · rename_i f' hcut
    cases h
    obtain ⟨-,rfl⟩ := DateTime.add_eq_error.mp hcut
    exact .inl ⟨rfl,hcut⟩
  · split at h
    · cases h
    · rename_i row hfirst
      split at h <;> cases h
      exact .inr ⟨rfl,row,(mem_candidates.mp (RowOrder.firstOrDefault_mem hfirst)).1,‹_›⟩

theorem fetch_ne_iff : (∀ o queues token db, fetch T o queues token now db ≠
    .error .argumentOutOfRange) ↔ cutoff T now ≠ .error .argumentOutOfRange := by
  constructor
  · intro h hcut
    refine h .stored [] "" Db.empty ?_
    rw [fetch,hcut]
  · intro h o queues token db hfetch
    obtain ⟨-,hcut⟩ | ⟨hnull,-⟩ := fetch_error hfetch
    · exact h hcut
    · cases hnull

theorem cutoff_ne_iff (hT : 0 < T) (hnow : DateTime.InRange now) :
    cutoff T now ≠ .error .argumentOutOfRange ↔ (T+5000)/10000*10000 ≤ now := by
  rw [cutoff,DateTime.addSeconds,add_ne_iff,DateTime.roundToMilliseconds_neg hT]
  obtain ⟨h₀,hmax⟩ := hnow
  unfold DateTime.InRange DateTime.ticksPerMillisecond
  constructor
  · intro h
    have := h.1
    omega
  · intro h
    have := Int.ediv_nonneg (a := T+5000) (b := 10000) (by omega) (by decide)
    omega

end Arithmetic

/-- Dequeue can use the options if and only if they are within the three ranges. -/
theorem usable_iff (options : FluentNHibernateStorageOptions) {utcNow : ℤ}
    (hnow : DateTime.InRange utcNow) : Usable options utcNow ↔ WithinRange options utcNow := by
  have hmutex := tryEnterMilliseconds_iff options.queuePollInterval.pos
  have hcutoff := fetch_ne_iff.trans (cutoff_ne_iff options.invisibilityTimeout.pos hnow)
  have hexpiry : (∀ o db, tryAcquireWithEntity o Dequeue.resource
      options.jobQueueDistributedLockTimeout.ticks utcNow db ≠ .error .argumentOutOfRange) ↔
        options.jobQueueDistributedLockTimeout.ticks ≤ DateTime.maxTicks - utcNow := by
    have hpos := options.jobQueueDistributedLockTimeout.pos
    have h₀ := hnow.1
    rw [tryAcquire_ne_iff,DateTime.InRange]
    omega
  exact ⟨fun h => ⟨hexpiry.mp h.expiry,hcutoff.mp h.cutoff,hmutex.mp h.mutex⟩,
    fun h => ⟨hmutex.mpr h.queuePollInterval,hexpiry.mpr h.jobQueueDistributedLockTimeout,
      hcutoff.mpr h.invisibilityTimeout⟩⟩

section Rounding

open DateTime (ticksPerMillisecond)

/-- The doubles in which `AddSeconds` counts may take a span that lies between two milliseconds to
either of them. -/
structure Rounds (round : ℤ → ℤ) : Prop where
  whole : ∀ k, round (k*ticksPerMillisecond) = k
  near : ∀ span, |round span*ticksPerMillisecond - span| < ticksPerMillisecond

def timeoutBy (round : ℤ → ℤ) (invisibilityTimeout : ℤ) : ℤ :=
  -(round (-invisibilityTimeout)*ticksPerMillisecond)

theorem rounds_roundToMilliseconds : Rounds DateTime.roundToMilliseconds where
  whole k := by
    have h := DateTime.roundToMilliseconds_of_dvd (Int.dvd_mul_left k ticksPerMillisecond)
    exact mul_right_cancel₀ (by decide) h
  near span := by
    have hneg (t : ℤ) := @DateTime.roundToMilliseconds_neg t
    unfold ticksPerMillisecond
    rw [abs_lt]
    obtain hs | hs := lt_or_ge span 0
    · have h := hneg (-span) (by omega)
      rw [neg_neg] at h
      omega
    · unfold DateTime.roundToMilliseconds ticksPerMillisecond
      rw [if_pos hs,Int.tdiv_eq_ediv_of_nonneg (by omega)]
      omega

variable {round : ℤ → ℤ} {T now : ℤ}

theorem timeoutBy_whole (hround : Rounds round) (hT : ticksPerMillisecond ∣ T) :
    timeoutBy round T = T := by
  obtain ⟨k,rfl⟩ := hT
  rw [timeoutBy,show -(ticksPerMillisecond*k) = -k*ticksPerMillisecond by ring,hround.whole]
  ring

theorem cutoff_timeoutBy (round : ℤ → ℤ) (T now : ℤ) :
    cutoff (timeoutBy round T) now = DateTime.add now (-timeoutBy round T) := by
  rw [cutoff,DateTime.addSeconds,DateTime.roundToMilliseconds_of_dvd]
  rw [timeoutBy,neg_neg]
  exact Int.dvd_mul_left _ _

theorem fetch_roundToMilliseconds (o : RowOrder JobQueueRow) (queues : List String) (token : String)
    (db : Db) : fetch (timeoutBy DateTime.roundToMilliseconds T) o queues token now db =
      fetch T o queues token now db := by
  have hcut : cutoff (timeoutBy DateTime.roundToMilliseconds T) now = cutoff T now := by
    rw [cutoff_timeoutBy,timeoutBy,neg_neg]
    rfl
  rw [fetch,fetch,hcut]

/-- However `AddSeconds` rounds between two milliseconds, the range of the time-out is off by less
than one, and by nothing where the time-out is a whole number of them. -/
theorem fetch_range_of_rounding (hround : Rounds round) (hT : 0 < T) (hnow : DateTime.InRange now) :
    (T+ticksPerMillisecond ≤ now → ∀ o queues token db,
      fetch (timeoutBy round T) o queues token now db ≠ .error .argumentOutOfRange) ∧
    (now+ticksPerMillisecond ≤ T → ∀ o queues token db,
      fetch (timeoutBy round T) o queues token now db = .error .argumentOutOfRange) ∧
    (ticksPerMillisecond ∣ T → ((∀ o queues token db,
      fetch (timeoutBy round T) o queues token now db ≠ .error .argumentOutOfRange) ↔ T ≤ now)) := by
  have hnear := abs_lt.mp (hround.near (-T))
  have hdef : timeoutBy round T = -(round (-T)*ticksPerMillisecond) := rfl
  obtain ⟨h₀,hmax⟩ := hnow
  refine ⟨fun hle => ?_,fun hle o queues token db => ?_,fun hwhole => ?_⟩
  · rw [fetch_ne_iff,cutoff_timeoutBy,add_ne_iff]
    constructor <;> unfold ticksPerMillisecond at * <;> omega
  · have hcut : cutoff (timeoutBy round T) now = .error .argumentOutOfRange := by
      rw [cutoff_timeoutBy,DateTime.add_eq_error]
      refine ⟨fun hin => ?_,rfl⟩
      have := hin.1
      omega
    rw [fetch,hcut]
  · rw [fetch_ne_iff,cutoff_timeoutBy,add_ne_iff,timeoutBy_whole hround hwhole]
    constructor
    · intro hin
      have := hin.1
      omega
    · intro hle
      constructor <;> omega

end Rounding

def dequeueOptions (options : FluentNHibernateStorageOptions) : Dequeue.Options :=
  ⟨options.invisibilityTimeout.ticks,options.jobQueueDistributedLockTimeout.ticks⟩

section Calls

open Dequeue LockScope Loop

variable {options : FluentNHibernateStorageOptions} {queues : List String} {i : Dequeue.Circumstance}
  {s s' : CallState} {r : Dequeue.Result}

/-- All queue rows have jobs, and no exception is on its way out of the using block. -/
structure Healthy (s : CallState) : Prop where
  jobs : ∀ row ∈ s.db.jobQueue.rows, row.job ≠ none
  calm : ∀ lock e, s.position ≠ .release lock (some e)

theorem healthy_of_quiet (hs : Healthy s) (h : Quiet s s')
    (hpos : ∀ lock e, s'.position ≠ .release lock (some e)) : Healthy s' :=
  ⟨h.jobQueue ▸ hs.jobs,hpos⟩

theorem acquire_raised {resource : String} {timeout : ℤ} {i : LockScope.Circumstance} {db db' : Db}
    {e : Thrown} (hi : i.thrown = none)
    (hu : tryAcquireWithEntity i.lockOrder resource timeout i.utcNow db ≠ .error .argumentOutOfRange)
    (h : acquire resource timeout i db = (db',.raised e)) : e.kind = .distributedLockTimeout := by
  have hok : ∃ res, tryMutex resource timeout i db = .ok res := by
    unfold tryMutex
    rw [hi]
    dsimp only
    split_ifs
    · cases ht : tryAcquireWithEntity i.lockOrder resource timeout i.utcNow db with
      | ok res => exact ⟨res,rfl⟩
      | error f =>
        obtain ⟨rfl,-⟩ := tryAcquire_error ht
        exact absurd ht hu
    · exact ⟨_,rfl⟩
  obtain ⟨⟨id,db₁⟩,hok⟩ := hok
  unfold acquire at h
  rw [hok] at h
  cases id with
  | some id => cases h
  | none =>
    simp only [wrapForTransaction] at h
    split_ifs at h <;> cases h
    rfl

theorem acquireLock_healthy (hi : i.thrown = none) (hu : Usable options i.utcNow)
    (hs : Healthy s) (hp : s.position = .acquire)
    (h : acquireLock (dequeueOptions options) i s = (s',r)) : r = none ∧ Healthy s' := by
  have hq := acquireLock_quiet h
  unfold acquireLock at h
  split at h <;> rename_i ha
  · cases h
    exact ⟨rfl,healthy_of_quiet hs hq nofun⟩
  · cases h
    exact ⟨rfl,healthy_of_quiet hs hq (by simp [hp])⟩
  · have htimeout := acquire_raised hi (hu.expiry _ _) ha
    obtain ⟨-,⟨-,rfl,hpoll⟩ | ⟨hk,-⟩⟩ := leave_spec h
    · exact ⟨rfl,healthy_of_quiet hs hq (by simp [hpoll])⟩
    · exact absurd htimeout hk

theorem fetch_jobs {T now : ℤ} {o : RowOrder JobQueueRow} {token : String} {db db' : Db}
    {job : Option FetchedJob} (hjobs : ∀ row ∈ db.jobQueue.rows, row.job ≠ none)
    (h : fetch T o queues token now db = .ok (job,db')) :
    ∀ row ∈ db'.jobQueue.rows, row.job ≠ none := by
  obtain ⟨c,-,⟨-,rfl,-⟩ | ⟨i,hi,-,-,-,rfl⟩⟩ := fetch_eq_ok h
  · exact hjobs
  · intro row hrow
    rw [Table.rows_put,List.mem_map] at hrow
    obtain ⟨row₀,hrow₀,rfl⟩ := hrow
    split_ifs
    · exact hjobs i (mem_candidates.mp hi).1
    · exact hjobs row₀ hrow₀

theorem fetchUnder_healthy {lock : Lock} (hi : i.thrown = none) (hu : Usable options i.utcNow)
    (hs : Healthy s) (h : fetchUnder (dequeueOptions options) queues lock i s = (s',r)) :
    r = none ∧ Healthy s' := by
  unfold fetchUnder fetchTransaction at h
  rw [hi] at h
  dsimp only at h
  cases hf : fetch (dequeueOptions options).invisibilityTimeout i.queueOrder queues i.token i.utcNow
    s.db with
  | ok res =>
    rw [hf] at h
    cases h
    exact ⟨rfl,fetch_jobs hs.jobs hf,nofun⟩
  | error f =>
    obtain ⟨rfl,-⟩ | ⟨-,row,hrow,hnone⟩ := fetch_error hf
    · exact absurd hf (hu.cutoff _ _ _ _)
    · exact absurd hnone (hs.jobs row hrow)

theorem disposeLock_healthy {lock : Lock} (hi : i.thrown = none) (hs : Healthy s)
    (h : disposeLock lock none i s = (s',r)) :
    (∀ e, r ≠ some (.error e)) ∧ (r = none → Healthy s') := by
  have hcalm : ¬ Escapes lock i := by
    rintro ⟨-,e,he,-⟩
    cases hi.symm.trans he
  have hdone : ∃ db, dispose lock i.toCircumstance s.db = (db,.done) := by
    unfold dispose
    rw [hi]
    split <;> exact ⟨_,rfl⟩
  obtain ⟨db,hdone⟩ := hdone
  obtain hdb : db.jobQueue = s.db.jobQueue := by
    obtain hd | ⟨id,-,hd⟩ := dispose_db lock i.toCircumstance s.db <;>
      rw [hdone] at hd <;> subst hd <;> rfl
  unfold disposeLock at h
  rw [hdone] at h
  cases hjob : s.fetchedJob with
  | some job =>
    simp only [afterUsing,hjob] at h
    cases h
    exact ⟨nofun,nofun⟩
  | none =>
    simp only [afterUsing,hjob] at h
    cases h
    exact ⟨nofun,fun _ => ⟨hdb ▸ hs.jobs,nofun⟩⟩

theorem step_healthy (hi : i.thrown = none) (hu : Usable options i.utcNow) (hs : Healthy s)
    (h : step (dequeueOptions options) queues i s = (s',r)) :
    (∀ e, r ≠ some (.error e)) ∧ (r = none → Healthy s') := by
  unfold step at h
  split at h
  case h_1 =>
    rw [hi] at h
    cases h
    exact ⟨nofun,fun _ => ⟨hs.jobs,nofun⟩⟩
  case h_2 hp =>
    obtain ⟨rfl,hs'⟩ := acquireLock_healthy hi hu hs hp h
    exact ⟨nofun,fun _ => hs'⟩
  case h_3 =>
    obtain ⟨rfl,hs'⟩ := fetchUnder_healthy hi hu hs h
    exact ⟨nofun,fun _ => hs'⟩
  case h_4 lock pending hp =>
    cases pending with
    | none => exact disposeLock_healthy hi hs h
    | some e => exact absurd hp (hs.calm lock e)
  case h_5 =>
    rw [hi] at h
    dsimp only at h
    split at h <;> cases h
    · exact ⟨nofun,nofun⟩
    · exact ⟨nofun,fun _ => ⟨hs.jobs,nofun⟩⟩

/-- A call with usable options ends in no error, however long it polls. -/
theorem dequeue_never_fails (hqueues : queues ≠ []) {is : ℕ → Dequeue.Circumstance} {db : Db}
    (his : ∀ k, (is k).thrown = none ∧ Usable options (is k).utcNow)
    (hdb : ∀ row ∈ db.jobQueue.rows, row.job ≠ none) (n : ℕ) (e : Thrown) :
    (dequeue (dequeueOptions options) queues n is db).2 ≠ some (.error e) := by
  intro hfail
  rw [dequeue,if_neg hqueues] at hfail
  let I := fun (is : ℕ → Dequeue.Circumstance) s =>
    (∀ k, (is k).thrown = none ∧ Usable options (is k).utcNow) ∧ Healthy s
  have hgo : ∀ is s s', I is s → step (dequeueOptions options) queues (is 0) s = (s',none) →
      I (later is) s' := fun is s s' ⟨his,hs⟩ hstep =>
    ⟨fun k => his (k+1),(step_healthy (his 0).1 (his 0).2 hs hstep).2 rfl⟩
  have h₀ : I is ⟨db,.head,none⟩ := ⟨his,hdb,fun _ _ => nofun⟩
  obtain ⟨is',s,⟨his',hs⟩,hlast⟩ := run_exit hgo h₀ (Prod.ext rfl hfail)
  exact (step_healthy (his' 0).1 (his' 0).2 hs hlast).1 e rfl

end Calls

open FluentNHibernateStorageOptions

def spring : ℤ := 638500000000000000

theorem usable_defaults : Usable defaults spring ↔ WithinRange defaults spring :=
  usable_iff defaults (by decide)

/-- The setter takes the longest span there is. The call then throws at its first fetch. -/
theorem never_invisible :
    ∃ options, setInvisibilityTimeout .maxValue defaults = .ok options ∧
      cutoff options.invisibilityTimeout.ticks spring = .error .argumentOutOfRange ∧
      ¬ Usable options spring ∧
      (Dequeue.dequeue (dequeueOptions options) ["default"] 4
        (fun _ => { Dequeue.calm with utcNow := spring }) Dequeue.queued).2 =
          some (.error ⟨.other,false⟩) := by
  refine ⟨_,setPositive_eq_ok_iff.mpr ⟨by decide,rfl⟩,rfl,fun h => ?_,rfl⟩
  exact h.cutoff .stored [] "" .empty rfl

end OptionRanges
end HangfireStorage
