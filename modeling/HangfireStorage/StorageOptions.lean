import HangfireStorage.Primitives

/-!
# The storage options

A setter stores a value or throws. What is stored has passed the check, so the record carries
it. `TablePrefix`, the renamer and the transaction options without a check are left out.
-/

namespace HangfireStorage

/-- The ticks of a TimeSpan are an Int64. -/
structure TimeSpan where
  ticks : ℤ
  inRange : -9223372036854775808 ≤ ticks ∧ ticks ≤ 9223372036854775807
  deriving DecidableEq

namespace TimeSpan

def zero : TimeSpan := ⟨0,by decide⟩

def maxValue : TimeSpan := ⟨9223372036854775807,by decide⟩

/-- The value without an opposite has no duration. -/
def duration (t : TimeSpan) : Except Fault TimeSpan :=
  if h : -9223372036854775808 < t.ticks then
    .ok ⟨|t.ticks|,by have := t.inRange; rw [le_abs,abs_le]; omega⟩
  else .error .overflow

end TimeSpan

structure PositiveTimeSpan extends TimeSpan where
  pos : 0 < ticks
  deriving DecidableEq

namespace ArgumentHelper

def throwIfValueIsNotPositive (value : TimeSpan) : Except Fault Unit :=
  if value = .zero then .error .argument
  else match value.duration with
    | .error f => .error f
    | .ok d => if value ≠ d then .error .argument else .ok ()

/-- The overload for integers; null passes. -/
def throwIfIntIsNotPositive (value : Option ℤ) : Except Fault Unit :=
  match value with
  | none => .ok ()
  | some v => if v ≤ 0 then .error .argument else .ok ()

theorem throwIfValueIsNotPositive_ok_iff {value : TimeSpan} :
    throwIfValueIsNotPositive value = .ok () ↔ 0 < value.ticks := by
  obtain ⟨t,ht⟩ := value
  simp only [throwIfValueIsNotPositive,TimeSpan.zero,TimeSpan.duration,TimeSpan.mk.injEq]
  by_cases h₀ : t = 0
  · simp [h₀]
  · rw [if_neg h₀]
    by_cases hmin : -9223372036854775808 < t
    · rw [dif_pos hmin]
      by_cases hpos : 0 < t
      · simp [abs_of_pos hpos,hpos]
      · have hne : t ≠ |t| := fun he => hpos (lt_of_le_of_ne (he ▸ abs_nonneg t) (Ne.symm h₀))
        simp [hne,hpos]
    · rw [dif_neg hmin]
      simp only [reduceCtorEq,false_iff,not_lt]
      omega

theorem throwIfIntIsNotPositive_ok_iff {value : Option ℤ} :
    throwIfIntIsNotPositive value = .ok () ↔ ∀ v ∈ value, 0 < v := by
  cases value with
  | none => simp [throwIfIntIsNotPositive]
  | some v =>
    simp only [throwIfIntIsNotPositive,Option.mem_some_iff,forall_eq']
    split_ifs with h
    · simp [h]
    · simpa using h

end ArgumentHelper

structure FluentNHibernateStorageOptions where
  distributedLockPollInterval : PositiveTimeSpan
  deadlockRetryInterval : PositiveTimeSpan
  distributedLockWaitTimeout : PositiveTimeSpan
  jobQueueDistributedLockTimeout : PositiveTimeSpan
  invisibilityTimeout : PositiveTimeSpan
  queuePollInterval : PositiveTimeSpan
  dbmsTimeSyncInterval : PositiveTimeSpan
  countersAggregateInterval : PositiveTimeSpan
  transactionTimeout : PositiveTimeSpan
  jobExpirationCheckInterval : { t : TimeSpan // 0 ≤ t.ticks }
  dashboardJobListLimit : { n : Option ℤ // ∀ v ∈ n, 0 < v }
  deleteExpiredBatchSize : ℤ
  deriving DecidableEq

namespace FluentNHibernateStorageOptions

open ArgumentHelper

/-- `TimeSpan.FromSeconds` of a constant. -/
def seconds (n : ℕ) (h : 0 < n ∧ n ≤ 86400) : PositiveTimeSpan :=
  ⟨⟨n*10000000,by omega⟩,by show 0 < (n : ℤ)*10000000; omega⟩

/-- What the constructor and the initializers set. -/
def defaults : FluentNHibernateStorageOptions where
  distributedLockPollInterval := seconds 15 (by decide)
  deadlockRetryInterval := seconds 1 (by decide)
  distributedLockWaitTimeout := seconds 50 (by decide)
  jobQueueDistributedLockTimeout := seconds 60 (by decide)
  invisibilityTimeout := seconds 900 (by decide)
  queuePollInterval := seconds 15 (by decide)
  dbmsTimeSyncInterval := seconds 300 (by decide)
  countersAggregateInterval := seconds 300 (by decide)
  transactionTimeout := seconds 60 (by decide)
  jobExpirationCheckInterval := ⟨(seconds 900 (by decide)).toTimeSpan,by decide⟩
  dashboardJobListLimit := ⟨some 50000,by decide⟩
  deleteExpiredBatchSize := 1000

/-- The body of the setters that want a positive span. -/
def setPositive (value : TimeSpan) (store : PositiveTimeSpan → FluentNHibernateStorageOptions) :
    Except Fault FluentNHibernateStorageOptions :=
  match h : throwIfValueIsNotPositive value with
  | .error f => .error f
  | .ok () => .ok (store ⟨value,throwIfValueIsNotPositive_ok_iff.mp h⟩)

variable (value : TimeSpan) (o : FluentNHibernateStorageOptions)

def setDistributedLockPollInterval : Except Fault FluentNHibernateStorageOptions :=
  setPositive value fun v => { o with distributedLockPollInterval := v }

def setDeadlockRetryInterval : Except Fault FluentNHibernateStorageOptions :=
  setPositive value fun v => { o with deadlockRetryInterval := v }

def setDistributedLockWaitTimeout : Except Fault FluentNHibernateStorageOptions :=
  setPositive value fun v => { o with distributedLockWaitTimeout := v }

def setJobQueueDistributedLockTimeout : Except Fault FluentNHibernateStorageOptions :=
  setPositive value fun v => { o with jobQueueDistributedLockTimeout := v }

def setInvisibilityTimeout : Except Fault FluentNHibernateStorageOptions :=
  setPositive value fun v => { o with invisibilityTimeout := v }

def setQueuePollInterval : Except Fault FluentNHibernateStorageOptions :=
  setPositive value fun v => { o with queuePollInterval := v }

def setDbmsTimeSyncInterval : Except Fault FluentNHibernateStorageOptions :=
  setPositive value fun v => { o with dbmsTimeSyncInterval := v }

def setCountersAggregateInterval : Except Fault FluentNHibernateStorageOptions :=
  setPositive value fun v => { o with countersAggregateInterval := v }

def setTransactionTimeout : Except Fault FluentNHibernateStorageOptions :=
  setPositive value fun v => { o with transactionTimeout := v }

/-- The one interval that may be zero. -/
def setJobExpirationCheckInterval : Except Fault FluentNHibernateStorageOptions :=
  if h : value.ticks < 0 then .error .argument
  else .ok { o with jobExpirationCheckInterval := ⟨value,not_lt.mp h⟩ }

def setDashboardJobListLimit (value : Option ℤ) (o : FluentNHibernateStorageOptions) :
    Except Fault FluentNHibernateStorageOptions :=
  match h : throwIfIntIsNotPositive value with
  | .error f => .error f
  | .ok () => .ok { o with dashboardJobListLimit := ⟨value,throwIfIntIsNotPositive_ok_iff.mp h⟩ }

variable {value}

/-- A setter accepts the positive spans and no others. -/
theorem setPositive_eq_ok_iff {store : PositiveTimeSpan → FluentNHibernateStorageOptions}
    {o' : FluentNHibernateStorageOptions} :
    setPositive value store = .ok o' ↔ ∃ h : 0 < value.ticks, o' = store ⟨value,h⟩ := by
  unfold setPositive
  split
  · rename_i f h
    have hpos : ¬ 0 < value.ticks := fun hp => by
      rw [throwIfValueIsNotPositive_ok_iff.mpr hp] at h
      cases h
    simp [hpos]
  · rename_i h
    have hpos := throwIfValueIsNotPositive_ok_iff.mp h
    simp [hpos,eq_comm]

end FluentNHibernateStorageOptions
end HangfireStorage
