import HangfireStorage.JobStorageConnection
import HangfireStorage.KeyedSums
import HangfireStorage.Servers

/-!
# The monitoring API

The details of one job, the pages of one queue and the statistics. Deserializing jobs and dates is
Hangfire.Core's; a job whose type does not load is null.
-/

namespace HangfireStorage
namespace MonitoringApi

open JobStorageConnection

structure StateHistoryDto where
  stateName : String
  createdAt : ℤ
  reason : Option String
  data : Dictionary
  deriving DecidableEq

structure JobDetailsDto (J : Type) where
  createdAt : ℤ
  expireAt : Option ℤ
  job : Option J
  history : List StateHistoryDto
  properties : Dictionary
  deriving DecidableEq

section Details

variable {J : Type} (ser : SerializationHelper) (ordinalIgnoreCase : StringComparer)
  (deserializeJob : String → String → Except Fault (Option J))

def stateHistory (jobState : JobStateRow) : Except Fault StateHistoryDto :=
  match ser.deserialize jobState.data with
  | .error f => .error f
  | .ok source => (Dictionary.copy ordinalIgnoreCase source).map fun data =>
    ⟨jobState.name,jobState.createdAt,jobState.reason,data⟩

/-- The job's children are loaded in orders of the database's choosing. -/
def detailsOf (op : RowOrder JobParameterRow) (os : RowOrder JobStateRow) (job : JobRow) (db : Db) :
    Except Fault (JobDetailsDto J) :=
  match toDictionary ((op.arrange (db.jobParameter.rows.filter fun x => x.job = job.id)).map fun x =>
    (x.name,x.value)) with
  | .error f => .error f
  | .ok parameters =>
    match (orderByDescendingId (os.arrange (db.jobState.rows.filter fun i => i.job = job.id))).mapM
      (stateHistory ser ordinalIgnoreCase) with
    | .error f => .error f
    | .ok history => (deserializeJob job.invocationData job.arguments).map fun j =>
      ⟨job.createdAt,job.expireAt,j,history,parameters⟩

def jobDetails (op : RowOrder JobParameterRow) (os : RowOrder JobStateRow) (jobId : String)
    (db : Db) : Except Fault (Option (JobDetailsDto J)) :=
  match StringToInt32Converter.convert jobId with
  | none => .ok none
  | some v =>
    match SqlUtil.singleOrDefault (db.job.rows.filter fun i => Row.id i = v) with
    | .error f => .error f
    | .ok none => .ok none
    | .ok (some job) => (detailsOf ser ordinalIgnoreCase deserializeJob op os job db).map some

end Details

section Pages

/-- The name of Hangfire.Core's EnqueuedState. -/
def enqueuedStateName : String := "Enqueued"

structure EnqueuedJobDto (J : Type) where
  job : Option J
  state : Option String
  enqueuedAt : Option ℤ
  deriving DecidableEq

structure FetchedJobDto (J : Type) where
  job : Option J
  state : Option String
  deriving DecidableEq

variable {J T : Type} (ser : SerializationHelper) (ordinalIgnoreCase : StringComparer)
  (deserializeJob : String → String → Except Fault (Option J))
  (deserializeNullableDateTime : Option String → Except Fault (Option ℤ))

/-- The indexer of a dictionary reference, which may be null. -/
def getItem (key : String) : Option Dictionary → Except Fault (Option String)
  | none => .error .nullReference
  | some d =>
    match d.entries.find? fun e => ordinalIgnoreCase.normal e.1 = ordinalIgnoreCase.normal key with
    | none => .error .keyNotFound
    | some e => .ok e.2

/-- One round of `DeserializeJobs`. -/
def deserialize (selector : JobRow → Option J → Option Dictionary → Except Fault T) (job : JobRow) :
    Except Fault T :=
  match ser.deserialize job.stateData with
  | .error f => .error f
  | .ok deserializedData =>
    match deserializedData.elim (.ok none) fun d =>
      (Dictionary.copy ordinalIgnoreCase (some d)).map some with
    | .error f => .error f
    | .ok stateData =>
      match deserializeJob job.invocationData job.arguments with
      | .error f => .error f
      | .ok j => selector job j stateData

def enqueuedJob : JobRow → Except Fault (EnqueuedJobDto J) :=
  deserialize ser ordinalIgnoreCase deserializeJob fun sqlJob job stateData =>
    if sqlJob.stateName = some enqueuedStateName then
      match getItem ordinalIgnoreCase "EnqueuedAt" stateData with
      | .error f => .error f
      | .ok text => (deserializeNullableDateTime text).map fun enqueuedAt =>
        ⟨job,sqlJob.stateName,enqueuedAt⟩
    else .ok ⟨job,sqlJob.stateName,none⟩

def fetchedJob (job : JobRow) : Except Fault (FetchedJobDto J) :=
  (deserializeJob job.invocationData job.arguments).map fun j => ⟨j,job.stateName⟩

/-- The jobs with the given ids, each under its id. -/
def jobList (dto : JobRow → Except Fault T) (o : RowOrder JobRow) (jobIds : List ℤ) (db : Db) :
    Except Fault (List (String × T)) :=
  if jobIds = [] then .ok []
  else (o.arrange (db.job.rows.filter fun i => jobIds.contains i.id)).mapM fun job =>
    (dto job).map fun d => (toString job.id,d)

/-- A row without a job has no job id to convert. -/
def getEnqueuedJobIds (queue : String) (startFrom perPage : ℕ) (db : Db) : Except Fault (List ℤ) :=
  ((((WriteOnlyTransaction.orderById db.jobQueue.rows).filter fun i => i.queue = queue).drop
    startFrom).take perPage).mapM fun i => i.job.elim (.error .nullReference) .ok

def getFetchedJobIds (queue : String) (startFrom perPage : ℕ) (db : Db) : List ℤ :=
  (((WriteOnlyTransaction.orderById (db.jobQueue.rows.filter fun i =>
    i.fetchedAt.isSome && i.queue = queue)).drop startFrom).take perPage).map fun i => i.id

/-- `EnqueuedCount` and `FetchedCount`. -/
def getEnqueuedAndFetchedCount (queue : String) (db : Db) : ℕ × ℕ :=
  let result := (db.jobQueue.rows.filter fun i => i.queue = queue).map JobQueueRow.fetchedAt
  (result.length,result.countP fun i => i.isSome)

def enqueuedJobs (o : RowOrder JobRow) (queue : String) (startFrom perPage : ℕ) (db : Db) :
    Except Fault (List (String × EnqueuedJobDto J)) :=
  match getEnqueuedJobIds queue startFrom perPage db with
  | .error f => .error f
  | .ok enqueuedJobIds => jobList
    (enqueuedJob ser ordinalIgnoreCase deserializeJob deserializeNullableDateTime) o enqueuedJobIds db

def fetchedJobs (o : RowOrder JobRow) (queue : String) (startFrom perPage : ℕ) (db : Db) :
    Except Fault (List (String × FetchedJobDto J)) :=
  jobList (fetchedJob deserializeJob) o (getFetchedJobIds queue startFrom perPage db) db

end Pages

section Statistics

structure StatisticsDto where
  enqueued : ℕ
  failed : ℕ
  processing : ℕ
  scheduled : ℕ
  servers : ℕ
  succeeded : ℤ
  deleted : ℤ
  recurring : ℕ
  queues : ℕ
  deriving DecidableEq, Repr

/-- The number of jobs in each state that has a name. -/
def statesDictionary (db : Db) : List (String × ℕ) :=
  (groupBy id ((db.job.rows.filterMap JobRow.stateName).filter fun n => 0 < n.length)).map fun i =>
    (i.1,i.2.length)

def getJobStatusCount (key : String) (db : Db) : ℕ :=
  ((statesDictionary db).find? fun i => i.1 = key).elim 0 Prod.snd

/-- Two queries, each summed by LINQ; both sums are Int32. -/
def countStats (o₁ o₂ : RowOrder CounterRow) (key : String) (db : Db) : Except Fault ℤ :=
  match Int32.checkedSum 0
      ((o₁.arrange (db.aggregatedCounter.rows.filter fun i => i.key = key)).map CounterRow.value) with
  | .error f => .error f
  | .ok l1 => (Int32.checkedSum 0 ((o₂.arrange (db.counter.rows.filter fun i => i.key = key)).map
      CounterRow.value)).map fun l2 => Int32.wrap (l1+l2)

/-- `GetStatistics`. The orders are those of the two counter queries for each key, and `getQueues`
has what the queue provider's monitoring APIs answer, each from a cache of its own. -/
def getStatistics (o₁ o₂ : String → RowOrder CounterRow) (server : Servers.ServerTable)
    (getQueues : List (List String)) (db : Db) : Except Fault StatisticsDto :=
  match countStats (o₁ "stats:succeeded") (o₂ "stats:succeeded") "stats:succeeded" db with
  | .error f => .error f
  | .ok succeeded =>
    (countStats (o₁ "stats:deleted") (o₂ "stats:deleted") "stats:deleted" db).map fun deleted =>
      { enqueued := getJobStatusCount "Enqueued" db
        failed := getJobStatusCount "Failed" db
        processing := getJobStatusCount "Processing" db
        scheduled := getJobStatusCount "Scheduled" db
        servers := server.rows.length
        succeeded := succeeded
        deleted := deleted
        recurring := db.set.rows.countP fun i => i.key = "recurring-jobs"
        queues := getQueues.flatten.length }

/-- Each state is counted once, whatever the order of the groups. -/
theorem getJobStatusCount_eq {key : String} (hkey : 0 < key.length) (db : Db) :
    getJobStatusCount key db = db.job.rows.countP fun job => job.stateName = some key := by
  let names := (db.job.rows.filterMap JobRow.stateName).filter fun n => 0 < n.length
  have hcount : (names.filter fun n => n = key).length =
      db.job.rows.countP fun job => job.stateName = some key := by
    rw [List.filter_filter,← List.countP_eq_length_filter,List.countP_filterMap]
    refine List.countP_congr fun job _ => ?_
    cases job.stateName with
    | none => simp
    | some n =>
      simp only [Option.map_some,Option.getD_some,Bool.and_eq_true,decide_eq_true_eq,Option.some.injEq]
      exact ⟨fun h => h.1,fun h => ⟨h,h ▸ hkey⟩⟩
  have hdict : getJobStatusCount key db = (names.eraseDups.find? fun n => n = key).elim 0
      fun n => (names.filter fun a => a = n).length := by
    rw [getJobStatusCount,statesDictionary,groupBy,List.map_map,List.map_id,List.find?_map]
    simp only [Function.comp_def]
    cases names.eraseDups.find? fun n => n = key <;> rfl
  rw [← hcount,hdict]
  cases hfind : names.eraseDups.find? fun n => n = key with
  | none =>
    have hnot : ∀ n ∈ names, n ≠ key := fun n hn => by
      simpa using List.find?_eq_none.mp hfind n (List.mem_eraseDups.mpr hn)
    rw [List.filter_eq_nil_iff.mpr fun n hn => by simpa using hnot n hn]
    rfl
  | some n =>
    obtain rfl : n = key := by simpa using List.find?_some hfind
    rfl

end Statistics

end MonitoringApi
end HangfireStorage
