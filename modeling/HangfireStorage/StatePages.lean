import HangfireStorage.JobData
import HangfireStorage.MonitoringApi

/-!
# The state pages of the dashboard

One page for each of five states. A page looks the jobs up by the name of their state and reads
the data of that state; what it reads is what the last SetJobState of the job has said.
-/

namespace HangfireStorage
namespace StatePages

open JobStorageConnection Machine MonitoringApi StorageSystem

/-- Hangfire.Core's and the platform's part in showing jobs. Nothing is assumed of the texts. -/
structure Core (J : Type) where
  ser : SerializationHelper
  ordinalIgnoreCase : StringComparer
  deserializeJob : String → String → Except Fault (Option J)
  deserializeDateTime : Option String → Except Fault ℤ
  deserializeNullableDateTime : Option String → Except Fault (Option ℤ)
  parseLong : Option String → Except Fault ℤ

structure ProcessingJobDto (J : Type) where
  job : Option J
  serverId : Option String
  startedAt : ℤ
  deriving DecidableEq

structure ScheduledJobDto (J : Type) where
  job : Option J
  enqueueAt : ℤ
  scheduledAt : ℤ
  deriving DecidableEq

structure SucceededJobDto (J : Type) where
  job : Option J
  result : Option String
  totalDuration : Option ℤ
  succeededAt : Option ℤ
  deriving DecidableEq

structure FailedJobDto (J : Type) where
  job : Option J
  reason : Option String
  exceptionDetails : Option String
  exceptionMessage : Option String
  exceptionType : Option String
  failedAt : Option ℤ
  deriving DecidableEq

structure DeletedJobDto (J : Type) where
  job : Option J
  deletedAt : Option ℤ
  deriving DecidableEq

section Selectors

variable {J T : Type} (core : Core J)

/-- `ContainsKey` of a dictionary reference, which may be null. -/
def Core.containsKey (key : String) : Option Dictionary → Except Fault Bool
  | none => .error .nullReference
  | some d => .ok (d.entries.find? fun e =>
      core.ordinalIgnoreCase.normal e.1 = core.ordinalIgnoreCase.normal key).isSome

def Core.item (key : String) (stateData : Option Dictionary) : Except Fault (Option String) :=
  getItem core.ordinalIgnoreCase key stateData

/-- A `long` keeps the low 64 bits of a sum. -/
def wrap64 (x : ℤ) : ℤ := x.bmod (2^64)

def processingJob (_ : JobRow) (job : Option J) (stateData : Option Dictionary) :
    Except Fault (ProcessingJobDto J) := do
  let hasServerId ← core.containsKey "ServerId" stateData
  let serverId ← core.item (if hasServerId then "ServerId" else "ServerName") stateData
  let startedAt ← core.deserializeDateTime (← core.item "StartedAt" stateData)
  return ⟨job,serverId,startedAt⟩

def scheduledJob (_ : JobRow) (job : Option J) (stateData : Option Dictionary) :
    Except Fault (ScheduledJobDto J) := do
  let enqueueAt ← core.deserializeDateTime (← core.item "EnqueueAt" stateData)
  let scheduledAt ← core.deserializeDateTime (← core.item "ScheduledAt" stateData)
  return ⟨job,enqueueAt,scheduledAt⟩

def totalDuration (stateData : Option Dictionary) : Except Fault (Option ℤ) := do
  if !(← core.containsKey "PerformanceDuration" stateData) then return none
  if !(← core.containsKey "Latency" stateData) then return none
  let duration ← core.parseLong (← core.item "PerformanceDuration" stateData)
  let latency ← core.parseLong (← core.item "Latency" stateData)
  return some (wrap64 (duration+latency))

def succeededJob (_ : JobRow) (job : Option J) (stateData : Option Dictionary) :
    Except Fault (SucceededJobDto J) := do
  let hasResult ← core.containsKey "Result" stateData
  let result ← if hasResult then core.item "Result" stateData else .ok none
  let totalDuration ← totalDuration core stateData
  let succeededAt ← core.deserializeNullableDateTime (← core.item "SucceededAt" stateData)
  return ⟨job,result,totalDuration,succeededAt⟩

def failedJob (sqlJob : JobRow) (job : Option J) (stateData : Option Dictionary) :
    Except Fault (FailedJobDto J) := do
  let exceptionDetails ← core.item "ExceptionDetails" stateData
  let exceptionMessage ← core.item "ExceptionMessage" stateData
  let exceptionType ← core.item "ExceptionType" stateData
  let failedAt ← core.deserializeNullableDateTime (← core.item "FailedAt" stateData)
  return ⟨job,sqlJob.stateReason,exceptionDetails,exceptionMessage,exceptionType,failedAt⟩

def deletedJob (_ : JobRow) (job : Option J) (stateData : Option Dictionary) :
    Except Fault (DeletedJobDto J) := do
  let deletedAt ← core.deserializeNullableDateTime (← core.item "DeletedAt" stateData)
  return ⟨job,deletedAt⟩

end Selectors

section Pages

variable {J T : Type} (core : Core J)

abbrev Selector (J T : Type) := JobRow → Option J → Option Dictionary → Except Fault T

def getJobs (startFrom count : ℕ) (stateName : String) (selector : Selector J T) (db : Db) :
    Except Fault (List (String × T)) :=
  ((((orderByDescendingId db.job.rows).filter fun i => i.stateName = some stateName).drop
    startFrom).take count).mapM fun job =>
      (deserialize core.ser core.ordinalIgnoreCase core.deserializeJob selector job).map fun dto =>
        (toString job.id,dto)

/-- The limit is `DashboardJobListLimit`. -/
def getNumberOfJobsByStateName (jobListLimit : Option ℤ) (stateName : String) (db : Db) : ℤ :=
  let count : ℤ := db.job.rows.countP fun i => i.stateName = some stateName
  jobListLimit.elim count (min count)

variable (startFrom count : ℕ) (db : Db)

def processingJobs := getJobs core startFrom count "Processing" (processingJob core) db

def scheduledJobs := getJobs core startFrom count "Scheduled" (scheduledJob core) db

def succeededJobs := getJobs core startFrom count "Succeeded" (succeededJob core) db

def failedJobs := getJobs core startFrom count "Failed" (failedJob core) db

def deletedJobs := getJobs core startFrom count "Deleted" (deletedJob core) db

def processingCount (jobListLimit : Option ℤ) := getNumberOfJobsByStateName jobListLimit "Processing"

def scheduledCount (jobListLimit : Option ℤ) := getNumberOfJobsByStateName jobListLimit "Scheduled"

def succeededListCount (jobListLimit : Option ℤ) := getNumberOfJobsByStateName jobListLimit "Succeeded"

def failedCount (jobListLimit : Option ℤ) := getNumberOfJobsByStateName jobListLimit "Failed"

def deletedListCount (jobListLimit : Option ℤ) := getNumberOfJobsByStateName jobListLimit "Deleted"

end Pages

section Records

variable {J T : Type} {core : Core J} {selector : Selector J T}

/-- The row that a record describes, but for its expiry. -/
def rowOf (core : Core J) (v : ℤ) (r : JobRecord) : JobRow :=
  { id := v
    invocationData := r.invocationData
    arguments := r.arguments
    createdAt := r.createdAt
    expireAt := none
    stateName := r.state.map State.name
    stateReason := r.state.bind State.reason
    stateData := r.state.bind fun state => core.ser.serialize state.data }

def expiring (e : Option ℤ) (job : JobRow) : JobRow := { job with expireAt := e }

/-- What a page is to show of a job: the data of its last state, as it was set. -/
def shown (core : Core J) (selector : Selector J T) (j : ℤ × JobRecord) : Except Fault T :=
  match (j.2.state.bind State.data).elim (.ok none) fun d =>
    (Dictionary.copy core.ordinalIgnoreCase (some d)).map some with
  | .error f => .error f
  | .ok stateData =>
    match core.deserializeJob j.2.invocationData j.2.arguments with
    | .error f => .error f
    | .ok job => selector (rowOf core j.1 j.2) job stateData

/-- The page and the count show the jobs whose last state has the name, the newest first. -/
def ShowsState (core : Core J) (cs : List Call) (stateName : String) (selector : Selector J T)
    (page : ℕ → ℕ → Except Fault (List (String × T))) (count : Option ℤ → ℤ) : Prop :=
  ∃ jobs : List (ℤ × JobRecord), jobs.Pairwise (fun a b => b.1 < a.1) ∧
    (∀ v r, (v,r) ∈ jobs ↔ Recorded cs v r ∧ r.state.map State.name = some stateName) ∧
    (∀ startFrom n, page startFrom n = ((jobs.drop startFrom).take n).mapM fun j =>
      (shown core selector j).map fun dto => (toString j.1,dto)) ∧
    ∀ limit, count limit = limit.elim (jobs.length : ℤ) (min jobs.length)

theorem rowOf_eq {db : Db} {v : ℤ} {r : JobRecord} {job : JobRow}
    (h : HoldsRecord core.ser db v (some r)) (hb : db.job.byId v = some job) :
    job = expiring job.expireAt (rowOf core v r) := by
  rw [HoldsRecord,hb] at h
  have hl : lasting job = r.lasting core.ser := Option.some.inj h
  simp only [lasting,JobRecord.lasting,Prod.mk.injEq] at hl
  obtain ⟨hinv,harg,hcreated,hcols⟩ := hl
  have hid : job.id = v := Table.id_of_byId hb
  have hn := congrArg Columns.name hcols
  have hr := congrArg Columns.reason hcols
  have hd := congrArg Columns.data hcols
  cases job
  cases hs : r.state <;> simp_all [expiring,rowOf,columns,columnsFor]

/-- The round trip of the data through its column. -/
theorem deserialize_rowOf (hsel : ∀ job e, selector (expiring e job) = selector job) (v : ℤ)
    (r : JobRecord) (e : Option ℤ) :
    deserialize core.ser core.ordinalIgnoreCase core.deserializeJob selector
      (expiring e (rowOf core v r)) = shown core selector (v,r) := by
  have hdata : core.ser.deserialize (rowOf core v r).stateData = .ok (r.state.bind State.data) := by
    cases hs : r.state with
    | none => simp [rowOf,hs,SerializationHelper.deserialize]
    | some state => simp [rowOf,hs,core.ser.deserialize_serialize]
  simp only [deserialize,expiring,hdata,shown,← hsel (rowOf core v r) e]
  rfl

/-- The record of a job that is there. -/
def recordOf (cs : List Call) (v : ℤ) : JobRecord := (jobRecord cs v).getD ⟨"","",0,none⟩

variable {cs : List Call} {db : Db}

theorem jobRecord_of_row (hdb : ∀ v, HoldsRecord core.ser db v (jobRecord cs v)) {job : JobRow}
    (hjob : job ∈ db.job.rows) : jobRecord cs job.id = some (recordOf cs job.id) := by
  have h := hdb job.id
  rw [HoldsRecord,show db.job.byId job.id = some job from Table.byId_of_mem hjob] at h
  obtain ⟨r,hr,-⟩ := Option.map_eq_some_iff.mp h.symm
  rw [recordOf,hr,Option.getD_some]

theorem getJobs_shows (hdb : ∀ v, HoldsRecord core.ser db v (jobRecord cs v))
    (hsel : ∀ job e, selector (expiring e job) = selector job) (stateName : String) :
    ShowsState core cs stateName selector
      (fun startFrom n => getJobs core startFrom n stateName selector db)
      fun limit => getNumberOfJobsByStateName limit stateName db := by
  let rows := db.job.rows.reverse.filter fun i => i.stateName = some stateName
  have hmem : ∀ job ∈ rows, job ∈ db.job.rows ∧ job.stateName = some stateName := by
    intro job hjob
    simpa [rows] using hjob
  have hrow : ∀ job ∈ db.job.rows,
      job = expiring job.expireAt (rowOf core job.id (recordOf cs job.id)) := fun job hjob =>
    rowOf_eq (jobRecord_of_row hdb hjob ▸ hdb job.id) (Table.byId_of_mem hjob)
  refine ⟨rows.map fun job => (job.id,recordOf cs job.id),?_,?_,?_,?_⟩
  · rw [List.pairwise_map]
    exact (List.pairwise_reverse.mpr db.job.sorted).filter _
  · intro v r
    rw [List.mem_map,← jobRecord_eq_some]
    constructor
    · rintro ⟨job,hjob,he⟩
      obtain ⟨rfl,rfl⟩ := Prod.mk.inj he
      obtain ⟨hj,hname⟩ := hmem job hjob
      rw [hrow job hj] at hname
      exact ⟨jobRecord_of_row hdb hj,hname⟩
    · rintro ⟨hr,hname⟩
      have h := hdb v
      rw [hr,HoldsRecord,Option.map_some,Option.map_eq_some_iff] at h
      obtain ⟨job,hb,-⟩ := h
      have hj := Table.mem_of_byId hb
      obtain rfl : job.id = v := Table.id_of_byId hb
      obtain rfl : recordOf cs job.id = r := by
        rw [jobRecord_of_row hdb hj] at hr
        exact Option.some.inj hr
      have hjob : job.stateName = some stateName := by
        rw [hrow job hj]
        exact hname
      exact ⟨job,by simp [rows,hj,hjob],rfl⟩
  · intro startFrom n
    simp only [getJobs]
    rw [orderByDescendingId_rows,← List.map_drop,← List.map_take,List.mapM_map]
    refine mapM_congr fun job hjob => ?_
    have hj := (hmem job (List.mem_of_mem_drop (List.mem_of_mem_take hjob))).1
    have hshown := @deserialize_rowOf J T core selector hsel job.id (recordOf cs job.id) job.expireAt
    rw [← hrow job hj] at hshown
    simp only [Function.comp_apply,hshown]
  · intro limit
    have hlen : db.job.rows.countP (fun i => i.stateName = some stateName) = rows.length := by
      simp [rows,List.countP_eq_length_filter,List.filter_reverse]
    simp only [getNumberOfJobsByStateName]
    rw [hlen,List.length_map]

end Records

/-- All pages and counts show the states that calls have set. -/
structure ShowsStates {J : Type} (core : Core J) (cs : List Call) (db : Db) : Prop where
  processing : ShowsState core cs "Processing" (processingJob core)
    (fun startFrom n => processingJobs core startFrom n db) fun limit => processingCount limit db
  scheduled : ShowsState core cs "Scheduled" (scheduledJob core)
    (fun startFrom n => scheduledJobs core startFrom n db) fun limit => scheduledCount limit db
  succeeded : ShowsState core cs "Succeeded" (succeededJob core)
    (fun startFrom n => succeededJobs core startFrom n db) fun limit => succeededListCount limit db
  failed : ShowsState core cs "Failed" (failedJob core)
    (fun startFrom n => failedJobs core startFrom n db) fun limit => failedCount limit db
  deleted : ShowsState core cs "Deleted" (deletedJob core)
    (fun startFrom n => deletedJobs core startFrom n db) fun limit => deletedListCount limit db

/-- After every run, the state pages show the last states of the jobs that live. -/
theorem state_pages_show {J : Type} (core : Core J) {T : ℤ} {s : StorageState}
    (hs : s.db.job.rows = []) (as : List Action) :
    ShowsStates core (calls core.ser T s as) (exec (step core.ser T) s as).db :=
  have h := @holdsRecord_exec core.ser T s hs as
  ⟨getJobs_shows h (fun _ _ => rfl) _,getJobs_shows h (fun _ _ => rfl) _,
    getJobs_shows h (fun _ _ => rfl) _,getJobs_shows h (fun _ _ => rfl) _,
    getJobs_shows h (fun _ _ => rfl) _⟩

section Witness

/-- Dates as seconds since 1970. -/
def seconds (text : Option String) : Except Fault ℤ :=
  match text with
  | none => .error .argumentNull
  | some text => (StringToInt32Converter.convert text).elim (.error .argument) fun n =>
      .ok ((62135596800+n)*10000000)

/-- Every job loads, as a unit. -/
def plainCore : Core Unit where
  ser := Json.helper
  ordinalIgnoreCase := .asciiIgnoreCase
  deserializeJob _ _ := .ok (some ())
  deserializeDateTime := seconds
  deserializeNullableDateTime text := text.elim (.ok none) fun t => (seconds (some t)).map some
  parseLong text := text.elim (.error .argumentNull) fun t =>
    (StringToInt32Converter.convert t).elim (.error .argument) .ok

theorem state_pages_show_deleted :
    ShowsStates plainCore
      (calls Json.helper 0 (initial 0)
        (jobWithState ⟨"Deleted",none,some ⟨[("DeletedAt",some "60")],by decide⟩⟩))
      (exec (step Json.helper 0) (initial 0)
        (jobWithState ⟨"Deleted",none,some ⟨[("DeletedAt",some "60")],by decide⟩⟩)).db :=
  state_pages_show plainCore rfl _

example : deletedJobs plainCore 0 5 (exec (step Json.helper 0) (initial 0)
    (jobWithState ⟨"Deleted",none,some ⟨[("DeletedAt",some "60")],by decide⟩⟩)).db =
      .ok [("1",⟨some (),some 621355968600000000⟩)] := by decide

end Witness

end StatePages
end HangfireStorage
