import HangfireStorage.Lifespans
import HangfireStorage.StateReadback

/-!
# GetJobData against the life of a job

A job lives from the call that creates it to the clean-up that deletes it. What is read back is
what it was created with and the name of the last state set on it. Deserializing jobs is
Hangfire.Core's; it gives a job or the reason why its type does not load.
-/

namespace HangfireStorage

open StringToInt32Converter

structure JobData (J E : Type) where
  job : Option J
  state : Option String
  createdAt : ℤ
  loadException : Option E
  deriving DecidableEq

namespace JobStorageConnection

variable {J E : Type}

def getJobData (deserializeJob : String → String → Except Fault (E ⊕ J)) (jobId : String) (db : Db) :
    Except Fault (Option (JobData J E)) :=
  match convert jobId with
  | none => .ok none
  | some v =>
    match SqlUtil.singleOrDefault (db.job.rows.filter fun i => Row.id i = v) with
    | .error f => .error f
    | .ok none => .ok none
    | .ok (some jobData) =>
      (deserializeJob jobData.invocationData jobData.arguments).map fun job =>
        some ⟨job.getRight?,jobData.stateName,jobData.createdAt,job.getLeft?⟩

end JobStorageConnection

namespace StorageSystem

open ExpirationManager JobStorageConnection Lifespan Machine WriteOnlyTransaction

/-- What calls have said about a job since it was created. -/
structure JobRecord where
  invocationData : String
  arguments : String
  createdAt : ℤ
  state : Option State
  deriving DecidableEq

/-- A call and what it shows. -/
abbrev Call := Action × Event

/-- The calls of a run. -/
def calls (ser : SerializationHelper) (T : ℤ) (s : StorageState) (as : List Action) : List Call :=
  as.zip (trace (step ser T) s as)

namespace JobRecord

def createdBy (v : ℤ) : Call → Option JobRecord
  | (.createExpiredJob invocationData arguments _ createdAt _,.created job) =>
    if job = v then some ⟨invocationData,arguments,createdAt,none⟩ else none
  | _ => none

def command (v : ℤ) (r : JobRecord) : WriteCommand → JobRecord
  | .setJobState jobId state => if convert jobId = some v then { r with state := some state } else r
  | _ => r

def change (v : ℤ) (r : JobRecord) (c : Call) : JobRecord × Unit :=
  match c.2 with
  | .committed cmds => (cmds.foldl (fun r c => r.command v c.2) r,())
  | _ => (r,())

def SparedBy (v : ℤ) (_ : JobRecord) (c : Call) : Prop :=
  match c.2 with
  | .deleted .job rows => v ∉ rows
  | _ => True

instance (v : ℤ) (r : JobRecord) (c : Call) : Decidable (r.SparedBy v c) := by
  unfold SparedBy
  split <;> infer_instance

end JobRecord

theorem calls_append_singleton {ser : SerializationHelper} {T : ℤ} {s : StorageState}
    (as : List Action) (a : Action) : calls ser T s (as ++ [a]) =
      calls ser T s as ++ [(a,(step ser T (exec (step ser T) s as) a).2)] := by
  rw [calls,calls,trace_append,List.zip_append (by simp)]
  rfl

open JobRecord

/-- The job was created, has not been deleted since, and this is what it was created with and
what has been done to it. -/
def Recorded (cs : List Call) (v : ℤ) (r : JobRecord) : Prop :=
  ∃ before c after r₀, cs = before ++ c::after ∧ createdBy v c = some r₀ ∧
    Along (change v) (Continues (createdBy v) (SparedBy v)) r₀ after ∧ exec (change v) r₀ after = r

def jobRecord (cs : List Call) (v : ℤ) : Option JobRecord :=
  current (createdBy v) (change v) (SparedBy v) cs

theorem jobRecord_eq_some {cs : List Call} {v : ℤ} {r : JobRecord} :
    jobRecord cs v = some r ↔ Recorded cs v r := current_eq_some

/-- The columns of a job that do not expire. -/
def lasting (job : JobRow) : String × String × ℤ × Columns :=
  (job.invocationData,job.arguments,job.createdAt,columns job)

def JobRecord.lasting (ser : SerializationHelper) (r : JobRecord) : String × String × ℤ × Columns :=
  (r.invocationData,r.arguments,r.createdAt,columnsFor ser r.state)

/-- The row of a job holds its record. -/
def HoldsRecord (ser : SerializationHelper) (db : Db) (v : ℤ) (r? : Option JobRecord) : Prop :=
  (db.job.byId v).map StorageSystem.lasting = r?.map (JobRecord.lasting ser)

section Steps

variable {ser : SerializationHelper} {T : ℤ} {db db' : Db} {v now : ℤ} {r? : Option JobRecord}

theorem HoldsRecord.of_job (h : HoldsRecord ser db v r?) (hj : db'.job = db.job) :
    HoldsRecord ser db' v r? := by
  rw [HoldsRecord,hj]
  exact h

theorem command_of_ne {r : JobRecord} {c : WriteCommand} (h : ∀ j state, c ≠ .setJobState j state) :
    r.command v c = r := by
  cases c with
  | setJobState j state => exact absurd rfl (h j state)
  | _ => rfl

theorem holdsRecord_run {c : WriteCommand} (h : HoldsRecord ser db v r?)
    (hr : run ser now db c = .ok db') :
    HoldsRecord ser db' v (r?.map fun r => r.command v c) := by
  have hsame (hc : ∀ j state, c ≠ .setJobState j state) : r?.map (fun r => r.command v c) = r? := by
    simp [command_of_ne hc]
  cases run_effect hr with
  | same hs hset =>
    refine HoldsRecord.of_job ?_ hs.job
    cases hv : r? with
    | none => rwa [hv] at h
    | some r =>
      -- The job is there, so the command sets no state on it.
      have hex : db.jobExists v := by
        rw [Db.jobExists_iff_byId,Option.isSome_iff_exists]
        rw [hv] at h
        exact (Option.map_eq_some_iff.mp h).imp fun _ hb => hb.1
      have hcmd : r.command v c = r := by
        cases c with
        | setJobState j state => exact if_neg fun hj => hset j state rfl v hj hex
        | _ => rfl
      rw [Option.map_some,hcmd,← hv]
      exact h
  | expiry w e hset =>
    rw [hsame hset,HoldsRecord,← show _ = _ from h,setJobExpireAt,Table.byId_modify,Option.map_map]
    congr 1
    funext r
    simp only [Function.comp_apply]
    split_ifs <;> rfl
  | @setState j state w job _ hj hjob =>
    have hw : Row.id (withState ser state job) = w := (Table.id_of_byId hjob : Row.id job = w)
    rw [HoldsRecord,Table.byId_put,hw,Option.map_map,Option.map_map]
    by_cases hv : v = w
    · subst hv
      rw [HoldsRecord,hjob] at h
      obtain ⟨r,rfl,hlast⟩ := Option.map_eq_some_iff.mp h.symm
      have hl : r.lasting ser = StorageSystem.lasting job := hlast
      simp only [JobRecord.lasting,StorageSystem.lasting,Prod.mk.injEq] at hl
      simp [hjob,JobRecord.lasting,StorageSystem.lasting,JobRecord.command,hj,hl.1,hl.2.1,hl.2.2.1,
        columnsFor,columns,withState,Table.id_of_byId hjob]
    · have hcmd : (JobRecord.lasting ser ∘ fun r => r.command v (.setJobState j state)) =
          JobRecord.lasting ser := by
        funext r
        simp [JobRecord.command,hj,Ne.symm hv]
      rw [hcmd,← show _ = _ from h]
      cases hb : db.job.byId v with
      | none => rfl
      | some r => simp [Table.id_of_byId hb,hv]
  | addState _ hj hjob =>
    rw [hsame (by simp)]
    exact h.of_job rfl
  | enqueue hj =>
    rw [hsame (by simp)]
    exact h.of_job rfl

theorem holdsRecord_commit {cmds : List (ℤ × WriteCommand)} (h : HoldsRecord ser db v r?)
    (hc : WriteOnlyTransaction.commit ser cmds db = .ok db') :
    HoldsRecord ser db' v (r?.map fun r => cmds.foldl (fun r c => r.command v c.2) r) := by
  induction cmds generalizing db r? with
  | nil =>
    cases hc
    simpa using h
  | cons c cs ih =>
    obtain ⟨db₁,hr,hrest⟩ := commit_cons_eq_ok.mp hc
    have hrun := ih (holdsRecord_run h hr) hrest
    rwa [Option.map_map] at hrun

/-- A call that neither creates nor deletes the job changes its record at most. -/
theorem next_of_continues {c : Call} (hc : createdBy v c = none) (hs : ∀ r, SparedBy v r c) :
    next (createdBy v) (change v) (SparedBy v) r? c = r?.map fun r => (change v r c).1 := by
  cases r? with
  | none => simp [next,hc]
  | some r => simp [next,hc,hs]

theorem createdBy_of_ne {a : Action} {e : Event} (h : ∀ job, e ≠ .created job) :
    createdBy v (a,e) = none := by
  unfold createdBy
  split
  · rename_i he
    exact absurd (Prod.mk.inj he).2 (h _)
  · rfl

/-- Calls that show nothing about jobs. -/
theorem HoldsRecord.keep (h : HoldsRecord ser db v r?) (hj : db'.job = db.job) {a : Action} {e : Event}
    (hc : ∀ job, e ≠ .created job) (hs : ∀ r, SparedBy v r (a,e)) (hch : ∀ r, change v r (a,e) = (r,())) :
    HoldsRecord ser db' v (next (createdBy v) (change v) (SparedBy v) r? (a,e)) := by
  rw [next_of_continues (createdBy_of_ne hc) hs]
  simpa [hch] using h.of_job hj

theorem holdsRecord_deleteRows {a : Action} (h : HoldsRecord ser db v r?) (batch : List ℤ) (k : Kind) :
    HoldsRecord ser (deleteRows batch db k) v (next (createdBy v) (change v) (SparedBy v) r?
      (a,.deleted k (batch.filter (ids k db).contains))) := by
  cases k with
  | job =>
    have hnone := createdBy_of_ne (v := v) (a := a)
      (e := .deleted .job (batch.filter (ids .job db).contains)) (by simp)
    rw [HoldsRecord] at h ⊢
    simp only [deleteRows,SqlUtil.deleteBatch,Table.byId_delete]
    cases hb : db.job.byId v with
    | none =>
      rw [hb] at h
      have hr : r? = none := Option.map_eq_none_iff.mp h.symm
      simp [hr,next,hnone]
    | some r =>
      rw [hb] at h
      obtain ⟨rec,rfl,hlast⟩ := Option.map_eq_some_iff.mp h.symm
      have hid : v ∈ ids .job db :=
        List.mem_map.mpr ⟨r,Table.mem_of_byId hb,Table.id_of_byId hb⟩
      by_cases hmem : v ∈ batch
      · simp [Option.filter,Table.id_of_byId hb,hmem,next,hnone,SparedBy,hid]
      · simp [Option.filter,Table.id_of_byId hb,hmem,next,hnone,SparedBy,change,hlast]
  | _ => exact h.keep rfl (by simp) (fun _ => trivial) fun _ => rfl

theorem holdsRecord_step {s : StorageState} (h : HoldsRecord ser s.db v r?) (a : Action) :
    HoldsRecord ser (step ser T s a).1.db v
      (next (createdBy v) (change v) (SparedBy v) r? (a,(step ser T s a).2)) := by
  have he : StepEffect ser T s a _ _ := step_effect a
  generalize (step ser T s a).1 = s', (step ser T s a).2 = e at he ⊢
  cases he with
  | @committed cmds db hc =>
    have hnone := createdBy_of_ne (v := v) (a := .commit cmds) (e := .committed cmds) (by simp)
    rw [next_of_continues hnone fun _ => trivial]
    exact holdsRecord_commit h hc
  | @created a b p c e expireAt he =>
    rw [HoldsRecord]
    simp only [StorageState.withDb,Table.byId_insert]
    by_cases hv : v = s.db.job.nextId
    · simp [hv,next,createdBy,JobRecord.lasting,StorageSystem.lasting,columnsFor,columns,Row.withId]
    · rw [if_neg hv]
      have hnone : createdBy v (.createExpiredJob a b p c e,.created s.db.job.nextId) = none := by
        simp [createdBy,Ne.symm hv]
      rw [next_of_continues hnone fun _ => trivial]
      simpa [change,HoldsRecord] using h
  | aggregated hp =>
    obtain ⟨items,t,-,-,rfl⟩ := CountersAggregator.pass_eq_ok hp
    exact h.keep rfl (by simp) (fun _ => trivial) fun _ => rfl
  | deleted hi hp hr => exact holdsRecord_deleteRows h _ _
  | @deletedNothing i k =>
    have hnil := holdsRecord_deleteRows (a := .deleteBatch i) h [] k
    rwa [deleteRows_nil] at hnil
  | idle | failed | advanced | fetched | removed | requeued | disposeRequeued | disposed | crashed
  | inserted | reused | released | releasedAgain | selected | deleteFailed =>
    exact h.keep rfl (by simp) (fun _ => trivial) fun _ => rfl

/-- After every run each job table row holds its record. -/
theorem holdsRecord_exec {s : StorageState} (hs : s.db.job.rows = []) (as : List Action) (v : ℤ) :
    HoldsRecord ser (exec (step ser T) s as).db v (jobRecord (calls ser T s as) v) := by
  induction as using List.reverseRecOn with
  | nil => simp [HoldsRecord,jobRecord,calls,current,Table.byId,hs]
  | append_singleton as a ih =>
    rw [exec_append,calls_append_singleton,jobRecord,current_append]
    exact holdsRecord_step ih a

end Steps

section Reads

variable {J E : Type} (deserializeJob : String → String → Except Fault (E ⊕ J))

/-- What GetJobData makes of a record and a deserialized job. -/
def JobRecord.jobData (r : JobRecord) (job : E ⊕ J) : JobData J E :=
  ⟨job.getRight?,r.state.map State.name,r.createdAt,job.getLeft?⟩

theorem stateName_of_lasting {ser : SerializationHelper} {job : JobRow} {r : JobRecord}
    (h : StorageSystem.lasting job = r.lasting ser) : job.stateName = r.state.map State.name := by
  have hcols : columns job = columnsFor ser r.state := congrArg (fun l => l.2.2.2) h
  have hname := congrArg Columns.name hcols
  cases hr : r.state <;> simpa [hr,columns,columnsFor] using hname

theorem getJobData_of_record {ser : SerializationHelper} {db : Db} {jobId : String} {v : ℤ}
    {r : JobRecord} (hj : convert jobId = some v) (h : HoldsRecord ser db v (some r)) :
    getJobData deserializeJob jobId db =
      (deserializeJob r.invocationData r.arguments).map fun job => some (r.jobData job) := by
  obtain ⟨job,hb,hlast⟩ := Option.map_eq_some_iff.mp h
  have hname := stateName_of_lasting hlast
  simp only [StorageSystem.lasting,JobRecord.lasting,Prod.mk.injEq] at hlast
  obtain ⟨hinv,harg,hcreated,-⟩ := hlast
  simp only [getJobData,hj,SqlUtil.singleOrDefault_id,hb,hinv,harg,hcreated,hname]
  rfl

/-- After every run, GetJobData gives what the job was created with and the name of its last state
if the id names a job that lives, and null if it does not. -/
theorem getJobData_reads_back {ser : SerializationHelper} {T : ℤ} {s : StorageState}
    (hs : s.db.job.rows = []) (as : List Action) (jobId : String) :
    (∀ v r, convert jobId = some v → Recorded (calls ser T s as) v r →
      getJobData deserializeJob jobId (exec (step ser T) s as).db =
        (deserializeJob r.invocationData r.arguments).map fun job => some (r.jobData job)) ∧
    ((∀ v, convert jobId = some v → ∀ r, ¬ Recorded (calls ser T s as) v r) →
      getJobData deserializeJob jobId (exec (step ser T) s as).db = .ok none) := by
  constructor
  · intro v r hj hr
    have h := @holdsRecord_exec ser T s hs as v
    rw [jobRecord_eq_some.mpr hr] at h
    exact getJobData_of_record deserializeJob hj h
  · intro hnone
    cases hj : convert jobId with
    | none => simp [getJobData,hj]
    | some v =>
      have h := @holdsRecord_exec ser T s hs as v
      have hr : jobRecord (calls ser T s as) v = none :=
        Option.eq_none_iff_forall_ne_some.mpr fun r hr => hnone v hj r (jobRecord_eq_some.mp hr)
      rw [hr,HoldsRecord,Option.map_none,Option.map_eq_none_iff] at h
      simp [getJobData,hj,SqlUtil.singleOrDefault_id,h]

theorem getJobData_reads_back_failed :
    getJobData (fun _ _ => .ok (.inr () : Unit ⊕ Unit)) "1"
      (exec (step Json.helper 0) (initial 0) (jobWithState failed)).db =
        .ok (some ⟨some (),some "Failed",0,none⟩) :=
  (getJobData_reads_back _ rfl (jobWithState failed) "1").1 1 ⟨"job","[]",0,some failed⟩ (by decide)
    (jobRecord_eq_some.mp (by decide))

end Reads

end StorageSystem
end HangfireStorage
