import HangfireStorage.JobHistory
import HangfireStorage.LastingJobs
import HangfireStorage.Lifespans
import HangfireStorage.UpsertRuns

/-!
# JobDetails against all that was ever said about a job

The file of a job holds what it was created with, every state appended since, the last expiry and
the last value of each parameter. As long as clean-up never finds the job expired, its details
show the whole file.
-/

namespace HangfireStorage
namespace StorageSystem

open ExpirationManager FiniteMap JobHistory JobStorageConnection Lifespan Machine MonitoringApi
  StringToInt32Converter WriteOnlyTransaction

structure JobFile where
  invocationData : String
  arguments : String
  createdAt : ℤ
  expireAt : Option ℤ
  history : List (ℤ × State)
  properties : String → Option (Option String)

/-- A call of a client and what it shows. -/
abbrev ClientCall := ClientAction × Event

namespace JobFile

def createdBy (v : ℤ) : ClientCall → Option JobFile
  | (.storage (.createExpiredJob invocationData arguments parameters createdAt expireIn),.created job) =>
    if job = v then some ⟨invocationData,arguments,createdAt,some (createdAt+expireIn),[],
      fun name => (parameters.entries.find? fun e => e.1 = name).map Prod.snd⟩
    else none
  | _ => none

def change (v : ℤ) (f : JobFile) : ClientCall → JobFile × Unit
  | (_,.committed cmds) => ({ f with
      expireAt := (cmds.filterMap (expires v)).getLast?.getD f.expireAt
      history := f.history ++ appended v cmds },())
  | (.setJobParameter id name value,.silent) => (if convert id = some v then
      { f with properties := Function.update f.properties name (some value) } else f,())
  | _ => (f,())

end JobFile

def clientCalls (ser : SerializationHelper) (T : ℤ) (s : StorageState) (as : List ClientAction) :
    List ClientCall := as.zip (trace (clientStep ser T) s as)

/-- The file of a job after some calls, if one of them created it. -/
def jobFile (cs : List ClientCall) (v : ℤ) : Option JobFile :=
  current (JobFile.createdBy v) (JobFile.change v) (fun _ _ => True) cs

/-- The tables hold the file. -/
structure HoldsFile (ser : SerializationHelper) (db : Db) (v : ℤ) (f : JobFile) : Prop where
  row : ∃ job, db.job.byId v = some job ∧ job.invocationData = f.invocationData ∧
    job.arguments = f.arguments ∧ job.createdAt = f.createdAt ∧ job.expireAt = f.expireAt
  history : db.jobState.entries v = f.history.map fun a => stateRow ser v a.2 a.1
  properties : Represents (db.jobParameter.entries v) f.properties

/-- A job without a file is not there. -/
def HoldsFiles (ser : SerializationHelper) (db : Db) (v : ℤ) : Option JobFile → Prop
  | none => db.job.byId v = none
  | some f => HoldsFile ser db v f

section Statements

variable {ser : SerializationHelper} {T v : ℤ} {s : StorageState} {db db' : Db} {f : JobFile}

theorem HoldsFile.congr (h : HoldsFile ser db v f) (hj : db'.job.byId v = db.job.byId v)
    (hs : db'.jobState.entries v = db.jobState.entries v)
    (hp : db'.jobParameter.entries v = db.jobParameter.entries v) : HoldsFile ser db' v f :=
  ⟨hj ▸ h.row,hs ▸ h.history,hp ▸ h.properties⟩

theorem HoldsFile.commit {cmds : List (ℤ × WriteCommand)} (h : HoldsFile ser db v f)
    (hc : commit ser cmds db = .ok db') (a : ClientAction) :
    HoldsFile ser db' v (f.change v (a,.committed cmds)).1 := by
  obtain ⟨hrow,hhist,hparam⟩ := commit_job hc v
  obtain ⟨job,hjob,hinv,harg,hcreated,hexpire⟩ := h.row
  refine ⟨⟨rowAfter ser v cmds job,by rw [hrow,hjob]; rfl,?_⟩,?_,hparam ▸ h.properties⟩
  · obtain ⟨-,hinv',harg',hcreated'⟩ := rowAfter_columns ser v cmds job
    exact ⟨hinv'.trans hinv,harg'.trans harg,hcreated'.trans hcreated,
      by rw [JobFile.change,← hexpire]; rfl⟩
  · rw [hhist job hjob,h.history,JobFile.change,List.map_append]

theorem HoldsFile.setJobParameter {id name : String} {value : Option String} (h : HoldsFile ser db v f)
    (hp : JobStorageConnection.setJobParameter id name value db = .ok db') :
    HoldsFile ser db' v (f.change v (.setJobParameter id name value,.silent)).1 := by
  rw [JobFile.change]
  obtain ⟨hv,rfl⟩ | ⟨w,t,hw,hu,-,rfl⟩ := setJobParameter_eq_ok hp
  · simpa [hv] using h
  · have hacts := actsOn_setJobParameter w name value
    by_cases hwv : w = v
    · subst hwv
      have hrep := h.properties
      rw [← List.map_id' (db.jobParameter.entries w)] at hrep
      obtain ⟨l',hl',hl⟩ := upsert_represents (f := fun e => e) (a := name) (b := value)
        (g := fun e => (e.1,value)) (n := (name,value)) (fun _ => rfl) rfl hrep
      have hcontent := hacts.entries db.jobParameter
      rw [hu,hl'] at hcontent
      have ht : t.entries w = l' := Except.ok.inj hcontent
      rw [List.map_id'] at hl
      simp only [hw,if_true]
      exact ⟨h.row,h.history,ht ▸ hl⟩
    · have hne : convert id ≠ some v := fun he => hwv (Option.some.inj (hw.symm.trans he))
      simp only [hne,if_false]
      exact h.congr rfl rfl (congrArg (List.map Shelved.entry) (hacts.frame _ t hu v (Ne.symm hwv)))

/-- The file of a new job. -/
theorem HoldsFile.created {a b : String} {p : Dictionary} {createdAt expireIn job : ℤ} (hs : Schema db)
    (hc : createExpiredJob a b p createdAt expireIn db = .ok (job,db')) :
    HoldsFile ser db' job ⟨a,b,createdAt,some (createdAt+expireIn),[],
      fun name => (p.entries.find? fun e => e.1 = name).map Prod.snd⟩ := by
  obtain ⟨e,he,hdb⟩ := map_eq_ok hc
  obtain ⟨-,rfl⟩ := DateTime.add_eq_ok.mp he
  cases hdb
  have hnew (j : ℤ) (hex : db.jobExists j) : j ≠ db.job.nextId := by
    obtain ⟨r,hr,rfl⟩ := hex
    exact (db.job.fresh r hr).ne
  refine ⟨⟨_,by rw [Table.byId_insert,if_pos rfl],rfl,rfl,rfl,rfl⟩,?_,?_⟩
  · have hnone : db.jobState.onShelf db.job.nextId = [] :=
      List.filter_eq_nil_iff.mpr fun r hr hj =>
        hnew r.job (hs.foreign.jobState r hr) (of_decide_eq_true hj)
    exact congrArg (List.map Shelved.entry) hnone
  · have hnone : db.jobParameter.entries db.job.nextId = [] := by
      rw [Table.entries,Table.onShelf,List.filter_eq_nil_iff.mpr]
      · rfl
      · exact fun r hr hj => hnew r.job (hs.foreign.jobParameter r hr) (of_decide_eq_true hj)
    rw [insertParameters_entries,hnone,if_pos rfl,List.nil_append]
    exact Represents.find p.nodup

theorem HoldsFiles.congr {f? : Option JobFile} (h : HoldsFiles ser db v f?)
    (hj : db'.job.byId v = db.job.byId v) (hs : db'.jobState.entries v = db.jobState.entries v)
    (hp : db'.jobParameter.entries v = db.jobParameter.entries v) : HoldsFiles ser db' v f? := by
  cases f? with
  | none => exact hj.trans h
  | some f => exact HoldsFile.congr h hj hs hp

/-- Delete statements take nothing of a job that they are not to take. -/
theorem HoldsFiles.deleteRows {f? : Option JobFile} {batch : List ℤ} {k : Kind} (hspares : SparesJob v s)
    (h : HoldsFiles ser s.db v f?) (hbatch : ∀ j ∈ batch, (k,j) ∈ pendingRows s) :
    HoldsFiles ser (ExpirationManager.deleteRows batch s.db k) v f? := by
  cases k with
  | job =>
    refine h.congr ?_ rfl rfl
    rw [ExpirationManager.deleteRows,SqlUtil.deleteBatch,Table.byId_delete]
    cases hb : s.db.job.byId v with
    | none => rfl
    | some job =>
      have hid : Row.id job = v := Table.id_of_byId hb
      have hnot : v ∉ batch := fun hmem => (hspares.job v (hbatch v hmem)).2 rfl
      simp [Option.filter,hid,hnot]
  | jobState =>
    refine h.congr rfl (congrArg (List.map Shelved.entry) (Table.onShelf_delete_of_ne fun r hr => ?_)) rfl
    obtain ⟨hr,hj⟩ := Table.mem_onShelf.mp hr
    have hnot : Row.id r ∉ batch := fun hmem =>
      (hspares.jobState _ (hbatch _ hmem)).2 r hr (congrArg some hj) rfl
    simpa using hnot
  | jobParameter =>
    refine h.congr rfl rfl (congrArg (List.map Shelved.entry) (Table.onShelf_delete_of_ne fun r hr => ?_))
    obtain ⟨hr,hj⟩ := Table.mem_onShelf.mp hr
    have hnot : Row.id r ∉ batch := fun hmem =>
      (hspares.jobParameter _ (hbatch _ hmem)).2 r hr (congrArg some hj) rfl
    simpa using hnot
  | _ => exact h.congr rfl rfl rfl

end Statements

section Steps

variable {ser : SerializationHelper} {T v : ℤ} {s : StorageState} {f? : Option JobFile}

/-- The file of a job after one more call. -/
def nextFile (v : ℤ) (f? : Option JobFile) (c : ClientCall) : Option JobFile :=
  (JobFile.createdBy v c).or (f?.map fun f => (f.change v c).1)

theorem jobFile_append (cs : List ClientCall) (c : ClientCall) :
    jobFile (cs ++ [c]) v = nextFile v (jobFile cs v) c := by
  rw [jobFile,current_append,← jobFile,next,nextFile]
  cases JobFile.createdBy v c <;> cases jobFile cs v <;> rfl

theorem nextFile_of_quiet {a : Action} {e : Event} (hc : ∀ cmds, e ≠ .committed cmds)
    (hj : ∀ job, e ≠ .created job) : nextFile v f? (.storage a,e) = f? := by
  have hcreated : JobFile.createdBy v (.storage a,e) = none := by
    cases e with
    | created job => exact absurd rfl (hj job)
    | _ => cases a <;> rfl
  have hchange (f : JobFile) : f.change v (.storage a,e) = (f,()) := by
    cases e with
    | committed cmds => exact absurd rfl (hc cmds)
    | _ => rfl
  simp [nextFile,hcreated,hchange]

theorem holdsFiles_step (hs : Schema s.db) (hspares : SparesJob v s) (h : HoldsFiles ser s.db v f?)
    (a : Action) : HoldsFiles ser (step ser T s a).1.db v
      (nextFile v f? (.storage a,(step ser T s a).2)) := by
  have he : StepEffect ser T s a _ _ := step_effect a
  generalize (step ser T s a).1 = s', (step ser T s a).2 = e at he
  cases he with
  | @committed cmds db hc =>
    cases f? with
    | none =>
      have hnone : s.db.job.byId v = none := h
      show db.job.byId v = none
      rw [(commit_job hc v).1,hnone,Option.map_none]
    | some f => exact HoldsFile.commit h hc _
  | @created a b p c d expireAt he =>
    by_cases hv : s.db.job.nextId = v
    · subst hv
      have hnext : nextFile s.db.job.nextId f?
          (.storage (.createExpiredJob a b p c d),.created s.db.job.nextId) =
            some ⟨a,b,c,some (c+d),[],fun name => (p.entries.find? fun e => e.1 = name).map Prod.snd⟩ := by
        simp [nextFile,JobFile.createdBy]
      rw [hnext]
      exact HoldsFile.created hs (show createExpiredJob a b p c d s.db = .ok (_,_) by
        rw [createExpiredJob,he]
        rfl)
    · have hnext : nextFile v f? (.storage (.createExpiredJob a b p c d),.created s.db.job.nextId) =
          f? := by
        simp [nextFile,JobFile.createdBy,JobFile.change,hv]
      rw [hnext]
      refine h.congr ?_ rfl ?_
      · exact (Table.byId_insert _ _ _).trans (if_neg (Ne.symm hv))
      · exact (insertParameters_entries _ _ _ _).trans (by simp [hv])
  | aggregated hp =>
    obtain ⟨items,t,-,-,rfl⟩ := CountersAggregator.pass_eq_ok hp
    rw [nextFile_of_quiet (by simp) (by simp)]
    exact h.congr rfl rfl rfl
  | deleted hi hp hr =>
    rw [nextFile_of_quiet (by simp) (by simp)]
    exact h.deleteRows hspares fun j hj => mem_pendingRows_of_batch hi hp hj
  | _ =>
    rw [nextFile_of_quiet (by simp) (by simp)]
    exact h.congr rfl rfl rfl

theorem holdsFiles_clientStep (hs : Schema s.db) (hspares : SparesJob v s)
    (h : HoldsFiles ser s.db v f?) (a : ClientAction) : HoldsFiles ser (clientStep ser T s a).1.db v
      (nextFile v f? (a,(clientStep ser T s a).2)) := by
  cases a with
  | storage a => exact holdsFiles_step hs hspares h a
  | setJobParameter id name value =>
    simp only [clientStep]
    cases hp : setJobParameter id name value s.db with
    | error f =>
      have hnext : nextFile v f? (.setJobParameter id name value,.failed f) = f? := by
        simp [nextFile,JobFile.createdBy,JobFile.change]
      rwa [hnext]
    | ok db =>
      cases f? with
      | none =>
        have hjob : db.job = s.db.job := by
          obtain ⟨-,rfl⟩ | ⟨w,t,-,-,-,rfl⟩ := setJobParameter_eq_ok hp <;> rfl
        show db.job.byId v = none
        rw [hjob]
        exact h
      | some f => exact HoldsFile.setJobParameter h hp

theorem clientCalls_append (as : List ClientAction) (a : ClientAction) :
    clientCalls ser T s (as ++ [a]) = clientCalls ser T s as ++
      [(a,(clientStep ser T (exec (clientStep ser T) s as) a).2)] := by
  rw [clientCalls,clientCalls,trace_append,List.zip_append (by simp)]
  rfl

/-- After every run that never finds the job expired the tables hold its file. -/
theorem holdsFiles_exec (now : ℤ) {as : List ClientAction}
    (hC : Along (clientStep ser T) (NotExpired v) (initial now) as) :
    HoldsFiles ser (exec (clientStep ser T) (initial now) as).db v
      (jobFile (clientCalls ser T (initial now) as) v) := by
  have hrun : Schema (exec (clientStep ser T) (initial now) as).db ∧
      SparesJob v (exec (clientStep ser T) (initial now) as) ∧
      HoldsFiles ser (exec (clientStep ser T) (initial now) as).db v
        (jobFile (clientCalls ser T (initial now) as) v) := by
    induction as using List.reverseRecOn with
    | nil => exact ⟨schema_empty,sparesJob_initial v now,rfl⟩
    | append_singleton as a ih =>
      obtain ⟨hCa,hC⟩ := (along_append as [a]).mp hC
      obtain ⟨hs,hspares,hfiles⟩ := ih hCa
      rw [exec_append,clientCalls_append,jobFile_append]
      exact ⟨schema_clientStep hs a,sparesJob_clientStep hspares a hC.1,
        holdsFiles_clientStep hs hspares hfiles a⟩
  exact hrun.2.2

end Steps

section Details

variable {J : Type} {ser : SerializationHelper} {ordinalIgnoreCase : StringComparer}
  {deserializeJob : String → String → Except Fault (Option J)} {v : ℤ} {db : Db}

theorem HoldsFile.jobDetails {f : JobFile} (h : HoldsFile ser db v f)
    (hdata : ∀ a ∈ f.history, Showable ordinalIgnoreCase a.2) {jobId : String}
    (hv : convert jobId = some v) (op : RowOrder JobParameterRow) (os : RowOrder JobStateRow) :
    ∃ properties : Dictionary, Represents properties.entries f.properties ∧
      MonitoringApi.jobDetails ser ordinalIgnoreCase deserializeJob op os jobId db =
        (deserializeJob f.invocationData f.arguments).map fun job =>
          some ⟨f.createdAt,f.expireAt,job,(f.history.map shown).reverse,properties⟩ := by
  obtain ⟨job,hb,hinv,harg,hcreated,hexpire⟩ := h.row
  have hnames : ((db.jobParameter.rows.filter fun x => x.job = v).map JobParameterRow.name).Nodup := by
    have hd := h.properties.distinct
    rw [Table.entries,List.map_map] at hd
    exact hd
  have hread : HoldsHistory ser ordinalIgnoreCase db v job f.history := ⟨hb,h.history,hdata,hnames⟩
  obtain ⟨properties,hperm,hdetails⟩ := hread.jobDetails deserializeJob hv op os
  refine ⟨properties,h.properties.perm hperm,?_⟩
  rw [hdetails,hinv,harg,hcreated,hexpire]

/-- After every run in which clean-up never found the job expired, its details show what it was
created with, the last expiry, every state appended since it was created, the newest first, and the
last value of each parameter; a job that was not created has no details. -/
theorem jobDetails_shows_file (ser : SerializationHelper) (T now : ℤ) {as : List ClientAction}
    {jobId : String} (hv : convert jobId = some v)
    (hC : Along (clientStep ser T) (NotExpired v) (initial now) as)
    (op : RowOrder JobParameterRow) (os : RowOrder JobStateRow) :
    (∀ f, jobFile (clientCalls ser T (initial now) as) v = some f →
      (∀ a ∈ f.history, Showable ordinalIgnoreCase a.2) →
      ∃ properties : Dictionary, Represents properties.entries f.properties ∧
        MonitoringApi.jobDetails ser ordinalIgnoreCase deserializeJob op os jobId
            (exec (clientStep ser T) (initial now) as).db =
          (deserializeJob f.invocationData f.arguments).map fun job =>
            some ⟨f.createdAt,f.expireAt,job,(f.history.map shown).reverse,properties⟩) ∧
    (jobFile (clientCalls ser T (initial now) as) v = none →
      MonitoringApi.jobDetails ser ordinalIgnoreCase deserializeJob op os jobId
        (exec (clientStep ser T) (initial now) as).db = .ok none) := by
  have hfiles := holdsFiles_exec now hC
  constructor
  · intro f hf hdata
    rw [hf] at hfiles
    exact HoldsFile.jobDetails hfiles hdata hv op os
  · intro hf
    rw [hf] at hfiles
    have hnone : (exec (clientStep ser T) (initial now) as).db.job.byId v = none := hfiles
    simp [MonitoringApi.jobDetails,hv,SqlUtil.singleOrDefault_id,hnone]

def enqueued : State := ⟨"Enqueued",none,some .empty⟩

/-- A parameter is overwritten, a state is set, and the states of another job are deleted. -/
def fileKept : List ClientAction :=
  [.storage (.createExpiredJob "a" "[]" .empty 0 5),
    .storage (.createExpiredJob "b" "[]" ⟨[("CurrentCulture",some "1")],by decide⟩ 0 5),
    .storage (.commit [(1,.addJobState "1" ⟨"Created",none,some .empty⟩),
      (2,.setJobState "2" enqueued),(3,.persistJob "2")]),
    .setJobParameter "2" "CurrentCulture" (some "2"),
    .storage (.advance 20),.storage (.select .jobState .stored 1000 0),.storage (.deleteBatch 0)]

theorem jobDetails_shows_file_kept : ∃ f,
    jobFile (clientCalls Json.helper 0 (initial 0) fileKept) 2 = some f ∧
    ∃ properties : Dictionary, Represents properties.entries f.properties ∧
      MonitoringApi.jobDetails (J := Unit) Json.helper .asciiIgnoreCase (fun _ _ => .ok none) .stored
          .stored "2" (exec (clientStep Json.helper 0) (initial 0) fileKept).db =
        .ok (some ⟨0,none,none,[⟨"Enqueued",2,none,.empty⟩],properties⟩) := by
  refine ⟨_,rfl,?_⟩
  refine (jobDetails_shows_file (v := 2) Json.helper 0 0 (by decide) (by decide) .stored .stored).1 _ rfl
    fun a (ha : a ∈ [(2,enqueued)]) => ?_
  rw [List.mem_singleton.mp ha]
  exact ⟨.empty,rfl,.nil⟩

end Details

end StorageSystem
end HangfireStorage
