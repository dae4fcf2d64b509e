import HangfireStorage.CollectionEffects
import HangfireStorage.Machine
import HangfireStorage.MonitoringApi

/-!
# The history of a job

A job's states are kept twice, all of them in its history and the last one in its columns. Both
are told from the commands addressed to the job.
-/

namespace HangfireStorage

open JobStorageConnection Machine MonitoringApi Shelved StringToInt32Converter WriteOnlyTransaction

/-- The rows of a job's history without their ids. -/
instance : Shelved JobStateRow ℤ JobStateRow where
  shelf := JobStateRow.job
  entry r := { r with id := 0 }
  shelf_withId _ _ := rfl
  entry_withId _ _ := rfl

namespace JobHistory

def appends (v : ℤ) (c : ℤ × WriteCommand) : Option (ℤ × State) :=
  match c.2 with
  | .setJobState j state | .addJobState j state =>
    if convert j = some v then some (c.1,state) else none
  | _ => none

def sets (v : ℤ) (c : ℤ × WriteCommand) : Option State :=
  match c.2 with
  | .setJobState j state => if convert j = some v then some state else none
  | _ => none

def expires (v : ℤ) (c : ℤ × WriteCommand) : Option (Option ℤ) :=
  match c.2 with
  | .expireJob j span => if convert j = some v then some (some (c.1+span)) else none
  | .persistJob j => if convert j = some v then some none else none
  | _ => none

/-- The row of a job after some commands: the last state and the last expiry stay. -/
def rowAfter (ser : SerializationHelper) (v : ℤ) (cmds : List (ℤ × WriteCommand)) (job : JobRow) :
    JobRow :=
  { (cmds.filterMap (sets v)).getLast?.elim job fun state => withState ser state job with
    expireAt := (cmds.filterMap (expires v)).getLast?.getD job.expireAt }

@[simp] theorem rowAfter_nil (ser : SerializationHelper) (v : ℤ) (job : JobRow) :
    rowAfter ser v [] job = job := rfl

theorem rowAfter_cons (ser : SerializationHelper) (v : ℤ) (c : ℤ × WriteCommand)
    (cmds : List (ℤ × WriteCommand)) (job : JobRow) :
    rowAfter ser v (c::cmds) job = rowAfter ser v cmds (rowAfter ser v [c] job) := by
  cases hs : sets v c <;> cases he : expires v c <;>
    cases hs' : (cmds.filterMap (sets v)).getLast? <;>
    cases he' : (cmds.filterMap (expires v)).getLast? <;>
    simp [rowAfter,withState,List.getLast?_cons,hs,he,hs',he']

theorem rowAfter_of_none {ser : SerializationHelper} {v : ℤ} {c : ℤ × WriteCommand}
    (hs : sets v c = none) (he : expires v c = none) (job : JobRow) :
    rowAfter ser v [c] job = job := by
  simp [rowAfter,hs,he]

theorem rowAfter_columns (ser : SerializationHelper) (v : ℤ) (cmds : List (ℤ × WriteCommand))
    (job : JobRow) : (rowAfter ser v cmds job).id = job.id ∧
      (rowAfter ser v cmds job).invocationData = job.invocationData ∧
      (rowAfter ser v cmds job).arguments = job.arguments ∧
      (rowAfter ser v cmds job).createdAt = job.createdAt := by
  unfold rowAfter
  cases (cmds.filterMap (sets v)).getLast? <;> exact ⟨rfl,rfl,rfl,rfl⟩

section Commands

variable {ser : SerializationHelper} {now : ℤ} {db db' : Db}

theorem byId_setJobExpireAt (w : ℤ) (e : Option ℤ) (db : Db) (v : ℤ) :
    (setJobExpireAt w e db).job.byId v =
      (db.job.byId v).map fun r => if v = w then { r with expireAt := e } else r := by
  rw [setJobExpireAt,Table.byId_modify]
  refine Option.map_congr fun r hr => ?_
  have hid : r.id = v := Table.id_of_byId hr
  by_cases hv : v = w
  · rw [if_pos hv,if_pos (by simp [hid,hv])]
    rfl
  · rw [if_neg hv,if_neg (by simp [hid,hv])]

theorem byId_put_withState {w : ℤ} {job : JobRow} (hjob : db.job.byId w = some job) (state : State)
    (v : ℤ) : (db.job.put (withState ser state job)).byId v =
      (db.job.byId v).map fun r => if v = w then withState ser state r else r := by
  rw [Table.byId_put]
  refine Option.map_congr fun r hr => ?_
  have hrid : Row.id r = v := Table.id_of_byId hr
  have hjid : job.id = w := Table.id_of_byId hjob
  have hwid : Row.id (withState ser state job) = w := hjid
  rw [hwid,hrid]
  by_cases hv : v = w
  · subst hv
    obtain rfl : r = job := Option.some.inj (hr.symm.trans hjob)
    rfl
  · rw [if_neg hv,if_neg hv]

theorem run_row {c : WriteCommand} (h : run ser now db c = .ok db') (v : ℤ) :
    db'.job.byId v = (db.job.byId v).map (rowAfter ser v [(now,c)]) := by
  have hsame (hj : db'.job = db.job)
      (hc : db.job.byId v = none ∨ sets v (now,c) = none ∧ expires v (now,c) = none) :
      db'.job.byId v = (db.job.byId v).map (rowAfter ser v [(now,c)]) := by
    rcases hc with hc | ⟨hs,he⟩
    · rw [hj,hc,Option.map_none]
    · rw [hj,Option.map_congr fun r _ => rowAfter_of_none hs he r,Option.map_id']
  cases c with
  | expireJob j span =>
    obtain ⟨hj,rfl⟩ | ⟨w,hj,rfl⟩ := expireJob_eq_ok h
    · exact hsame rfl (.inr ⟨rfl,by simp [expires,hj]⟩)
    · rw [byId_setJobExpireAt]
      refine Option.map_congr fun r _ => ?_
      by_cases hw : v = w <;> simp [rowAfter,sets,expires,hj,hw,eq_comm]
  | persistJob j =>
    cases h
    obtain ⟨hj,h⟩ | ⟨w,hj,h⟩ := persistJob_eq j db
    · exact hsame (by rw [h]) (.inr ⟨rfl,by simp [expires,hj]⟩)
    · rw [h,byId_setJobExpireAt]
      refine Option.map_congr fun r _ => ?_
      by_cases hw : v = w <;> simp [rowAfter,sets,expires,hj,hw,eq_comm]
  | setJobState j state =>
    obtain ⟨hmissing,rfl⟩ | ⟨w,job,hj,hjob,rfl⟩ := setJobState_eq_ok h
    · by_cases hv : convert j = some v
      · exact hsame rfl (.inl (hmissing v hv))
      · exact hsame rfl (.inr ⟨if_neg hv,rfl⟩)
    · rw [byId_put_withState hjob]
      refine Option.map_congr fun r _ => ?_
      by_cases hw : v = w <;> simp [rowAfter,sets,expires,withState,hj,hw,eq_comm]
  | addJobState j state =>
    obtain ⟨-,rfl⟩ | ⟨w,-,-,rfl⟩ := addJobState_eq_ok h <;> exact hsame rfl (.inr ⟨rfl,rfl⟩)
  | addToQueue q j =>
    obtain ⟨-,rfl⟩ | ⟨w,-,rfl⟩ := JobQueue.enqueue_eq_ok h <;> exact hsame rfl (.inr ⟨rfl,rfl⟩)
  | _ => exact hsame (run_sameJobs rfl h).job (.inr ⟨rfl,rfl⟩)

theorem run_history {c : WriteCommand} (h : run ser now db c = .ok db') {v : ℤ} {job : JobRow}
    (hjob : db.job.byId v = some job) : db'.jobState.entries v = db.jobState.entries v ++
      ((appends v (now,c)).map fun a => stateRow ser v a.2 a.1).toList := by
  have hsame (ha : appends v (now,c) = none) (hs : db'.jobState = db.jobState) :
      db'.jobState.entries v = db.jobState.entries v ++
        ((appends v (now,c)).map fun a => stateRow ser v a.2 a.1).toList := by
    rw [hs,ha]
    simp
  have hinsert {j : String} {state : State} {w : ℤ} (hj : convert j = some w)
      (ha : appends v (now,c) = if convert j = some v then some (now,state) else none)
      (hs : db'.jobState = db.jobState.insert (stateRow ser w state now)) :
      db'.jobState.entries v = db.jobState.entries v ++
        ((appends v (now,c)).map fun a => stateRow ser v a.2 a.1).toList := by
    rw [hs,ha,hj,Table.entries_insert]
    by_cases hw : w = v
    · subst hw
      simp [shelf,entry,stateRow]
    · simp [hw,shelf,stateRow]
  cases c with
  | expireJob j span => obtain ⟨-,rfl⟩ | ⟨w,-,rfl⟩ := expireJob_eq_ok h <;> exact hsame rfl rfl
  | persistJob j =>
    cases h
    obtain ⟨-,h⟩ | ⟨w,-,h⟩ := persistJob_eq j db <;> exact hsame rfl (by simp only [h,setJobExpireAt])
  | setJobState j state =>
    obtain ⟨hmissing,rfl⟩ | ⟨w,job',hj,hjob',rfl⟩ := setJobState_eq_ok h
    · have hj : convert j ≠ some v := fun hj => by simp [hmissing v hj] at hjob
      exact hsame (if_neg hj) rfl
    · exact hinsert hj rfl rfl
  | addJobState j state =>
    obtain ⟨hj,rfl⟩ | ⟨w,hj,-,rfl⟩ := addJobState_eq_ok h
    · exact hsame (by simp [appends,hj]) rfl
    · exact hinsert hj rfl rfl
  | addToQueue q j =>
    obtain ⟨-,rfl⟩ | ⟨w,-,rfl⟩ := JobQueue.enqueue_eq_ok h <;> exact hsame rfl rfl
  | _ => exact hsame rfl (run_sameJobs rfl h).jobState

def appended (v : ℤ) (cmds : List (ℤ × WriteCommand)) : List (ℤ × State) := cmds.filterMap (appends v)

/-- What committed commands do to a job: to its row, its history and its parameters. -/
theorem commit_job {cmds : List (ℤ × WriteCommand)} (h : commit ser cmds db = .ok db') (v : ℤ) :
    db'.job.byId v = (db.job.byId v).map (rowAfter ser v cmds) ∧
    (∀ job, db.job.byId v = some job → db'.jobState.entries v = db.jobState.entries v ++
      (appended v cmds).map fun a => stateRow ser v a.2 a.1) ∧
    db'.jobParameter = db.jobParameter := by
  induction cmds generalizing db with
  | nil =>
    cases h
    refine ⟨?_,fun _ _ => by simp [appended],rfl⟩
    rw [Option.map_congr fun job _ => rowAfter_nil ser v job,Option.map_id']
  | cons c cs ih =>
    obtain ⟨db₁,hr,hcs⟩ := commit_cons_eq_ok.mp h
    obtain ⟨hrow,hhist,hparam⟩ := ih hcs
    have hrow₁ := run_row hr v
    refine ⟨?_,fun job hjob => ?_,hparam.trans (run_jobParameter hr).1⟩
    · rw [hrow,hrow₁,Option.map_map]
      congr 1
      funext job
      exact (rowAfter_cons ser v c cs job).symm
    · rw [hjob] at hrow₁
      rw [hhist _ hrow₁,run_history hr hjob,appended,appended]
      cases ha : appends v c <;> simp [ha]

end Commands

section Details

variable {J : Type} {ser : SerializationHelper} {ordinalIgnoreCase : StringComparer}
  {deserializeJob : String → String → Except Fault (Option J)} {db db' : Db}

/-- The data of a state that a history can show: not null, and with keys that differ by more
than case. -/
def Showable (ordinalIgnoreCase : StringComparer) (state : State) : Prop :=
  ∃ d, state.data = some d ∧ ((d.entries.map Prod.fst).map ordinalIgnoreCase.normal).Nodup

def shown (a : ℤ × State) : StateHistoryDto :=
  ⟨a.2.name,a.1,a.2.reason,a.2.data.getD .empty⟩

theorem stateHistory_stateRow {a : ℤ × State} (h : Showable ordinalIgnoreCase a.2) (v : ℤ) :
    stateHistory ser ordinalIgnoreCase (stateRow ser v a.2 a.1) = .ok (shown a) := by
  obtain ⟨d,hd,hnd⟩ := h
  simp only [stateHistory,stateRow,ser.deserialize_serialize,hd,Dictionary.copy,if_pos hnd]
  rw [shown,hd]
  rfl

theorem stateHistories_stateRows (ser : SerializationHelper) {states : List (ℤ × State)}
    (h : ∀ a ∈ states, Showable ordinalIgnoreCase a.2) (v : ℤ) :
    (states.map fun a => stateRow ser v a.2 a.1).reverse.mapM (stateHistory ser ordinalIgnoreCase) =
      .ok (states.map shown).reverse := by
  rw [← List.map_reverse,← List.map_reverse,List.mapM_map]
  exact mapM_eq_ok fun a ha => stateHistory_stateRow (h a (List.mem_reverse.mp ha)) v

/-- Histories are made of entries, the newest first. -/
theorem history_entries (os : RowOrder JobStateRow) (v : ℤ) (db : Db) :
    (orderByDescendingId (os.arrange (db.jobState.rows.filter fun i => i.job = v))).mapM
      (stateHistory ser ordinalIgnoreCase) =
    (db.jobState.entries v).reverse.mapM (stateHistory ser ordinalIgnoreCase) := by
  rw [orderByDescendingId_of_perm (db.jobState.sorted.filter _) (os.perm _),Table.entries,
    ← List.map_reverse,List.mapM_map]
  rfl

theorem detailsOf_after {v : ℤ} {cmds : List (ℤ × WriteCommand)} {job : JobRow} (hid : job.id = v)
    (hhist : db'.jobState.entries v = db.jobState.entries v ++
      (appended v cmds).map fun a => stateRow ser v a.2 a.1)
    (hparam : db'.jobParameter = db.jobParameter)
    (hdata : ∀ a ∈ appended v cmds, Showable ordinalIgnoreCase a.2)
    (op : RowOrder JobParameterRow) (os os' : RowOrder JobStateRow) :
    detailsOf ser ordinalIgnoreCase deserializeJob op os' (rowAfter ser v cmds job) db' =
      (detailsOf ser ordinalIgnoreCase deserializeJob op os job db).map fun d => { d with
        expireAt := (cmds.filterMap (expires v)).getLast?.getD d.expireAt
        history := ((appended v cmds).map shown).reverse ++ d.history } := by
  have hcols := rowAfter_columns ser v cmds job
  have hnew := stateHistories_stateRows ser hdata v
  simp only [detailsOf,hcols,hid,hparam,history_entries,hhist,List.reverse_append,List.mapM_append,hnew]
  split
  · rfl
  · cases (db.jobState.entries v).reverse.mapM (stateHistory ser ordinalIgnoreCase) with
    | error f => rfl
    | ok history =>
      cases deserializeJob job.invocationData job.arguments <;> rfl

theorem jobDetails_commit {cmds : List (ℤ × WriteCommand)} (h : commit ser cmds db = .ok db')
    {jobId : String} {v : ℤ} (hv : convert jobId = some v)
    (hdata : ∀ a ∈ appended v cmds, Showable ordinalIgnoreCase a.2)
    (op : RowOrder JobParameterRow) (os os' : RowOrder JobStateRow) :
    jobDetails ser ordinalIgnoreCase deserializeJob op os' jobId db' =
      (jobDetails ser ordinalIgnoreCase deserializeJob op os jobId db).map (Option.map fun d => { d with
        expireAt := (cmds.filterMap (expires v)).getLast?.getD d.expireAt
        history := ((appended v cmds).map shown).reverse ++ d.history }) := by
  obtain ⟨hrow,hhist,hparam⟩ := commit_job h v
  simp only [jobDetails,hv,SqlUtil.singleOrDefault_id,hrow]
  cases hjob : db.job.byId v with
  | none => rfl
  | some job =>
    simp only [Option.map_some,
      detailsOf_after (Table.id_of_byId hjob) (hhist job hjob) hparam hdata op os os']
    cases detailsOf ser ordinalIgnoreCase deserializeJob op os job db <;> rfl

/-- The tables hold a job with the states it has had, and all of it can be shown. -/
structure HoldsHistory (ser : SerializationHelper) (ordinalIgnoreCase : StringComparer) (db : Db) (v : ℤ)
    (job : JobRow) (states : List (ℤ × State)) : Prop where
  row : db.job.byId v = some job
  history : db.jobState.entries v = states.map fun a => stateRow ser v a.2 a.1
  showable : ∀ a ∈ states, Showable ordinalIgnoreCase a.2
  parameters : ((db.jobParameter.rows.filter fun x => x.job = v).map JobParameterRow.name).Nodup

variable {v : ℤ} {job : JobRow} {states : List (ℤ × State)} {cmds : List (ℤ × WriteCommand)}

theorem HoldsHistory.commit (h : HoldsHistory ser ordinalIgnoreCase db v job states)
    (hc : commit ser cmds db = .ok db') (hdata : ∀ a ∈ appended v cmds, Showable ordinalIgnoreCase a.2) :
    HoldsHistory ser ordinalIgnoreCase db' v (rowAfter ser v cmds job) (states ++ appended v cmds) := by
  obtain ⟨hrow,hhist,hparam⟩ := commit_job hc v
  refine ⟨by rw [hrow,h.row,Option.map_some],?_,fun a ha => ?_,hparam ▸ h.parameters⟩
  · rw [hhist job h.row,h.history,List.map_append]
  · exact (List.mem_append.mp ha).elim (h.showable a) (hdata a)

variable (deserializeJob) in
/-- The details of a job show all its states, the newest first. -/
theorem HoldsHistory.jobDetails (h : HoldsHistory ser ordinalIgnoreCase db v job states) {jobId : String}
    (hv : convert jobId = some v) (op : RowOrder JobParameterRow) (os : RowOrder JobStateRow) :
    ∃ properties : Dictionary,
      properties.entries.Perm ((db.jobParameter.rows.filter fun x => x.job = v).map fun x =>
        (x.name,x.value)) ∧
      MonitoringApi.jobDetails ser ordinalIgnoreCase deserializeJob op os jobId db =
        (deserializeJob job.invocationData job.arguments).map fun j =>
          some ⟨job.createdAt,job.expireAt,j,(states.map shown).reverse,properties⟩ := by
  have hid : job.id = v := Table.id_of_byId h.row
  have hperm := (op.perm (db.jobParameter.rows.filter fun x => x.job = v)).map fun x => (x.name,x.value)
  have hnames : (((op.arrange (db.jobParameter.rows.filter fun x => x.job = v)).map fun x =>
      (x.name,x.value)).map Prod.fst).Nodup := by
    rw [(hperm.map Prod.fst).nodup_iff,List.map_map]
    exact h.parameters
  refine ⟨⟨_,hnames⟩,hperm,?_⟩
  have hhistory := stateHistories_stateRows ser h.showable v
  rw [MonitoringApi.jobDetails]
  simp only [hv,SqlUtil.singleOrDefault_id,h.row,detailsOf,hid,toDictionary,dif_pos hnames,
    history_entries,h.history,hhistory]
  cases deserializeJob job.invocationData job.arguments <;> rfl

end Details

/-- Three columns of one row are written and one row is inserted, and that is all. -/
structure StateOnly (ser : SerializationHelper) (v : ℤ) (state : State) (db db' : Db) : Prop where
  row : ∀ job, db.job.byId v = some job → db'.job.byId v = some { job with
    stateName := some state.name
    stateReason := state.reason
    stateData := ser.serialize state.data }
  jobs : ∀ w, w ≠ v → db'.job.byId w = db.job.byId w
  histories : ∀ w, w ≠ v → db'.jobState.onShelf w = db.jobState.onShelf w
  rest : db' = { db with job := db'.job, jobState := db'.jobState }

theorem setJobState_stateOnly {ser : SerializationHelper} {now v : ℤ} {j : String} {state : State}
    {db db' : Db} (hj : convert j = some v) (h : run ser now db (.setJobState j state) = .ok db') :
    StateOnly ser v state db db' where
  row job hjob := by
    rw [run_row h v,hjob]
    simp [rowAfter,sets,expires,hj,withState]
  jobs w hw := by
    rw [run_row h w,Option.map_congr fun r _ => rowAfter_of_none (by simp [sets,hj,Ne.symm hw]) rfl r,
      Option.map_id']
  histories w hw := by
    cases run_effect h with
    | same hs _ => rw [hs.jobState]
    | expiry _ _ hne => exact absurd rfl (hne j state)
    | @setState _ _ u job now' hj' hjob =>
      obtain rfl : u = v := Option.some.inj (hj'.symm.trans hj)
      simp [Table.onShelf_insert,shelf,stateRow,Ne.symm hw]
  rest := by
    obtain ⟨-,rfl⟩ | ⟨w,job,-,-,rfl⟩ := setJobState_eq_ok h <;> rfl

theorem commit_of_path {ser : SerializationHelper} {txs : List (List (ℤ × WriteCommand))} {db db' : Db}
    (h : Path (fun d cmds d' => commit ser cmds d = .ok d') db txs db') :
    commit ser txs.flatten db = .ok db' := by
  induction h with
  | nil => rfl
  | cons hc _ ih => exact commit_append.mpr ⟨_,hc,ih⟩

/-- After every run of committed transactions the details of a job show the states it had and
then those appended by the run, each once, the newest first. They show what they showed before
and the appended states, the row of a job has the last state and the last expiry set on it,
parameters are as they were, and a SetJobState writes three columns only. -/
theorem job_history_complete {J : Type} {ser : SerializationHelper} {ordinalIgnoreCase : StringComparer}
    {deserializeJob : String → String → Except Fault (Option J)}
    {txs : List (List (ℤ × WriteCommand))} {db db' : Db}
    (h : Path (fun d cmds d' => commit ser cmds d = .ok d') db txs db')
    (hdata : ∀ c ∈ txs.flatten, ∀ v a, appends v c = some a → Showable ordinalIgnoreCase a.2) :
    (∀ jobId v, convert jobId = some v → ∀ job states j,
      HoldsHistory ser ordinalIgnoreCase db v job states →
      deserializeJob job.invocationData job.arguments = .ok j → ∀ op os,
      ∃ properties : Dictionary,
        properties.entries.Perm ((db.jobParameter.rows.filter fun x => x.job = v).map fun x =>
          (x.name,x.value)) ∧
        jobDetails ser ordinalIgnoreCase deserializeJob op os jobId db' = .ok (some {
          createdAt := job.createdAt
          expireAt := (txs.flatten.filterMap (expires v)).getLast?.getD job.expireAt
          job := j
          history := ((states ++ appended v txs.flatten).map shown).reverse
          properties := properties })) ∧
    (∀ jobId v, convert jobId = some v → ∀ op os os',
      jobDetails ser ordinalIgnoreCase deserializeJob op os' jobId db' =
        (jobDetails ser ordinalIgnoreCase deserializeJob op os jobId db).map
          (Option.map fun d => { d with
            expireAt := (txs.flatten.filterMap (expires v)).getLast?.getD d.expireAt
            history := ((appended v txs.flatten).map shown).reverse ++ d.history })) ∧
    (∀ v, db'.job.byId v = (db.job.byId v).map (rowAfter ser v txs.flatten)) ∧
    db'.jobParameter = db.jobParameter ∧
    ∀ now j v state d d', convert j = some v → run ser now d (.setJobState j state) = .ok d' →
      StateOnly ser v state d d' := by
  have hcommit := commit_of_path h
  have hshow (v : ℤ) : ∀ a ∈ appended v txs.flatten, Showable ordinalIgnoreCase a.2 := by
    intro a ha
    obtain ⟨c,hc,hca⟩ := List.mem_filterMap.mp ha
    exact hdata c hc v a hca
  refine ⟨fun jobId v hv job states j hread hj op os => ?_,
    fun jobId v hv op os os' => jobDetails_commit hcommit hv (hshow v) op os os',
    fun v => (commit_job hcommit v).1,(commit_job hcommit 0).2.2,
    fun _ _ _ _ _ _ hj hr => setJobState_stateOnly hj hr⟩
  obtain ⟨properties,hperm,hdetails⟩ :=
    (hread.commit hcommit (hshow v)).jobDetails deserializeJob hv op os
  obtain ⟨-,hinv,hargs,hcreated⟩ := rowAfter_columns ser v txs.flatten job
  rw [(commit_job hcommit v).2.2] at hperm
  refine ⟨properties,hperm,?_⟩
  rw [hdetails,hinv,hargs,hcreated,hj]
  rfl

def oneJob : Db :=
  { Db.empty with job := Table.empty.insert ⟨0,"invocation","arguments",0,none,none,none,none⟩ }

/-- An expiry and a state in one transaction, and a further state in the history only. -/
def threeWrites : List (List (ℤ × WriteCommand)) :=
  [[(5,.expireJob "1" 10),(6,.setJobState "1" ⟨"Processing",none,some .empty⟩)],
    [(7,.addJobState " 1" ⟨"Processed",some "done",some .empty⟩)]]

theorem job_history_threeWrites : ∃ db',
    Path (fun d cmds d' => commit Json.helper cmds d = .ok d') oneJob threeWrites db' ∧
    db'.job.rows = [⟨1,"invocation","arguments",0,some 15,some "Processing",none,some "{}"⟩] ∧
    jobDetails (J := Unit) Json.helper .asciiIgnoreCase (fun _ _ => .ok none) .stored .stored "1" db' =
      .ok (some ⟨0,some 15,none,[⟨"Processed",7,some "done",.empty⟩,⟨"Processing",6,none,.empty⟩],
        .empty⟩) := by
  have hpath : ∃ db', Path (fun d cmds d' => commit Json.helper cmds d = .ok d') oneJob threeWrites
      db' ∧ db'.job.rows =
        [⟨1,"invocation","arguments",0,some 15,some "Processing",none,some "{}"⟩] := by
    refine ⟨_,.cons rfl (.cons rfl (.nil _)),?_⟩
    decide
  obtain ⟨db',h,hrow⟩ := hpath
  have hread : HoldsHistory Json.helper .asciiIgnoreCase oneJob 1
      ⟨1,"invocation","arguments",0,none,none,none,none⟩ [] := ⟨rfl,rfl,by simp,by decide⟩
  have hdata : ∀ c ∈ threeWrites.flatten, ∀ v a, appends v c = some a →
      Showable .asciiIgnoreCase a.2 := by
    intro c hc v a ha
    obtain rfl | rfl | rfl : c = (5,.expireJob "1" 10) ∨
        c = (6,.setJobState "1" ⟨"Processing",none,some .empty⟩) ∨
        c = (7,.addJobState " 1" ⟨"Processed",some "done",some .empty⟩) := by
      simpa [threeWrites] using hc
    · cases ha
    all_goals
      simp only [appends] at ha
      split_ifs at ha
      cases ha
      exact ⟨.empty,rfl,.nil⟩
  obtain ⟨properties,hperm,hdetails⟩ :=
    (@job_history_complete Unit _ _ (fun _ _ => .ok none) _ _ _ h hdata).1 "1" 1 (by decide) _ _ none
      hread rfl .stored .stored
  obtain rfl : properties = .empty := by
    obtain ⟨entries,hnodup⟩ := properties
    obtain rfl : entries = [] := hperm.eq_nil
    rfl
  exact ⟨db',h,hrow,hdetails⟩

end JobHistory
end HangfireStorage
