import HangfireStorage.StepEffects

/-!
# GetStateData against the history of a job

The state columns of a job hold what the committed SetJobState commands say. Reading them
back succeeds exactly where there is such a command and its data survives the copy into a
dictionary with another comparer.
-/

namespace HangfireStorage
namespace StorageSystem

open ExpirationManager JobQueue JobStorageConnection Machine StringToInt32Converter
  WriteOnlyTransaction

/-- The jobs there are, each with the last state set on it. -/
abbrev JobStates := ℤ → Option (Option State)

namespace JobStates

def set (m : JobStates) (job : ℤ) (state : State) : JobStates :=
  fun i => if i = job then (m i).map fun _ => some state else m i

def recordCommand (m : JobStates) (c : WriteCommand) : JobStates :=
  match c with
  | .setJobState jobId state => (convert jobId).elim m fun v => m.set v state
  | _ => m

def record (m : JobStates) (e : Event) : JobStates :=
  match e with
  | .created job => Function.update m job (some none)
  | .committed cmds => cmds.foldl (fun m c => m.recordCommand c.2) m
  | .deleted .job rows => fun i => if i ∈ rows then none else m i
  | _ => m

def history (es : List Event) : JobStates := es.foldl record fun _ => none

theorem history_append (es : List Event) (e : Event) :
    history (es ++ [e]) = (history es).record e := by
  simp [history]

/-- The last state set on the job that an id string names. -/
def lastState (m : JobStates) (jobId : String) : Option State :=
  (convert jobId).bind fun v => (m v).join

end JobStates

/-- The state columns of a job. -/
structure Columns where
  name : Option String
  reason : Option String
  data : Option String
  deriving DecidableEq

def columns (r : JobRow) : Columns := ⟨r.stateName,r.stateReason,r.stateData⟩

def columnsFor (ser : SerializationHelper) : Option State → Columns
  | none => ⟨none,none,none⟩
  | some state => ⟨some state.name,state.reason,ser.serialize state.data⟩

/-- The job table holds the jobs and states of the history. -/
def Agrees (ser : SerializationHelper) (db : Db) (m : JobStates) : Prop :=
  ∀ i, (db.job.byId i).map columns = (m i).map (columnsFor ser)

section Commands

variable {ser : SerializationHelper} {m : JobStates} {db db' : Db} {now : ℤ}

theorem Agrees.of_job (h : Agrees ser db m) (hj : db'.job = db.job) : Agrees ser db' m := by
  intro i
  rw [hj]
  exact h i

theorem Agrees.eq_none (h : Agrees ser db m) {i : ℤ} (hi : db.job.byId i = none) : m i = none := by
  have := h i
  rw [hi] at this
  exact Option.map_eq_none_iff.mp this.symm

theorem recordCommand_of_ne {c : WriteCommand} (h : ∀ j state, c ≠ .setJobState j state) :
    m.recordCommand c = m := by
  cases c with
  | setJobState j state => exact absurd rfl (h j state)
  | _ => rfl

theorem recordCommand_of_missing {c : WriteCommand} (h : Agrees ser db m)
    (hset : ∀ j state, c = .setJobState j state → ∀ v, convert j = some v → ¬ db.jobExists v) :
    m.recordCommand c = m := by
  cases c with
  | setJobState j state =>
    cases hj : convert j with
    | none => simp [JobStates.recordCommand,hj]
    | some v =>
      have hv := hset j state rfl v hj
      rw [Db.jobExists_iff_byId,Bool.not_eq_true,Option.isSome_eq_false_iff,
        Option.isNone_iff_eq_none] at hv
      have hm := h.eq_none hv
      funext i
      by_cases hi : i = v <;> simp [JobStates.recordCommand,hj,JobStates.set,hi,hm]
  | _ => rfl

theorem agrees_run {c : WriteCommand} (h : Agrees ser db m) (hr : run ser now db c = .ok db') :
    Agrees ser db' (m.recordCommand c) := by
  cases run_effect hr with
  | same hs hset =>
    rw [recordCommand_of_missing h hset]
    exact h.of_job hs.job
  | expiry v e hset =>
    rw [recordCommand_of_ne hset]
    intro i
    rw [← h i,setJobExpireAt,Table.byId_modify,Option.map_map]
    congr 1
    funext r
    simp only [Function.comp_apply]
    split_ifs <;> rfl
  | @setState j state v job _ hj hjob =>
    intro i
    have hi := h i
    have hv : Row.id (withState ser state job) = v := (Table.id_of_byId hjob : Row.id job = v)
    rw [Table.byId_put,hv]
    simp only [JobStates.recordCommand,hj,Option.elim_some,JobStates.set]
    cases hb : db.job.byId i with
    | none =>
      have hm := h.eq_none hb
      simp [hm]
    | some r =>
      rw [hb] at hi
      rw [Option.map_some,Option.map_some,Table.id_of_byId hb]
      obtain ⟨o,ho⟩ : ∃ o, m i = some o := by
        cases hm : m i with
        | none => simp [hm] at hi
        | some o => exact ⟨o,rfl⟩
      rw [ho] at hi ⊢
      split_ifs with hv
      · rfl
      · exact hi
  | addState _ hj hjob => exact h.of_job rfl
  | enqueue hj => exact h.of_job rfl

theorem agrees_commit {cmds : List (ℤ × WriteCommand)} (h : Agrees ser db m)
    (hc : WriteOnlyTransaction.commit ser cmds db = .ok db') :
    Agrees ser db' (m.record (.committed cmds)) := by
  induction cmds generalizing db m with
  | nil =>
    cases hc
    exact h
  | cons c cs ih =>
    simp only [WriteOnlyTransaction.commit] at hc
    cases hr : run ser c.1 db c.2 with
    | error f => simp [hr] at hc
    | ok db₁ =>
      rw [hr] at hc
      exact ih (agrees_run h hr) hc

end Commands

section Steps

variable {ser : SerializationHelper} {T : ℤ} {s : StorageState} {m : JobStates}

/-- Deleted jobs leave the history, other deletions leave the jobs. -/
theorem agrees_deleteRows (h : Agrees ser s.db m) (batch : List ℤ) (k : Kind) :
    Agrees ser (deleteRows batch s.db k)
      (m.record (.deleted k (batch.filter (ids k s.db).contains))) := by
  cases k with
  | job =>
    intro i
    have hi := h i
    simp only [deleteRows,SqlUtil.deleteBatch,Table.byId_delete,JobStates.record]
    cases hb : s.db.job.byId i with
    | none =>
      have hm := h.eq_none hb
      simp [hm]
    | some r =>
      have hid : i ∈ ids .job s.db :=
        List.mem_map.mpr ⟨r,Table.mem_of_byId hb,Table.id_of_byId hb⟩
      rw [hb] at hi
      by_cases hmem : i ∈ batch <;> simp [Option.filter,Table.id_of_byId hb,hmem,hid,← hi]
  | _ => exact h.of_job rfl

theorem agrees_step (h : Agrees ser s.db m) (a : Action) :
    Agrees ser (step ser T s a).1.db (m.record (step ser T s a).2) := by
  have he : StepEffect ser T s a _ _ := step_effect a
  generalize (step ser T s a).1 = s', (step ser T s a).2 = e at he ⊢
  cases he with
  | committed hc => exact agrees_commit h hc
  | created he =>
    intro i
    simp only [JobStates.record,StorageState.withDb,Table.byId_insert,Function.update_apply]
    split_ifs
    · rfl
    · exact h i
  | aggregated hp =>
    obtain ⟨items,t,-,-,rfl⟩ := CountersAggregator.pass_eq_ok hp
    exact h.of_job rfl
  | deleted hi hp hr => exact agrees_deleteRows h _ _
  | deletedNothing k =>
    have hnil := agrees_deleteRows h [] k
    rwa [deleteRows_nil] at hnil
  | idle | failed | advanced | fetched | removed | requeued | disposeRequeued | disposed | crashed
  | inserted | reused | released | releasedAgain | selected | deleteFailed => exact h.of_job rfl

end Steps

/-- GetStateData returns nothing for a job without a last state, and else that state. -/
def ReadsBack (ser : SerializationHelper) (ordinalIgnoreCase : StringComparer) (jobId : String)
    (db : Db) (m : JobStates) : Prop :=
  getStateData ser ordinalIgnoreCase jobId db = .ok ((m.lastState jobId).map fun state =>
    ⟨some state.name,state.reason,state.data.getD .empty⟩)

/-- A job that exists has a last state, with data, no two keys of which the comparer
identifies. -/
def Readable (ordinalIgnoreCase : StringComparer) (jobId : String) (m : JobStates) : Prop :=
  ∀ v ∈ convert jobId, m v ≠ none → ∃ state ∈ (m v).join, ∃ d ∈ state.data,
    ((d.entries.map Prod.fst).map ordinalIgnoreCase.normal).Nodup

theorem readsBack_iff {ser : SerializationHelper} {cmp : StringComparer} {jobId : String} {db : Db}
    {m : JobStates} (h : Agrees ser db m) : ReadsBack ser cmp jobId db m ↔ Readable cmp jobId m := by
  unfold ReadsBack Readable getStateData JobStates.lastState
  cases hj : convert jobId with
  | none => simp
  | some v =>
    have hv := h v
    simp only [SqlUtil.singleOrDefault_id]
    cases hb : db.job.byId v with
    | none => simp [h.eq_none hb]
    | some r =>
      rw [hb] at hv
      obtain ⟨o,ho⟩ : ∃ o, m v = some o := by
        cases hm : m v with
        | none => simp [hm] at hv
        | some o => exact ⟨o,rfl⟩
      rw [ho,Option.map_some,Option.map_some,Option.some.injEq] at hv
      cases o with
      | none =>
        have hd : r.stateData = none := congrArg Columns.data hv
        simp [ho,hd,SerializationHelper.deserialize,Dictionary.copy,Except.map]
      | some state =>
        have hn : r.stateName = some state.name := congrArg Columns.name hv
        have hreason : r.stateReason = state.reason := congrArg Columns.reason hv
        have hd : r.stateData = ser.serialize state.data := congrArg Columns.data hv
        simp only [hd,hn,hreason,ser.deserialize_serialize]
        cases hdata : state.data with
        | none => simp [ho,hdata,Dictionary.copy,Except.map]
        | some d =>
          by_cases hk : ((d.entries.map Prod.fst).map cmp.normal).Nodup
          · simp [ho,hdata,Dictionary.copy,Except.map,hk,-List.map_map]
          · simp [ho,hdata,Dictionary.copy,Except.map,hk,-List.map_map]

/-- After every run, reading the state of a job back succeeds exactly when it is readable. -/
theorem getStateData_reads_back_iff {ser : SerializationHelper} {ordinalIgnoreCase : StringComparer}
    {T : ℤ} {s : StorageState} (hs : s.db.job.rows = []) (as : List Action) (jobId : String) :
    ReadsBack ser ordinalIgnoreCase jobId (exec (step ser T) s as).db
        (JobStates.history (trace (step ser T) s as)) ↔
      Readable ordinalIgnoreCase jobId (JobStates.history (trace (step ser T) s as)) := by
  have h₀ : Agrees ser s.db (JobStates.history []) := by
    intro i
    simp [JobStates.history,Table.byId,hs]
  have hrun := exec_trace_invariant
    (I := fun (s : StorageState) es => Agrees ser s.db (JobStates.history es)) (C := fun _ _ => True)
    (fun s a es hI _ => by
      rw [JobStates.history_append]
      exact agrees_step (T := T) hI a)
    (along_of_forall fun a (_ : a ∈ as) _ => trivial) h₀
  exact readsBack_iff hrun

section Runs

/-- A new job, and a state that is set on it. -/
def jobWithState (state : State) : List Action :=
  [.createExpiredJob "job" "[]" .empty 0 1,.commit [(0,.setJobState "1" state)]]

/-- Job 1 reads back after a run from the empty storage. -/
def JobReadsBack (as : List Action) : Prop :=
  ReadsBack Json.helper .asciiIgnoreCase "1" (exec (step Json.helper 0) (initial 0) as).db
    (JobStates.history (trace (step Json.helper 0) (initial 0) as))

instance (as : List Action) : Decidable (JobReadsBack as) :=
  inferInstanceAs (Decidable (getStateData _ _ _ _ = _))

def failed : State := ⟨"Failed",some "Reason",some ⟨[("Key",some "Value")],by decide⟩⟩

theorem getStateData_reads_back_failed : JobReadsBack (jobWithState failed) ↔
    Readable .asciiIgnoreCase "1"
      (JobStates.history (trace (step Json.helper 0) (initial 0) (jobWithState failed))) :=
  getStateData_reads_back_iff rfl (jobWithState failed) "1"

/-- A job without a state, null data, and two spellings of a key all make it throw. -/
theorem getStateData_throws :
    (¬ JobReadsBack [.createExpiredJob "job" "[]" .empty 0 1]) ∧
    (¬ JobReadsBack (jobWithState ⟨"Bare",none,none⟩)) ∧
    ¬ JobReadsBack (jobWithState ⟨"Twice",none,some ⟨[("a",none),("A",none)],by decide⟩⟩) := by
  decide

end Runs

end StorageSystem
end HangfireStorage
