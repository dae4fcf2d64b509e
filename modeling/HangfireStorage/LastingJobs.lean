import HangfireStorage.LastingRows
import HangfireStorage.SchemaInvariant

/-!
# Jobs that clean-up finds unexpired

Clean-up deletes by ids that it has read before. A job that has not expired whenever ids are read
keeps its row and the rows that refer to it, although the ids are deleted later and one by one.
-/

namespace HangfireStorage

namespace Table

variable {ρ : Type} [Row ρ] [JobChild ρ] {v : ℤ} {t t' t'' : Table ρ}

/-- The rows that refer to a job are old ones that did so before, or new ones. -/
structure ChildrenFrom (v : ℤ) (t t' : Table ρ) : Prop where
  nextId : t.nextId ≤ t'.nextId
  rows : ∀ r' ∈ t'.rows, JobChild.job r' = some v →
    t.nextId ≤ Row.id r' ∨ ∃ r ∈ t.rows, JobChild.job r = some v ∧ Row.id r = Row.id r'

namespace ChildrenFrom

theorem refl (v : ℤ) (t : Table ρ) : ChildrenFrom v t t := ⟨le_rfl,fun r hr hj => .inr ⟨r,hr,hj,rfl⟩⟩

theorem trans (h : ChildrenFrom v t t') (h' : ChildrenFrom v t' t'') : ChildrenFrom v t t'' where
  nextId := h.nextId.trans h'.nextId
  rows r'' hr'' hj'' := by
    obtain hnew | ⟨r',hr',hj',hid⟩ := h'.rows r'' hr'' hj''
    · exact .inl (h.nextId.trans hnew)
    · rw [← hid]
      exact h.rows r' hr' hj'

theorem insert (r : ρ) : ChildrenFrom v t (t.insert r) where
  nextId := by simp
  rows r' hr' hj := by
    obtain hr' | hr' := List.mem_append.mp hr'
    · exact .inr ⟨r',hr',hj,rfl⟩
    · exact .inl (by simp [List.mem_singleton.mp hr'])

theorem delete (p : ρ → Bool) : ChildrenFrom v t (t.delete p) :=
  ⟨le_rfl,fun r hr hj => .inr ⟨r,List.mem_of_mem_filter hr,hj,rfl⟩⟩

theorem mapRows {g : ρ → ρ} {hg : ∀ r, Row.id (g r) = Row.id r}
    (h : ∀ r ∈ t.rows, JobChild.job (g r) = JobChild.job r) : ChildrenFrom v t (t.mapRows g hg) where
  nextId := le_rfl
  rows r' hr' hj := by
    obtain ⟨r,hr,rfl⟩ := List.mem_map.mp hr'
    exact .inr ⟨r,hr,h r hr ▸ hj,(hg r).symm⟩

theorem modify {p : ρ → Bool} {u : Update ρ} (h : ∀ r, JobChild.job (u.apply r) = JobChild.job r) :
    ChildrenFrom v t (t.modify p u) :=
  mapRows fun r _ => by split_ifs <;> simp [h]

theorem put {e e' : ρ} (he : e ∈ t.rows) (hid : Row.id e' = Row.id e)
    (hj : JobChild.job e' = JobChild.job e) : ChildrenFrom v t (t.put e') := by
  refine mapRows fun r hr => ?_
  split_ifs with hr'
  · rw [hj,Table.eq_of_id hr he (hr'.trans hid)]
  · rfl

theorem upsertEntity {matchFunc : ρ → Bool} {changeAction keysetAction : ρ → ρ} {new : ρ}
    (h : SqlUtil.upsertEntity matchFunc changeAction keysetAction new t = .ok t')
    (hid : ∀ r, Row.id (changeAction r) = Row.id r)
    (hj : ∀ r, JobChild.job (changeAction r) = JobChild.job r) : ChildrenFrom v t t' := by
  obtain ⟨entity,hs,rfl⟩ := map_eq_ok h
  cases entity with
  | none => exact insert _
  | some e =>
    have he : e ∈ t.rows.filter matchFunc := by simp [SqlUtil.singleOrDefault_eq_ok hs]
    exact put (List.mem_of_mem_filter he) (hid e) (hj e)

end ChildrenFrom
end Table

namespace StorageSystem

open ExpirationManager JobStorageConnection Machine StringToInt32Converter Table WriteOnlyTransaction

/-- No new row of the four tables has an old id, and no old row refers to the job anew. -/
structure JobTablesFrom (v : ℤ) (db db' : Db) : Prop where
  job : db.job.nextId ≤ db'.job.nextId
  jobState : db.jobState.ChildrenFrom v db'.jobState
  jobParameter : db.jobParameter.ChildrenFrom v db'.jobParameter
  jobQueue : db.jobQueue.ChildrenFrom v db'.jobQueue

/-- The ids of one kind that wait for deletion are old, and those of no row of the job. -/
def SparesChildren {ρ : Type} [Row ρ] [JobChild ρ] (k : Kind) (v : ℤ) (t : Table ρ) (s : StorageState) :
    Prop :=
  ∀ i, (k,i) ∈ pendingRows s → i < t.nextId ∧ ∀ r ∈ t.rows, JobChild.job r = some v → Row.id r ≠ i

/-- Nothing of the job waits for its deletion. -/
structure SparesJob (v : ℤ) (s : StorageState) : Prop where
  job : ∀ i, (Kind.job,i) ∈ pendingRows s → i < s.db.job.nextId ∧ i ≠ v
  jobState : SparesChildren .jobState v s.db.jobState s
  jobParameter : SparesChildren .jobParameter v s.db.jobParameter s
  jobQueue : SparesChildren .jobQueue v s.db.jobQueue s

/-- Clean-up does not find the job expired. -/
def NotExpired (v : ℤ) (s : StorageState) : ClientAction → Prop
  | .storage (.select _ _ _ age) => jobExpired (s.now-age) s.db (some v) = false
  | _ => True

instance (v : ℤ) (s : StorageState) (a : ClientAction) : Decidable (NotExpired v s a) := by
  unfold NotExpired
  split <;> infer_instance

section Tables

variable {v : ℤ} {db db' db'' : Db} {ser : SerializationHelper}

theorem JobTablesFrom.refl (v : ℤ) (db : Db) : JobTablesFrom v db db :=
  ⟨le_rfl,.refl _ _,.refl _ _,.refl _ _⟩

theorem JobTablesFrom.trans (h : JobTablesFrom v db db') (h' : JobTablesFrom v db' db'') :
    JobTablesFrom v db db'' :=
  ⟨h.job.trans h'.job,h.jobState.trans h'.jobState,h.jobParameter.trans h'.jobParameter,
    h.jobQueue.trans h'.jobQueue⟩

theorem JobTablesFrom.of_sameJobs (h : db.SameJobs db') : JobTablesFrom v db db' := by
  obtain ⟨hj,hp,hs,hq⟩ := h
  exact ⟨hj ▸ le_rfl,hs ▸ .refl _ _,hp ▸ .refl _ _,hq ▸ .refl _ _⟩

theorem jobTablesFrom_commit {cmds : List (ℤ × WriteCommand)} (h : commit ser cmds db = .ok db') :
    JobTablesFrom v db db' := by
  refine commit_induction (P := JobTablesFrom v db) (Q := fun _ => True) ?_ (by simp) (.refl v db) h
  intro now c d d' _ hd hr
  refine hd.trans ?_
  cases run_effect hr with
  | same hs _ => exact .of_sameJobs hs
  | expiry w e _ => exact ⟨le_rfl,.refl _ _,.refl _ _,.refl _ _⟩
  | setState _ _ _ => exact ⟨le_rfl,.insert _,.refl _ _,.refl _ _⟩
  | addState _ _ _ => exact ⟨le_rfl,.insert _,.refl _ _,.refl _ _⟩
  | enqueue _ => exact ⟨le_rfl,.refl _ _,.refl _ _,.insert _⟩

theorem childrenFrom_insertParameters (job : ℤ) (ps : List (String × Option String))
    (t : Table JobParameterRow) : t.ChildrenFrom v (insertParameters job ps t) := by
  induction ps generalizing t with
  | nil => exact .refl _ _
  | cons p ps ih => exact (ChildrenFrom.insert _).trans (ih _)

theorem jobTablesFrom_deleteRows (batch : List ℤ) (k : Kind) (db : Db) :
    JobTablesFrom v db (deleteRows batch db k) := by
  cases k with
  | jobQueue => exact ⟨le_rfl,.refl _ _,.refl _ _,.delete _⟩
  | jobParameter => exact ⟨le_rfl,.refl _ _,.delete _,.refl _ _⟩
  | jobState => exact ⟨le_rfl,.delete _,.refl _ _,.refl _ _⟩
  | _ => exact ⟨le_rfl,.refl _ _,.refl _ _,.refl _ _⟩

theorem jobTablesFrom_setJobParameter {id name : String} {value : Option String}
    (h : setJobParameter id name value db = .ok db') : JobTablesFrom v db db' := by
  obtain ⟨-,rfl⟩ | ⟨w,t,-,hu,-,rfl⟩ := setJobParameter_eq_ok h
  · exact .refl v _
  · exact ⟨le_rfl,.refl _ _,.upsertEntity hu (fun _ => rfl) fun _ => rfl,.refl _ _⟩

end Tables

section Sweeps

variable {v : ℤ} {s s' : StorageState} {ser : SerializationHelper} {T : ℤ}

theorem SparesChildren.keep {ρ : Type} [Row ρ] [JobChild ρ] {k : Kind} {t t' : Table ρ}
    (h : SparesChildren k v t s) (hp : ∀ q ∈ pendingRows s', q ∈ pendingRows s)
    (hf : t.ChildrenFrom v t') : SparesChildren k v t' s' := by
  intro i hi
  obtain ⟨hlt,hne⟩ := h i (hp _ hi)
  refine ⟨hlt.trans_le hf.nextId,fun r' hr' hj' => ?_⟩
  obtain hnew | ⟨r,hr,hj,hid⟩ := hf.rows r' hr' hj'
  · omega
  · exact hid ▸ hne r hr hj

theorem SparesJob.keep (h : SparesJob v s) (hp : ∀ q ∈ pendingRows s', q ∈ pendingRows s)
    (hf : JobTablesFrom v s.db s'.db) : SparesJob v s' where
  job i hi := ⟨(h.job i (hp _ hi)).1.trans_le hf.job,(h.job i (hp _ hi)).2⟩
  jobState := h.jobState.keep hp hf.jobState
  jobParameter := h.jobParameter.keep hp hf.jobParameter
  jobQueue := h.jobQueue.keep hp hf.jobQueue

/-- Rows that refer to the job are not selected if it has not expired. -/
theorem SparesChildren.select {ρ : Type} [Row ρ] [JobChild ρ] {k k' : Kind} {t : Table ρ}
    {o : RowOrder ℤ} {n : ℕ} {cutoff : ℤ} (h : SparesChildren k' v t s)
    (hC : jobExpired cutoff s.db (some v) = false)
    (hids : expiredIds cutoff s.db k' = (expiredDetails cutoff s.db t).map Row.id) :
    SparesChildren k' v t { s with sweeps := s.sweeps ++ [Sweep.start k o n cutoff s.db] } := by
  intro i hi
  obtain hi | ⟨-,hi⟩ := mem_pendingRows_select hi
  · exact h i hi
  · rw [hids] at hi
    obtain ⟨a,ha,rfl⟩ := List.mem_map.mp hi
    obtain ⟨ha,hexpired⟩ := List.mem_filter.mp ha
    refine ⟨t.fresh a ha,fun r hr hj hid => ?_⟩
    obtain rfl := Table.eq_of_id hr ha hid
    rw [hj,hC] at hexpired
    cases hexpired

theorem SparesJob.select {k : Kind} {o : RowOrder ℤ} {n : ℕ} {cutoff : ℤ} (h : SparesJob v s)
    (hC : jobExpired cutoff s.db (some v) = false) :
    SparesJob v { s with sweeps := s.sweeps ++ [Sweep.start k o n cutoff s.db] } where
  job i hi := by
    obtain hi | ⟨-,hi⟩ := mem_pendingRows_select hi
    · exact h.job i hi
    · obtain ⟨a,ha,rfl⟩ := List.mem_map.mp hi
      obtain ⟨ha,hexpired⟩ := List.mem_filter.mp ha
      refine ⟨s.db.job.fresh a ha,fun hid => ?_⟩
      subst hid
      rw [jobExpired,Option.bind_some,Table.byId_of_mem ha] at hC
      exact absurd (hexpired.symm.trans hC) (by simp)
  jobState := h.jobState.select hC rfl
  jobParameter := h.jobParameter.select hC rfl
  jobQueue := h.jobQueue.select hC rfl

theorem sparesJob_step (h : SparesJob v s) (a : Action) (hC : NotExpired v s (.storage a)) :
    SparesJob v (step ser T s a).1 := by
  have he : StepEffect ser T s a _ _ := step_effect a
  generalize (step ser T s a).1 = s', (step ser T s a).2 = e at he
  cases he with
  | committed hc => exact h.keep (fun _ => id) (jobTablesFrom_commit hc)
  | created he =>
    refine h.keep (fun _ => id) ⟨?_,.refl _ _,childrenFrom_insertParameters _ _ _,.refl _ _⟩
    show s.db.job.nextId ≤ s.db.job.nextId + 1
    omega
  | fetched hi hel hq hj =>
    exact h.keep (fun _ => id) ⟨le_rfl,.refl _ _,.refl _ _,.put hi rfl rfl⟩
  | removed hc hi => exact h.keep (fun _ => id) ⟨le_rfl,.refl _ _,.refl _ _,.delete _⟩
  | requeued hc hi | disposeRequeued hc hi hd =>
    exact h.keep (fun _ => id) ⟨le_rfl,.refl _ _,.refl _ _,.modify fun _ => rfl⟩
  | aggregated hp =>
    obtain ⟨items,t,-,-,rfl⟩ := CountersAggregator.pass_eq_ok hp
    exact h.keep (fun _ => id) (.of_sameJobs ⟨rfl,rfl,rfl,rfl⟩)
  | selected k o b age => exact h.select hC
  | @deleted i w batch rest hi hp hr =>
    refine h.keep (fun q hq => ?_) (jobTablesFrom_deleteRows batch w.kind s.db)
    refine mem_pendingRows_set ⟨w.kind,rest⟩ hi rfl hq rfl fun j hj => ?_
    simp [hp,hj]
  | @deleteFailed i w f hi =>
    exact h.keep (fun q hq => mem_pendingRows_set ⟨w.kind,[]⟩ hi rfl hq rfl (by simp)) (.refl _ _)
  | _ => exact h.keep (fun _ => id) (.of_sameJobs ⟨rfl,rfl,rfl,rfl⟩)

theorem sparesJob_clientStep (h : SparesJob v s) (a : ClientAction) (hC : NotExpired v s a) :
    SparesJob v (clientStep ser T s a).1 := by
  cases a with
  | storage a => exact sparesJob_step h a hC
  | setJobParameter id name value =>
    simp only [clientStep]
    cases hp : setJobParameter id name value s.db with
    | error f => exact h
    | ok db => exact h.keep (fun _ hq => hq) (jobTablesFrom_setJobParameter hp)

theorem sparesJob_initial (v now : ℤ) : SparesJob v (initial now) := by
  constructor <;> intro i hi <;> simp [pendingRows,initial] at hi

end Sweeps

section Queue

variable {v k : ℤ} {queue : String} {s : StorageState} {ser : SerializationHelper} {T : ℤ}

/-- The job and the queue of a queue row. -/
def queued (k : ℤ) (db : Db) : Option (Option ℤ × String) :=
  (db.jobQueue.byId k).map fun r => (r.job,r.queue)

theorem byId_grown {t t' : Table JobQueueRow} {r : JobQueueRow} (h : Grown t t')
    (hk : t.byId k = some r) : t'.byId k = some r := by
  induction h with
  | refl => exact hk
  | insert job queue hg ih =>
    have hlt := Table.lt_of_byId ih
    rwa [Table.byId_insert,if_neg hlt.ne]

/-- A statement that deletes what waited for it takes no queue row of the job. -/
theorem queued_deleteRows (h : SparesJob v s) (hk : queued k s.db = some (some v,queue)) {i : ℕ}
    {w : Sweep} {batch : List ℤ} {rest : List (List ℤ)} (hi : s.sweeps[i]? = some w)
    (hp : w.pending = batch::rest) : queued k (deleteRows batch s.db w.kind) = some (some v,queue) := by
  rw [queued,deleteRows_jobQueue]
  split_ifs with hkind
  · obtain ⟨r,hr,he⟩ := Option.map_eq_some_iff.mp hk
    have hid : r.id = k := Table.id_of_byId hr
    have hnot : r.id ∉ batch := fun hmem => by
      have hpending := mem_pendingRows_of_batch hi hp hmem
      rw [hkind] at hpending
      exact (h.jobQueue r.id hpending).2 r (Table.mem_of_byId hr) (Prod.mk.inj he).1 rfl
    rw [Table.byId_delete,hr]
    simpa [Option.filter,hnot] using he
  · exact hk

theorem queued_step (h : SparesJob v s) (hk : queued k s.db = some (some v,queue)) (a : Action) :
    queued k (step ser T s a).1.db = some (some v,queue) ∨ ∃ i, (step ser T s a).2 = .removed i k := by
  have he : StepEffect ser T s a _ _ := step_effect a
  generalize (step ser T s a).1 = s', (step ser T s a).2 = e at he
  cases he with
  | committed hc =>
    obtain ⟨r,hr,he⟩ := Option.map_eq_some_iff.mp hk
    exact .inl (Option.map_eq_some_iff.mpr ⟨r,byId_grown (commit_grown hc) hr,he⟩)
  | fetched hi hel hq hj =>
    obtain ⟨r,hr,he⟩ := Option.map_eq_some_iff.mp hk
    left
    rw [queued,Table.byId_put,hr,Option.map_some,Option.map_some,← he]
    split_ifs with hid
    · rw [Table.eq_of_id (Table.mem_of_byId hr) hi hid]
      rfl
    · rfl
  | requeued hc hi | disposeRequeued hc hi hd =>
    obtain ⟨r,hr,he⟩ := Option.map_eq_some_iff.mp hk
    left
    rw [queued,StorageState.requeue,Table.byId_modify,hr,Option.map_some,Option.map_some,← he]
    split_ifs <;> rfl
  | @removed i h' hc hi =>
    by_cases hid : h'.job.id = k
    · exact .inr ⟨i,by rw [hid]⟩
    · left
      obtain ⟨r,hr,he⟩ := Option.map_eq_some_iff.mp hk
      have hrk : r.id = k := Table.id_of_byId hr
      rw [queued,Table.byId_delete,hr]
      simpa [Option.filter,hrk,Ne.symm hid] using he
  | aggregated hp =>
    obtain ⟨items,t,-,-,rfl⟩ := CountersAggregator.pass_eq_ok hp
    exact .inl hk
  | deleted hi hp hr => exact .inl (queued_deleteRows h hk hi hp)
  | _ => exact .inl hk

theorem queued_clientStep (h : SparesJob v s) (hk : queued k s.db = some (some v,queue))
    (a : ClientAction) : queued k (clientStep ser T s a).1.db = some (some v,queue) ∨
      ∃ i, (clientStep ser T s a).2 = .removed i k := by
  cases a with
  | storage a => exact queued_step h hk a
  | setJobParameter id name value =>
    simp only [clientStep]
    cases hp : setJobParameter id name value s.db with
    | error f => exact .inl hk
    | ok db => obtain ⟨-,rfl⟩ | ⟨w,t,-,-,-,rfl⟩ := setJobParameter_eq_ok hp <;> exact .inl hk

/-- In every run in which clean-up never finds a job expired, a row that queues it stays in its
queue until a worker removes it, whatever clean-up does to other jobs. -/
theorem queued_job_stays (ser : SerializationHelper) (T now : ℤ) {as bs : List ClientAction} {v k : ℤ}
    {queue : String} (hC : Along (clientStep ser T) (NotExpired v) (initial now) (as ++ bs))
    (hk : queued k (exec (clientStep ser T) (initial now) as).db = some (some v,queue)) :
    queued k (exec (clientStep ser T) (initial now) (as ++ bs)).db = some (some v,queue) ∨
      ∃ i, .removed i k ∈ trace (clientStep ser T) (exec (clientStep ser T) (initial now) as) bs := by
  obtain ⟨hCa,hCb⟩ := (along_append as bs).mp hC
  have hspares := exec_invariant (I := SparesJob v) (fun s a hI hC => sparesJob_clientStep hI a hC) hCa
    (sparesJob_initial v now)
  have h₀ : SparesJob v (exec (clientStep ser T) (initial now) as) ∧
      (queued k (exec (clientStep ser T) (initial now) as).db = some (some v,queue) ∨
        ∃ i, Event.removed i k ∈ []) := ⟨hspares,.inl hk⟩
  rw [exec_append]
  refine (exec_trace_invariant (I := fun s es => SparesJob v s ∧
    (queued k s.db = some (some v,queue) ∨ ∃ i, Event.removed i k ∈ es)) (fun s a es hI hC => ?_) hCb h₀).2
  refine ⟨sparesJob_clientStep hI.1 a hC,?_⟩
  obtain hk | ⟨i,hi⟩ := hI.2
  · refine (queued_clientStep hI.1 hk a).imp_right ?_
    rintro ⟨i,hi⟩
    exact ⟨i,by simp [hi]⟩
  · exact .inr ⟨i,List.mem_append_left _ hi⟩

/-- Two queued jobs, of which one has an expiry. -/
def twoQueued : List ClientAction :=
  [.storage (.createExpiredJob "a" "[]" .empty 0 5),.storage (.createExpiredJob "b" "[]" .empty 0 5),
    .storage (.commit [(0,.addToQueue "default" "1"),(0,.addToQueue "default" "2"),(0,.persistJob "2")])]

/-- The queue rows of expired jobs are deleted. -/
def queueCleaned : List ClientAction :=
  [.storage (.advance 20),.storage (.select .jobQueue .stored 1000 0),.storage (.deleteBatch 0)]

theorem queued_job_stays_persisted :
    queued 2 (exec (clientStep Json.helper 0) (initial 0) (twoQueued ++ queueCleaned)).db =
        some (some 2,"default") ∨
      ∃ i, .removed i 2 ∈
        trace (clientStep Json.helper 0) (exec (clientStep Json.helper 0) (initial 0) twoQueued) queueCleaned :=
  queued_job_stays Json.helper 0 0 (by decide) (by decide)

example : (exec (clientStep Json.helper 0) (initial 0) (twoQueued ++ queueCleaned)).db.jobQueue.rows =
    [⟨2,some 2,"default",none,none⟩] := by decide

end Queue

end StorageSystem
end HangfireStorage
