import HangfireStorage.CounterTally
import HangfireStorage.QueueReferences
import HangfireStorage.UniqueColumns

/-!
# The schema is an invariant

The unique keys and the foreign keys of the mapped tables hold in every state that clients,
workers, aggregation and clean-up can reach, whatever the order of their steps. Only
AddRangeToSet leaves its unique key to the database. The transaction inside the connection's
SetRangeInHash is a commit of that one command.
-/

namespace HangfireStorage
namespace StorageSystem

open ExpirationManager JobQueue JobStorageConnection Machine StringToInt32Converter Table
  WriteOnlyTransaction

/-- The keys that the maps declare unique. -/
structure UniqueKeys (db : Db) : Prop where
  jobParameter : Unique (fun r => (r.job,r.name)) db.jobParameter
  set : Unique (fun r => (r.key,r.value)) db.set
  hash : Unique (fun r => (r.key,r.field)) db.hash
  aggregatedCounter : Unique CounterRow.key db.aggregatedCounter
  distributedLock : Unique DistributedLockRow.resource db.distributedLock

/-- Every child row that names a job names one that exists. -/
structure ForeignKeys (db : Db) : Prop where
  jobParameter : ∀ r ∈ db.jobParameter.rows, db.jobExists r.job
  jobState : ∀ r ∈ db.jobState.rows, db.jobExists r.job
  jobQueue : ∀ r ∈ db.jobQueue.rows, ∀ j, r.job = some j → db.jobExists j

section Commands

variable {ser : SerializationHelper} {now : ℤ} {c : WriteCommand} {db db' : Db}

theorem unique_setInHash (key : String) (kv : String × Option String) {t : Table HashRow}
    (h : Unique (fun r => (r.key,r.field)) t) :
    ∃ t', WriteOnlyTransaction.setInHash key t kv = .ok t' ∧ Unique (fun r => (r.key,r.field)) t' :=
  h.upsertEntity_ok (k := (key,kv.1)) (by simp) (fun _ => rfl) (fun _ => rfl) rfl fun _ _ => rfl

theorem unique_setFields (key : String) (kvs : List (String × Option String)) {t : Table HashRow}
    (h : Unique (fun r => (r.key,r.field)) t) :
    ∃ t', kvs.foldlM (WriteOnlyTransaction.setInHash key) t = .ok t' ∧
      Unique (fun r => (r.key,r.field)) t' := by
  induction kvs generalizing t with
  | nil => exact ⟨t,rfl,h⟩
  | cons kv kvs ih =>
    obtain ⟨t₁,h₁,hu⟩ := unique_setInHash key kv h
    obtain ⟨t',h',hu'⟩ := ih hu
    exact ⟨t',foldlM_cons_eq_ok.mpr ⟨t₁,h₁,h'⟩,hu'⟩

/-- AddRangeToSet fails where it would repeat a member. -/
theorem unique_insertSets (key : String) (items : List String) {t t' : Table SetRow}
    (h : Unique (fun r => (r.key,r.value)) t)
    (hi : items.foldlM (fun t i => insertSet ⟨0,key,i,0,none⟩ t) t = .ok t') :
    Unique (fun r => (r.key,r.value)) t' := by
  induction items generalizing t with
  | nil =>
    cases hi
    exact h
  | cons i items ih =>
    obtain ⟨t₁,h₁,hrest⟩ := foldlM_cons_eq_ok.mp hi
    unfold insertSet at h₁
    split_ifs at h₁ with hany
    obtain rfl := Except.ok.inj h₁
    refine ih (h.insert (fun _ => rfl) fun a ha he => ?_) hrest
    refine hany (List.any_eq_true.mpr ⟨a,ha,?_⟩)
    simpa using he

theorem unique_run (hs : Unique (fun r => (r.key,r.value)) db.set)
    (hh : Unique (fun r => (r.key,r.field)) db.hash) (hr : run ser now db c = .ok db') :
    Unique (fun r => (r.key,r.value)) db'.set ∧ Unique (fun r => (r.key,r.field)) db'.hash := by
  cases c with
  | addToSet key value score =>
    obtain ⟨t,ht,rfl⟩ := map_eq_ok hr
    refine ⟨hs.upsertEntity (k := (key,value)) (fun r => ?_) ?_ ?_ rfl ?_ ht,hh⟩
    · simp
    all_goals intros; rfl
  | addRangeToSet key items =>
    obtain ⟨t,ht,rfl⟩ := map_eq_ok hr
    exact ⟨unique_insertSets key items hs ht,hh⟩
  | setRangeInHash key kvs =>
    obtain ⟨t,ht,rfl⟩ := map_eq_ok hr
    obtain ⟨t',ht',hu⟩ := unique_setFields key kvs hh
    obtain rfl := Except.ok.inj (ht'.symm.trans ht)
    exact ⟨hs,hu⟩
  | expireSet key span =>
    obtain ⟨t,ht,rfl⟩ := map_eq_ok hr
    obtain ⟨e,-,rfl⟩ := map_eq_ok ht
    exact ⟨hs.modify fun _ => rfl,hh⟩
  | expireHash key span =>
    obtain ⟨t,ht,rfl⟩ := map_eq_ok hr
    obtain ⟨e,-,rfl⟩ := map_eq_ok ht
    exact ⟨hs,hh.modify fun _ => rfl⟩
  | persistSet key =>
    cases hr
    exact ⟨hs.modify fun _ => rfl,hh⟩
  | persistHash key =>
    cases hr
    exact ⟨hs,hh.modify fun _ => rfl⟩
  | removeFromSet | removeSet =>
    cases hr
    exact ⟨hs.delete _,hh⟩
  | removeHash key =>
    cases hr
    exact ⟨hs,hh.delete _⟩
  | expireJob j span => obtain ⟨-,rfl⟩ | ⟨v,-,rfl⟩ := expireJob_eq_ok hr <;> exact ⟨hs,hh⟩
  | persistJob j =>
    cases hr
    obtain ⟨-,he⟩ | ⟨v,-,he⟩ := persistJob_eq j db <;> rw [he] <;> exact ⟨hs,hh⟩
  | setJobState j state => obtain ⟨-,rfl⟩ | ⟨v,job,-,-,rfl⟩ := setJobState_eq_ok hr <;> exact ⟨hs,hh⟩
  | addJobState j state => obtain ⟨-,rfl⟩ | ⟨v,-,-,rfl⟩ := addJobState_eq_ok hr <;> exact ⟨hs,hh⟩
  | addToQueue q j => obtain ⟨-,rfl⟩ | ⟨v,-,rfl⟩ := JobQueue.enqueue_eq_ok hr <;> exact ⟨hs,hh⟩
  | incrementCounter k span | decrementCounter k span =>
    rw [insertCounter_eq_ok hr]
    exact ⟨hs,hh⟩
  | expireList =>
    obtain ⟨t,-,rfl⟩ := map_eq_ok hr
    exact ⟨hs,hh⟩
  | insertToList | removeFromList | trimList | persistList =>
    cases hr
    exact ⟨hs,hh⟩

theorem uniqueKeys_run (h : UniqueKeys db) (hr : run ser now db c = .ok db') : UniqueKeys db' := by
  obtain ⟨hagg,hlock,-⟩ := run_counter hr
  obtain ⟨hs,hh⟩ := unique_run h.set h.hash hr
  exact ⟨(run_jobParameter hr).1 ▸ h.jobParameter,hs,hh,hagg ▸ h.aggregatedCounter,
    hlock ▸ h.distributedLock⟩

/-- The foreign keys only see which jobs there are, and the child rows. -/
theorem ForeignKeys.congr (h : ForeignKeys db) (hjob : ∀ v, db.jobExists v → db'.jobExists v)
    (hp : ∀ r ∈ db'.jobParameter.rows, r ∈ db.jobParameter.rows ∨ db'.jobExists r.job)
    (hs : ∀ r ∈ db'.jobState.rows, r ∈ db.jobState.rows ∨ db'.jobExists r.job)
    (hq : ∀ r ∈ db'.jobQueue.rows, (∃ i ∈ db.jobQueue.rows, i.job = r.job) ∨
      ∀ j, r.job = some j → db'.jobExists j) : ForeignKeys db' where
  jobParameter r hr := (hp r hr).elim (fun hr => hjob _ (h.jobParameter r hr)) id
  jobState r hr := (hs r hr).elim (fun hr => hjob _ (h.jobState r hr)) id
  jobQueue r hr j hj := (hq r hr).elim
    (fun ⟨i,hi,hij⟩ => hjob j (h.jobQueue i hi j (hij.trans hj))) fun hex => hex j hj

theorem foreignKeys_run (h : ForeignKeys db) (hr : run ser now db c = .ok db') : ForeignKeys db' := by
  have hjob (v : ℤ) : db.jobExists v → db'.jobExists v := (run_jobExists hr v).mpr
  cases run_effect hr with
  | same hs _ =>
    refine h.congr hjob (fun r hr => .inl (hs.jobParameter ▸ hr)) (fun r hr => .inl (hs.jobState ▸ hr))
      fun r hr => .inl ⟨r,hs.jobQueue ▸ hr,rfl⟩
  | expiry v e _ => exact h.congr hjob (fun _ => .inl) (fun _ => .inl) fun r hr => .inl ⟨r,hr,rfl⟩
  | @setState j state v job now hj hjob' =>
    refine h.congr hjob (fun _ => .inl) (fun r hr => ?_) fun r hr => .inl ⟨r,hr,rfl⟩
    rcases List.mem_append.mp hr with hr | hr
    · exact .inl hr
    · rw [List.mem_singleton.mp hr]
      exact .inr (hjob v (Db.jobExists_iff_byId.mpr (by simp [hjob'])))
  | @addState j state v now hj hex =>
    refine h.congr hjob (fun _ => .inl) (fun r hr => ?_) fun r hr => .inl ⟨r,hr,rfl⟩
    rcases List.mem_append.mp hr with hr | hr
    · exact .inl hr
    · rw [List.mem_singleton.mp hr]
      exact .inr (hjob v hex)
  | @enqueue queue j v hj =>
    refine h.congr hjob (fun _ => .inl) (fun _ => .inl) fun r hr => ?_
    rcases List.mem_append.mp hr with hr | hr
    · exact .inl ⟨r,hr,rfl⟩
    · rw [List.mem_singleton.mp hr]
      refine .inr fun k hk => ?_
      obtain ⟨job,hb,rfl⟩ := Option.map_eq_some_iff.mp hk
      exact ⟨job,Table.mem_of_byId hb,rfl⟩

end Commands

/-- What the database declares. -/
structure Schema (db : Db) : Prop where
  unique : UniqueKeys db
  foreign : ForeignKeys db

section Statements

variable {ser : SerializationHelper} {db db' : Db}

theorem schema_empty : Schema .empty :=
  ⟨⟨.empty,.empty,.empty,.empty,.empty⟩,⟨by simp [Db.empty],by simp [Db.empty],by simp [Db.empty]⟩⟩

theorem schema_commit {cmds : List (ℤ × WriteCommand)} (h : Schema db)
    (hc : WriteOnlyTransaction.commit ser cmds db = .ok db') : Schema db' :=
  commit_induction (P := Schema) (Q := fun _ => True)
    (fun _ _ _ _ _ hP hr => ⟨uniqueKeys_run hP.unique hr,foreignKeys_run hP.foreign hr⟩) (by simp) h hc

/-- The parameters of a new job, which have distinct names. -/
theorem unique_insertParameters {job : ℤ} {ps : List (String × Option String)}
    (hps : (ps.map Prod.fst).Nodup) {t : Table JobParameterRow}
    (h : Unique (fun r => (r.job,r.name)) t)
    (hnew : ∀ a ∈ t.rows, a.job = job → a.name ∉ ps.map Prod.fst) :
    Unique (fun r => (r.job,r.name)) (insertParameters job ps t) := by
  induction ps generalizing t with
  | nil => exact h
  | cons p ps ih =>
    rw [List.map_cons,List.nodup_cons] at hps
    refine ih hps.2 (h.insert (fun _ => rfl) fun a ha he => ?_) fun a ha hjob => ?_
    · obtain ⟨hjob,hname⟩ := Prod.mk.inj he
      exact hnew a ha hjob (by simp [hname])
    · rcases List.mem_append.mp ha with ha | ha
      · exact fun hmem => hnew a ha hjob (List.mem_cons_of_mem _ hmem)
      · rw [List.mem_singleton.mp ha]
        exact hps.1

theorem mem_insertParameters {job : ℤ} {ps : List (String × Option String)}
    {t : Table JobParameterRow} {r : JobParameterRow} (hr : r ∈ (insertParameters job ps t).rows) :
    r ∈ t.rows ∨ r.job = job := by
  induction ps generalizing t with
  | nil => exact .inl hr
  | cons p ps ih =>
    rcases ih hr with hr | hr
    · rcases List.mem_append.mp hr with hr | hr
      · exact .inl hr
      · rw [List.mem_singleton.mp hr]
        exact .inr rfl
    · exact .inr hr

theorem schema_createExpiredJob {a b : String} {p : Dictionary} {createdAt expireIn job : ℤ}
    (h : Schema db) (hc : createExpiredJob a b p createdAt expireIn db = .ok (job,db')) :
    Schema db' := by
  obtain ⟨e,-,he⟩ := map_eq_ok hc
  cases he
  have hnew : ∀ r ∈ db.jobParameter.rows, r.job ≠ db.job.nextId := by
    intro r hr hjob
    obtain ⟨j,hj,hid⟩ := h.foreign.jobParameter r hr
    have hlt : j.id < db.job.nextId := db.job.fresh j hj
    omega
  refine ⟨⟨unique_insertParameters p.nodup h.unique.jobParameter
      fun r hr hjob => absurd hjob (hnew r hr),h.unique.set,h.unique.hash,h.unique.aggregatedCounter,
      h.unique.distributedLock⟩,h.foreign.congr ?_ (fun r hr => ?_) (fun _ => .inl)
      fun r hr => .inl ⟨r,hr,rfl⟩⟩
  · rintro v ⟨r,hr,hv⟩
    exact ⟨r,List.mem_append_left _ hr,hv⟩
  · refine (mem_insertParameters hr).imp_right fun hjob => ?_
    exact ⟨_,List.mem_append_right _ (List.mem_singleton.mpr rfl),hjob.symm⟩

/-- Changes of the queue that keep the jobs of its rows. -/
theorem Schema.of_jobQueue (h : Schema db) (t : Table JobQueueRow)
    (ht : ∀ r ∈ t.rows, ∃ i ∈ db.jobQueue.rows, i.job = r.job) :
    Schema { db with jobQueue := t } :=
  ⟨⟨h.unique.jobParameter,h.unique.set,h.unique.hash,h.unique.aggregatedCounter,
    h.unique.distributedLock⟩,
    h.foreign.congr (fun _ => id) (fun _ => .inl) (fun _ => .inl) fun r hr => .inl (ht r hr)⟩

theorem Schema.of_distributedLock (h : Schema db) {t : Table DistributedLockRow}
    (ht : Unique DistributedLockRow.resource t) : Schema { db with distributedLock := t } :=
  ⟨⟨h.unique.jobParameter,h.unique.set,h.unique.hash,h.unique.aggregatedCounter,ht⟩,
    ⟨h.foreign.jobParameter,h.foreign.jobState,h.foreign.jobQueue⟩⟩

theorem unique_upsertItems {items : List CountersAggregator.Item} {t t' : Table CounterRow}
    (h : Unique CounterRow.key t) (hi : items.foldlM CountersAggregator.upsertItem t = .ok t') :
    Unique CounterRow.key t' := by
  induction items generalizing t with
  | nil =>
    cases hi
    exact h
  | cons item items ih =>
    obtain ⟨t₁,h₁,hrest⟩ := foldlM_cons_eq_ok.mp hi
    refine ih (h.upsertEntity (k := item.key) (fun r => ?_) ?_ ?_ rfl ?_ h₁) hrest
    · simp
    all_goals intros; rfl

theorem schema_pass {o : RowOrder CounterRow} (h : Schema db)
    (hp : CountersAggregator.pass o db = .ok db') : Schema db' := by
  obtain ⟨items,t,-,ht,rfl⟩ := CountersAggregator.pass_eq_ok hp
  exact ⟨⟨h.unique.jobParameter,h.unique.set,h.unique.hash,
    unique_upsertItems h.unique.aggregatedCounter ht,h.unique.distributedLock⟩,
    ⟨h.foreign.jobParameter,h.foreign.jobState,h.foreign.jobQueue⟩⟩

/-- A delete statement that the database lets through. -/
theorem schema_deleteRows {batch : List ℤ} {k : Kind} (h : Schema db)
    (hr : k = .job → ∀ j ∈ ids .job db, j ∈ batch → ¬ db.Referenced j) :
    Schema (deleteRows batch db k) := by
  obtain ⟨hu,hf⟩ := h
  cases k with
  | job =>
    refine ⟨⟨hu.jobParameter,hu.set,hu.hash,hu.aggregatedCounter,hu.distributedLock⟩,?_⟩
    have hkeep (j : ℤ) (hex : db.jobExists j) (href : db.Referenced j) :
        (deleteRows batch db .job).jobExists j := by
      obtain ⟨r,hr',rfl⟩ := hex
      refine ⟨r,List.mem_filter.mpr ⟨hr',?_⟩,rfl⟩
      have hnot : r.id ∉ batch := fun hmem =>
        hr rfl r.id (List.mem_map.mpr ⟨r,hr',rfl⟩) hmem href
      simpa [Row.id] using hnot
    exact ⟨fun r hr' => hkeep _ (hf.jobParameter r hr') (.inl ⟨r,hr',rfl⟩),
      fun r hr' => hkeep _ (hf.jobState r hr') (.inr (.inl ⟨r,hr',rfl⟩)),
      fun r hr' j hj => hkeep j (hf.jobQueue r hr' j hj) (.inr (.inr ⟨r,hr',hj⟩))⟩
  | jobQueue => exact Schema.of_jobQueue ⟨hu,hf⟩ _ fun r hr => ⟨r,List.mem_of_mem_filter hr,rfl⟩
  | jobParameter =>
    exact ⟨⟨hu.jobParameter.delete _,hu.set,hu.hash,hu.aggregatedCounter,hu.distributedLock⟩,
      hf.congr (fun _ => id) (fun r hr => .inl (List.mem_of_mem_filter hr)) (fun _ => .inl)
        fun r hr => .inl ⟨r,hr,rfl⟩⟩
  | jobState =>
    exact ⟨⟨hu.jobParameter,hu.set,hu.hash,hu.aggregatedCounter,hu.distributedLock⟩,
      hf.congr (fun _ => id) (fun _ => .inl) (fun r hr => .inl (List.mem_of_mem_filter hr))
        fun r hr => .inl ⟨r,hr,rfl⟩⟩
  | list =>
    exact ⟨⟨hu.jobParameter,hu.set,hu.hash,hu.aggregatedCounter,hu.distributedLock⟩,
      ⟨hf.jobParameter,hf.jobState,hf.jobQueue⟩⟩
  | aggregatedCounter =>
    exact ⟨⟨hu.jobParameter,hu.set,hu.hash,hu.aggregatedCounter.delete _,hu.distributedLock⟩,
      ⟨hf.jobParameter,hf.jobState,hf.jobQueue⟩⟩
  | set =>
    exact ⟨⟨hu.jobParameter,hu.set.delete _,hu.hash,hu.aggregatedCounter,hu.distributedLock⟩,
      ⟨hf.jobParameter,hf.jobState,hf.jobQueue⟩⟩
  | hash =>
    exact ⟨⟨hu.jobParameter,hu.set,hu.hash.delete _,hu.aggregatedCounter,hu.distributedLock⟩,
      ⟨hf.jobParameter,hf.jobState,hf.jobQueue⟩⟩
  | distributedLock => exact Schema.of_distributedLock ⟨hu,hf⟩ (hu.distributedLock.delete _)

theorem setJobParameter_eq_ok {id name : String} {value : Option String}
    (h : setJobParameter id name value db = .ok db') : (convert id = none ∧ db' = db) ∨
    ∃ v t, convert id = some v ∧
      SqlUtil.upsertEntity (fun i : JobParameterRow => i.name = name && i.job = v)
        (fun z => { z with value := value }) (fun z => { z with name := name, job := v })
        ⟨0,0,"",none⟩ db.jobParameter = .ok t ∧
      db.jobExists v ∧ db' = { db with jobParameter := t } := by
  unfold setJobParameter at h
  cases hv : convert id with
  | none =>
    simp only [hv,Except.ok.injEq] at h
    exact .inl ⟨rfl,h.symm⟩
  | some v =>
    right
    simp only [hv] at h
    split at h
    · cases h
    · rename_i t hu
      split_ifs at h with hex
      exact ⟨v,t,rfl,hu,hex,(Except.ok.inj h).symm⟩

/-- The row that is written belongs to the job. -/
theorem schema_setJobParameter {id name : String} {value : Option String} (h : Schema db)
    (hp : setJobParameter id name value db = .ok db') : Schema db' := by
  obtain ⟨-,rfl⟩ | ⟨v,t,-,hu,hex,rfl⟩ := setJobParameter_eq_ok hp
  · exact h
  · have ht : Unique (fun r : JobParameterRow => (r.job,r.name)) t := by
      refine h.unique.jobParameter.upsertEntity (k := (v,name)) (fun r => ?_) ?_ ?_ rfl ?_ hu
      · simp [and_comm]
      all_goals intros; rfl
    refine ⟨⟨ht,h.unique.set,h.unique.hash,h.unique.aggregatedCounter,h.unique.distributedLock⟩,?_,
      h.foreign.jobState,h.foreign.jobQueue⟩
    obtain ⟨entity,hs,rfl⟩ := map_eq_ok hu
    have hrows := SqlUtil.singleOrDefault_eq_ok hs
    intro r hr
    cases entity with
    | none =>
      obtain hr | hr := List.mem_append.mp hr
      · exact h.foreign.jobParameter r hr
      · rw [List.mem_singleton.mp hr]
        exact hex
    | some entity =>
      obtain ⟨a,ha,rfl⟩ := List.mem_map.mp hr
      obtain ⟨-,hmatch⟩ := List.mem_filter.mp (show entity ∈ _ by rw [hrows]; simp)
      have hjob : entity.job = v := by simp_all
      split_ifs
      · exact hjob ▸ hex
      · exact h.foreign.jobParameter a ha

end Statements

section Runs

/-- The storage system with calls of SetJobParameter. -/
inductive ClientAction
  | storage (a : Action)
  | setJobParameter (id name : String) (value : Option String)

def clientStep (ser : SerializationHelper) (T : ℤ) (s : StorageState) :
    ClientAction → StorageState × Event
  | .storage a => step ser T s a
  | .setJobParameter id name value =>
    match setJobParameter id name value s.db with
    | .error f => (s,.failed f)
    | .ok db => (s.withDb db,.silent)

variable {ser : SerializationHelper} {T : ℤ} {s : StorageState}

theorem schema_step (h : Schema s.db) (a : Action) : Schema (step ser T s a).1.db := by
  have he : StepEffect ser T s a _ _ := step_effect a
  generalize (step ser T s a).1 = s', (step ser T s a).2 = e at he ⊢
  cases he with
  | committed hc => exact schema_commit h hc
  | @created a b p c e expireAt he =>
    exact schema_createExpiredJob h (show createExpiredJob a b p c e s.db = .ok (_,_) by
      rw [createExpiredJob,he]
      rfl)
  | fetched hi hel hq hj =>
    refine h.of_jobQueue _ fun r hr => ?_
    obtain ⟨a,ha,rfl⟩ := List.mem_map.mp hr
    split_ifs
    · exact ⟨_,hi,rfl⟩
    · exact ⟨a,ha,rfl⟩
  | removed hc hi => exact h.of_jobQueue _ fun r hr => ⟨r,List.mem_of_mem_filter hr,rfl⟩
  | requeued hc hi | disposeRequeued hc hi hd =>
    refine h.of_jobQueue _ fun r hr => ?_
    obtain ⟨a,ha,rfl⟩ := List.mem_map.mp hr
    exact ⟨a,ha,by split_ifs <;> rfl⟩
  | inserted hno => exact h.of_distributedLock (h.unique.distributedLock.insert (fun _ => rfl) hno)
  | reused hi hlt => exact h.of_distributedLock (h.unique.distributedLock.put hi rfl rfl)
  | released hi hid ht => exact h.of_distributedLock (ht ▸ h.unique.distributedLock.delete _)
  | aggregated hp => exact schema_pass h hp
  | deleted hi hp hr => exact schema_deleteRows h hr
  | idle | failed | advanced | disposed | crashed | releasedAgain | selected | deletedNothing
  | deleteFailed => exact h

theorem schema_clientStep (h : Schema s.db) (a : ClientAction) :
    Schema (clientStep ser T s a).1.db := by
  cases a with
  | storage a => exact schema_step h a
  | setJobParameter id name value =>
    simp only [clientStep]
    cases hp : setJobParameter id name value s.db with
    | error f => exact h
    | ok db => exact schema_setJobParameter h hp

/-- The reads that expect one row at most return. -/
structure ReadsReturn (db : Db) : Prop where
  getJobParameter : ∀ id name, ∃ v, getJobParameter id name db = .ok v
  getValueFromHash : ∀ key name, ∃ v, getValueFromHash key name db = .ok v
  getAllEntriesFromHash : ∀ o key, ∃ d, getAllEntriesFromHash o key db = .ok d

theorem Schema.readsReturn {db : Db} (h : Schema db) : ReadsReturn db where
  getJobParameter id name := by
    unfold JobStorageConnection.getJobParameter
    cases hv : convert id with
    | none => exact ⟨none,rfl⟩
    | some v =>
      simp only
      rw [h.unique.jobParameter.singleOrDefault_column (k := (v,name)) (by simp)]
      exact ⟨_,rfl⟩
  getValueFromHash key name := by
    rw [JobStorageConnection.getValueFromHash,
      h.unique.hash.singleOrDefault_column (k := (key,name)) (by simp)]
    exact ⟨_,rfl⟩
  getAllEntriesFromHash o key := by
    have hfields : (((o.arrange (db.hash.rows.filter fun i => i.key = key)).map fun i =>
        (i.field,i.value)).map Prod.fst).Nodup := by
      rw [List.map_map,((o.perm _).map _).nodup_iff]
      refine List.Nodup.map_on (fun a ha b hb he => ?_) (db.hash.nodup.filter _)
      obtain ⟨ha,hka⟩ := List.mem_filter.mp ha
      obtain ⟨hb,hkb⟩ := List.mem_filter.mp hb
      have hkey : a.key = b.key := (of_decide_eq_true hka).trans (of_decide_eq_true hkb).symm
      exact h.unique.hash.inj ha hb (Prod.ext hkey he)
    rw [JobStorageConnection.getAllEntriesFromHash,toDictionary,dif_pos hfields]
    exact ⟨_,rfl⟩

/-- From a database that keeps its schema, every run keeps it, and no read ever finds two rows
where it expects one. -/
theorem schema_always (hs : Schema s.db) (as : List ClientAction) :
    Schema (exec (clientStep ser T) s as).db ∧ ReadsReturn (exec (clientStep ser T) s as).db :=
  have h : Schema (exec (clientStep ser T) s as).db :=
    exec_invariant (I := fun s : StorageState => Schema s.db) (C := fun _ _ => True)
      (fun _ a hI _ => schema_clientStep hI a) (along_of_forall fun _ _ _ => trivial) hs
  ⟨h,h.readsReturn⟩

/-- A job with a parameter that is overwritten, and a field that is written twice. -/
def overwrites : List ClientAction :=
  [.storage (.createExpiredJob "job" "[]" ⟨[("Retry",some "1")],by decide⟩ 0 1),
    .setJobParameter "1" "Retry" (some "2"),
    .storage (.commit [(0,.setRangeInHash "h" [("f",none),("f",some "v")])])]

theorem schema_always_overwrites :
    Schema (exec (clientStep Json.helper 0) (initial 0) overwrites).db ∧
      ReadsReturn (exec (clientStep Json.helper 0) (initial 0) overwrites).db :=
  schema_always schema_empty overwrites

end Runs

end StorageSystem
end HangfireStorage
