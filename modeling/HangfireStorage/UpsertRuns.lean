import HangfireStorage.UpsertStores

/-!
# Runs of upserts

Runs of successful operations refine runs on the maps, and the reads of the connection are
the reads of the maps.
-/

namespace HangfireStorage

open FiniteMap JobStorageConnection Machine Shelved StringToInt32Converter WriteOnlyTransaction

/-- A call that writes, with the id it returned if it created a job. -/
inductive Operation
  | commit (cmds : List (ℤ × WriteCommand))
  | setRangeInHash (key : String) (keyValuePairs : List (String × Option String))
  | createExpiredJob (jobId : ℤ) (parameters : Dictionary)
  | setJobParameter (id name : String) (value : Option String)

/-- A call that succeeds. -/
inductive Operation.Step (ser : SerializationHelper) : Db → Operation → Db → Prop
  | commit {cmds : List (ℤ × WriteCommand)} {db db' : Db}
      (h : WriteOnlyTransaction.commit ser cmds db = .ok db') : Step ser db (.commit cmds) db'
  | setRangeInHash (o : RowOrder DistributedLockRow) (utcNow : ℤ) {key : String}
      {kvs : List (String × Option String)} {db db' : Db}
      (h : JobStorageConnection.setRangeInHash o utcNow key kvs db = .ok (some db')) :
      Step ser db (.setRangeInHash key kvs) db'
  | createExpiredJob {invocationData arguments : String} {parameters : Dictionary}
      {createdAt expireIn jobId : ℤ} {db db' : Db}
      (h : JobStorageConnection.createExpiredJob invocationData arguments parameters createdAt
        expireIn db = .ok (jobId,db')) : Step ser db (.createExpiredJob jobId parameters) db'
  | setJobParameter {id name : String} {value : Option String} {db db' : Db}
      (h : JobStorageConnection.setJobParameter id name value db = .ok db') :
      Step ser db (.setJobParameter id name value) db'

def Maps.apply (m : Maps) : Operation → Maps
  | .commit cmds => cmds.foldl (fun m c => m.command c.2) m
  | .setRangeInHash key kvs => m.command (.setRangeInHash key kvs)
  | .createExpiredJob jobId parameters =>
    m.setJobParameters jobId (write (m.jobParameter jobId) parameters.entries)
  | .setJobParameter id name value =>
    match convert id with
    | none => m
    | some job => m.setJobParameters job (Function.update (m.jobParameter job) name (some value))

/-- The maps after the given operations. -/
def written (ops : List Operation) : Maps := ops.foldl Maps.apply .empty

section Steps

variable {ser : SerializationHelper} {db db' : Db} {m : Maps}

theorem Refines.commit (h : Refines db m) (ser : SerializationHelper)
    (cmds : List (ℤ × WriteCommand)) :
    Lawful (fun db' => Refines db' (cmds.foldl (fun m c => m.command c.2) m))
      (WriteOnlyTransaction.commit ser cmds db) := by
  induction cmds generalizing db m with
  | nil => exact h
  | cons c cmds ih =>
    have hl := h.run_lawful ser c.1 c.2
    rw [WriteOnlyTransaction.commit]
    cases hr : WriteOnlyTransaction.run ser c.1 db c.2 with
    | error f =>
      rw [hr] at hl
      exact hl
    | ok db₁ => exact ih (h.run hr)

theorem setInHash_eq (key : String) :
    JobStorageConnection.setInHash key = WriteOnlyTransaction.setInHash key := rfl

theorem tryAcquireWithEntity_frame {o : RowOrder DistributedLockRow} {resource : String}
    {timeout utcNow : ℤ} {res : Option ℤ}
    (h : DistributedLock.tryAcquireWithEntity o resource timeout utcNow db = .ok (res,db')) :
    ∃ locks, db' = { db with distributedLock := locks } := by
  obtain ⟨-,rfl⟩ | ⟨-,-,rfl⟩ | ⟨i,-,-,-,-,rfl⟩ := DistributedLock.tryAcquireWithEntity_eq_ok h
  · exact ⟨_,rfl⟩
  · exact ⟨_,rfl⟩
  · exact ⟨_,rfl⟩

theorem tryAcquireWithEntity_lawful (o : RowOrder DistributedLockRow) (resource : String)
    (timeout utcNow : ℤ) (db : Db) : Lawful (fun _ => True)
      (DistributedLock.tryAcquireWithEntity o resource timeout utcNow db) := by
  have hclock := lawful_add utcNow timeout
  unfold DistributedLock.tryAcquireWithEntity
  cases hadd : DateTime.add utcNow timeout with
  | error f =>
    rw [hadd] at hclock
    exact hclock
  | ok e =>
    dsimp only
    split
    · trivial
    · split_ifs <;> trivial

/-- The connection does under the lock what the transaction does. -/
theorem setRangeInHash_eq_ok {o : RowOrder DistributedLockRow} {utcNow : ℤ} {key : String}
    {kvs : List (String × Option String)}
    (h : JobStorageConnection.setRangeInHash o utcNow key kvs db = .ok (some db'))
    (ser : SerializationHelper) (now : ℤ) : run ser now db (.setRangeInHash key kvs) =
      .ok { db' with distributedLock := db.distributedLock } := by
  simp only [run,WriteOnlyTransaction.setRangeInHash]
  simp only [JobStorageConnection.setRangeInHash,setInHash_eq] at h
  split at h
  · cases h
  · cases h
  · rename_i lockId db₁ ha
    obtain ⟨locks,rfl⟩ := tryAcquireWithEntity_frame ha
    cases hf : kvs.foldlM (WriteOnlyTransaction.setInHash key) db.hash with
    | error f => simp [hf] at h
    | ok t =>
      simp only [hf,DistributedLock.Lock.release,Bool.false_eq_true,if_false] at h
      cases h
      rfl

theorem Refines.setRangeInHash_lawful (h : Refines db m) (o : RowOrder DistributedLockRow)
    (utcNow : ℤ) (key : String) (kvs : List (String × Option String)) :
    Lawful (fun _ => True) (JobStorageConnection.setRangeInHash o utcNow key kvs db) := by
  have hrun := h.run_lawful Json.helper utcNow (.setRangeInHash key kvs)
  have hlock := tryAcquireWithEntity_lawful o hashDistributedLockName hashLockTimeout utcNow db
  simp only [WriteOnlyTransaction.run,WriteOnlyTransaction.setRangeInHash] at hrun
  simp only [JobStorageConnection.setRangeInHash,setInHash_eq]
  split
  · rename_i f ha
    rw [ha] at hlock
    exact hlock
  · trivial
  · rename_i lockId db₁ ha
    obtain ⟨locks,rfl⟩ := tryAcquireWithEntity_frame ha
    cases hf : kvs.foldlM (WriteOnlyTransaction.setInHash key) db.hash with
    | error f =>
      rw [hf] at hrun
      exact hrun
    | ok t => trivial

/-- A parameter table that gets the parameters of a new job. -/
theorem insertParameters_entries (job : ℤ) (ps : List (String × Option String))
    (t : Table JobParameterRow) (j : ℤ) :
    (insertParameters job ps t).entries j = t.entries j ++ if job = j then ps else [] := by
  induction ps generalizing t with
  | nil => simp [insertParameters]
  | cons p ps ih =>
    have hstep : insertParameters job (p::ps) t =
        insertParameters job ps (t.insert ⟨0,job,p.1,p.2⟩) := rfl
    rw [hstep,ih,Table.entries_insert]
    by_cases hj : job = j
    · simp [hj,entry,shelf]
    · simp [hj,shelf]

theorem Refines.createExpiredJob (h : Refines db m) {invocationData arguments : String}
    {parameters : Dictionary} {createdAt expireIn jobId : ℤ}
    (hr : JobStorageConnection.createExpiredJob invocationData arguments parameters createdAt expireIn
      db = .ok (jobId,db')) : Refines db' (m.apply (.createExpiredJob jobId parameters)) := by
  obtain ⟨e,-,he⟩ := map_eq_ok hr
  cases he
  have hnew := h.fresh db.job.nextId le_rfl
  refine ⟨h.hash,h.set,fun job => ?_,fun job hj => ?_⟩
  · rw [insertParameters_entries]
    by_cases hj : db.job.nextId = job
    · subst hj
      have hrep := h.jobParameter db.job.nextId
      have hnone (name : String) : m.jobParameter db.job.nextId name = none := by
        rw [hnew] at hrep
        by_contra hne
        obtain ⟨v,hv⟩ := Option.ne_none_iff_exists'.mp hne
        simpa using (hrep.mem_iff name v).mpr hv
      simpa [Maps.apply,Maps.setJobParameters] using
        hrep.append_all parameters.nodup fun name _ => hnone name
    · rw [if_neg hj,List.append_nil]
      simpa [Maps.apply,Maps.setJobParameters,Function.update_of_ne (Ne.symm hj)] using
        h.jobParameter job
  · have hlt : db.job.nextId+1 ≤ job := hj
    rw [insertParameters_entries,if_neg (by omega),h.fresh job (by omega)]
    rfl

theorem actsOn_setJobParameter (job : ℤ) (name : String) (value : Option String) :
    ActsOn job (SqlUtil.upsertEntity (fun i : JobParameterRow => i.name = name && i.job = job)
      (fun z => { z with value := value }) (fun z => { z with name := name, job := job })
      ⟨0,0,"",none⟩) (Collections.upsert (fun e => e.1 = name) (fun e => (e.1,value)) (name,value)) :=
  actsOn_upsertEntity (fun _ => Bool.and_comm _ _) (fun _ => rfl) (fun _ => rfl) (fun _ => rfl) rfl rfl

theorem Refines.setJobParameter (h : Refines db m) (jobId name : String) (value : Option String) :
    Lawful (fun db' => Refines db' (m.apply (.setJobParameter jobId name value)))
      (JobStorageConnection.setJobParameter jobId name value db) := by
  rw [JobStorageConnection.setJobParameter,Maps.apply]
  cases hj : convert jobId with
  | none => exact h
  | some job =>
    have hacts := actsOn_setJobParameter job name value
    have hrep := h.jobParameter job
    rw [← List.map_id' (db.jobParameter.entries job)] at hrep
    obtain ⟨l',hu,hl⟩ := upsert_represents (f := fun e => e) (a := name) (b := value)
      (g := fun e => (e.1,value)) (n := (name,value)) (fun _ => rfl) rfl hrep
    have hcontent := hacts.entries db.jobParameter
    rw [hu] at hcontent
    obtain ⟨t,ht,rfl⟩ := map_eq_ok hcontent
    simp only [ht]
    split_ifs with he
    · rw [List.map_id'] at hl
      have hframe (job' : ℤ) (hne : job' ≠ job) : t.entries job' = db.jobParameter.entries job' :=
        congrArg (List.map entry) (hacts.frame _ t ht job' hne)
      obtain ⟨r,hr,hrid⟩ := he
      have hlt := db.job.fresh r hr
      refine ⟨h.hash,h.set,fun job' => ?_,fun job' hle => ?_⟩
      · by_cases hne : job' = job
        · subst hne
          simpa [Maps.setJobParameters] using hl
        · simpa [Maps.setJobParameters,Function.update_of_ne hne,hframe job' hne] using
            h.jobParameter job'
      · have hle' : db.job.nextId ≤ job' := hle
        have hid : Row.id r = job := hrid
        exact (hframe job' (by omega)).trans (h.fresh job' hle')
    · exact lawful_error (by decide)

theorem Refines.step (h : Refines db m) {op : Operation} (hs : Operation.Step ser db op db') :
    Refines db' (m.apply op) := by
  cases hs with
  | @commit cmds _ _ hc =>
    have hl := h.commit ser cmds
    rw [hc] at hl
    exact hl
  | setRangeInHash o utcNow hr =>
    have hrun := h.run (setRangeInHash_eq_ok hr ser utcNow)
    exact ⟨hrun.hash,hrun.set,hrun.jobParameter,hrun.fresh⟩
  | createExpiredJob hr => exact h.createExpiredJob hr
  | @setJobParameter jobId name value _ _ hr =>
    have hl := h.setJobParameter jobId name value
    rw [hr] at hl
    exact hl

/-- Every run refines the run on the maps. -/
theorem Refines.path (h : Refines db m) {ops : List Operation}
    (hp : Path (Operation.Step ser) db ops db') :
    Refines db' (ops.foldl Maps.apply m) := by
  induction hp generalizing m with
  | nil => exact h
  | cons hs _ ih => exact ih (h.step hs)

theorem refines_empty : Refines .empty .empty :=
  ⟨fun _ => .nil,fun _ => .nil,fun _ => .nil,fun _ _ => rfl⟩

end Steps

/-- The reads of the connection, as reads of the maps. -/
structure ReadsAs (db : Db) (m : Maps) : Prop where
  getAllEntriesFromHash : ∀ o key, ∃ result,
    JobStorageConnection.getAllEntriesFromHash o key db = .ok result ∧
      (result = none ↔ ∀ field, m.hash key field = none) ∧
      ∀ d, result = some d → Represents d.entries (m.hash key)
  getHashCount : ∀ key, {field | m.hash key field ≠ none}.encard =
    JobStorageConnection.getHashCount key db
  getValueFromHash : ∀ key name,
    JobStorageConnection.getValueFromHash key name db = .ok (m.hash key name).join
  getAllItemsFromSet : ∀ key value,
    value ∈ JobStorageConnection.getAllItemsFromSet key db ↔ m.set key value ≠ none
  getSetCount : ∀ key, {value | m.set key value ≠ none}.encard =
    JobStorageConnection.getSetCount key db
  score : ∀ key value score, m.set key value = some score ↔
    ∃ r ∈ db.set.rows, r.key = key ∧ r.value = value ∧ r.score = score
  getJobParameter : ∀ jobId name, JobStorageConnection.getJobParameter jobId name db =
    .ok ((convert jobId).bind fun job => (m.jobParameter job name).join)

section Reads

variable {db : Db} {m : Maps}

theorem Refines.entries_of_hash (h : Refines db m) (o : RowOrder HashRow) (key : String) :
    ∃ result, JobStorageConnection.getAllEntriesFromHash o key db = .ok result ∧
      (result = none ↔ ∀ field, m.hash key field = none) ∧
      ∀ d, result = some d → Represents d.entries (m.hash key) := by
  have hperm : ((o.arrange (db.hash.rows.filter fun i => i.key = key)).map fun i =>
      (i.field,i.value)).Perm ((db.hash.entries key).map Entry.item) := by
    rw [Table.entries,List.map_map]
    exact (o.perm _).map _
  have hrep := (h.hash key).perm hperm
  have hempty : ((o.arrange (db.hash.rows.filter fun i => i.key = key)).map fun i =>
      (i.field,i.value)) = [] ↔ ∀ field, m.hash key field = none := by
    rw [List.eq_nil_iff_forall_not_mem]
    constructor
    · intro hnil field
      by_contra hne
      obtain ⟨v,hv⟩ := Option.ne_none_iff_exists'.mp hne
      exact hnil _ ((hrep.mem_iff field v).mpr hv)
    · rintro hnone ⟨field,v⟩ hmem
      rw [hrep.mem_iff,hnone] at hmem
      cases hmem
  rw [JobStorageConnection.getAllEntriesFromHash,toDictionary,dif_pos hrep.distinct]
  refine ⟨_,rfl,?_,?_⟩
  · rw [← hempty,← List.length_eq_zero_iff]
    dsimp only
    split_ifs with hl <;> simpa using hl
  · intro d hd
    dsimp only at hd
    split_ifs at hd
    cases hd
    exact hrep

theorem Refines.value_of_hash (h : Refines db m) (key name : String) :
    JobStorageConnection.getValueFromHash key name db = .ok (m.hash key name).join := by
  have hkey := (h.hash key).filter_key name
  rw [List.filter_map,List.map_map] at hkey
  rw [getValueFromHash_eq,show ((db.hash.entries key).filter fun e => e.item.1 = name).map
    (fun e => e.item.2) = (m.hash key name).toList from hkey,SqlUtil.singleOrDefault_toList]
  rfl

theorem Refines.value_of_jobParameter (h : Refines db m) (job : ℤ) (name : String) :
    SqlUtil.singleOrDefault ((db.jobParameter.rows.filter fun i =>
      i.job = job && i.name = name).map JobParameterRow.value) = .ok (m.jobParameter job name) := by
  have hkey := (h.jobParameter job).filter_key name
  rw [Table.entries,Table.onShelf,List.filter_map,List.map_map,List.filter_filter] at hkey
  simp only [Bool.and_comm] at hkey
  rw [show (db.jobParameter.rows.filter fun i => i.job = job && i.name = name).map
    JobParameterRow.value = (m.jobParameter job name).toList from hkey,SqlUtil.singleOrDefault_toList]

theorem Refines.item_iff (h : Refines db m) (key value : String) (score : ℚ) :
    m.set key value = some score ↔
      ∃ r ∈ db.set.rows, r.key = key ∧ r.value = value ∧ r.score = score := by
  rw [← (h.set key).mem_iff]
  simp only [List.mem_map,Table.mem_entries]
  constructor
  · rintro ⟨e,⟨r,hr,hk,rfl⟩,he⟩
    exact ⟨r,hr,hk,congrArg Prod.fst he,congrArg Prod.snd he⟩
  · rintro ⟨r,hr,hk,rfl,rfl⟩
    exact ⟨_,⟨r,hr,hk,rfl⟩,rfl⟩

theorem Refines.readsAs (h : Refines db m) : ReadsAs db m where
  getAllEntriesFromHash := h.entries_of_hash
  getHashCount key := by
    rw [getHashCount_eq,(h.hash key).encard,List.length_map]
  getValueFromHash := h.value_of_hash
  getAllItemsFromSet key value := by
    rw [getAllItemsFromSet_eq,List.mem_eraseDups,Option.ne_none_iff_exists',← (h.set key).mem_keys,
      List.map_map]
    rfl
  getSetCount key := by
    rw [getSetCount_eq,(h.set key).encard,List.length_map]
  score := h.item_iff
  getJobParameter jobId name := by
    rw [JobStorageConnection.getJobParameter]
    cases convert jobId with
    | none => rfl
    | some job => simp only [h.value_of_jobParameter job name,Except.map,Option.bind_some]

/-- A lookup finds a row at most, now and inside any further call. -/
structure SingleRows (ser : SerializationHelper) (db : Db) : Prop where
  hash : ∀ key field, (db.hash.rows.filter fun i => i.key = key && i.field = field).length ≤ 1
  set : ∀ key value, (db.set.rows.filter fun i => i.key = key && i.value = value).length ≤ 1
  jobParameter : ∀ job name,
    (db.jobParameter.rows.filter fun i => i.name = name && i.job = job).length ≤ 1
  commit : ∀ cmds, WriteOnlyTransaction.commit ser cmds db ≠ .error .invalidOperation
  setRangeInHash : ∀ o utcNow key kvs,
    JobStorageConnection.setRangeInHash o utcNow key kvs db ≠ .error .invalidOperation
  setJobParameter : ∀ jobId name value,
    JobStorageConnection.setJobParameter jobId name value db ≠ .error .invalidOperation

theorem Lawful.ne_error {α : Type} {P : α → Prop} {x : Except Fault α} (h : Lawful P x) :
    x ≠ .error .invalidOperation := by
  rintro rfl
  exact h rfl

theorem Refines.singleRows (h : Refines db m) (ser : SerializationHelper) : SingleRows ser db where
  hash key field := by
    have := (h.hash key).length_filter_key_le field
    rw [Table.entries,List.map_map,List.filter_map,List.length_map,Table.onShelf,
      List.filter_filter] at this
    exact (congrArg List.length (List.filter_congr fun _ _ => Bool.and_comm _ _)).trans_le this
  set key value := by
    have := (h.set key).length_filter_key_le value
    rw [Table.entries,List.map_map,List.filter_map,List.length_map,Table.onShelf,
      List.filter_filter] at this
    exact (congrArg List.length (List.filter_congr fun _ _ => Bool.and_comm _ _)).trans_le this
  jobParameter job name := by
    have := (h.jobParameter job).length_filter_key_le name
    rw [Table.entries,List.filter_map,List.length_map,Table.onShelf,List.filter_filter] at this
    exact this
  commit cmds := (h.commit ser cmds).ne_error
  setRangeInHash o utcNow key kvs := (h.setRangeInHash_lawful o utcNow key kvs).ne_error
  setJobParameter jobId name value := (h.setJobParameter jobId name value).ne_error

end Reads

/-- After every run of successful operations from empty tables the reads are those of the maps,
no lookup finds two rows, and the two versions of `SetRangeInHash` have one effect. -/
theorem upserts_refine_maps {ser : SerializationHelper} {ops : List Operation} {db : Db}
    (h : Path (Operation.Step ser) .empty ops db) :
    ReadsAs db (written ops) ∧ SingleRows ser db ∧ ∀ o utcNow now key kvs db',
      JobStorageConnection.setRangeInHash o utcNow key kvs db = .ok (some db') →
      run ser now db (.setRangeInHash key kvs) =
        .ok { db' with distributedLock := db.distributedLock } := by
  have hrefines := refines_empty.path h
  exact ⟨hrefines.readsAs,hrefines.singleRows ser,
    fun _ _ now _ _ _ hr => setRangeInHash_eq_ok hr ser now⟩

/-- Every store is written twice at one place. -/
def writtenTwice : List Operation :=
  [.createExpiredJob 1 ⟨[("Culture",some "en")],by decide⟩,
    .setJobParameter " 1" "Culture" (some "de"),
    .setRangeInHash "h" [("f",some "1"),("f",none)],
    .commit [(0,.addToSet "s" "v" 1),(0,.addToSet "s" "v" 2),(0,.setRangeInHash "h" [("f",some "2")])]]

theorem upserts_refine_maps_twice : ∃ db, Path (Operation.Step Json.helper) .empty writtenTwice db ∧
    ReadsAs db (written writtenTwice) := by
  have h : ∃ db, Path (Operation.Step Json.helper) .empty writtenTwice db := by
    apply Exists.intro
    apply Path.cons (@Operation.Step.createExpiredJob _ "" "" _ 0 0 _ _ _ rfl)
    apply Path.cons (.setJobParameter rfl)
    apply Path.cons (.setRangeInHash .stored 0 rfl)
    apply Path.cons (.commit rfl)
    exact .nil _
  obtain ⟨db,h⟩ := h
  exact ⟨db,h,(upserts_refine_maps h).1⟩

end HangfireStorage
