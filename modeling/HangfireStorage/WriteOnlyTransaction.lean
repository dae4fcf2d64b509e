import HangfireStorage.JobQueue
import HangfireStorage.Serialization

/-!
# The write-only transaction

Every command is the action it queues, run by `Commit` in one database
transaction. Keys and set values are not null, as their columns demand; a row
that misses its foreign key or repeats a unique key makes the commit fail.
-/

namespace HangfireStorage

/-- `IState`; the dictionary is what `SerializeData` returns. -/
structure State where
  name : String
  reason : Option String
  data : Option Dictionary
  deriving DecidableEq

inductive WriteCommand
  | expireJob (jobId : String) (expireIn : ℤ)
  | persistJob (jobId : String)
  | setJobState (jobId : String) (state : State)
  | addJobState (jobId : String) (state : State)
  | addToQueue (queue jobId : String)
  | incrementCounter (key : String) (expireIn : Option ℤ)
  | decrementCounter (key : String) (expireIn : Option ℤ)
  | addToSet (key value : String) (score : ℚ)
  | addRangeToSet (key : String) (items : List String)
  | removeFromSet (key value : String)
  | expireSet (key : String) (expireIn : ℤ)
  | persistSet (key : String)
  | removeSet (key : String)
  | insertToList (key : String) (value : Option String)
  | removeFromList (key : String) (value : Option String)
  | trimList (key : String) (keepStartingFrom keepEndingAt : ℤ)
  | expireList (key : String) (expireIn : ℤ)
  | persistList (key : String)
  | setRangeInHash (key : String) (keyValuePairs : List (String × Option String))
  | expireHash (key : String) (expireIn : ℤ)
  | persistHash (key : String)
  | removeHash (key : String)
  deriving DecidableEq

namespace WriteOnlyTransaction

section Keyed

variable {ρ : Type} [Row ρ] [ExpirableWithKey ρ]

def setExpireAt (key : String) (expire : Option ℤ) (t : Table ρ) : Table ρ :=
  t.modify (fun i => ExpirableWithKey.key i = key) (Expirable.withExpireAt expire)

def deleteByKey (key : String) (t : Table ρ) : Table ρ :=
  t.delete fun i => ExpirableWithKey.key i = key

/-- `SetExpireAt` at a time counted from now. -/
def expireIn (key : String) (span now : ℤ) (t : Table ρ) : Except Fault (Table ρ) :=
  (DateTime.add now span).map fun expire => setExpireAt key (some expire) t

end Keyed

def setJobExpireAt (jobId : ℤ) (expire : Option ℤ) (db : Db) : Db :=
  { db with job := db.job.modify (fun i => i.id = jobId) (Expirable.withExpireAt expire) }

def expireJob (jobId : String) (span now : ℤ) (db : Db) : Except Fault Db :=
  match StringToInt32Converter.convert jobId with
  | none => .ok db
  | some v => (DateTime.add now span).map fun expire => setJobExpireAt v (some expire) db

def persistJob (jobId : String) (db : Db) : Db :=
  match StringToInt32Converter.convert jobId with
  | none => db
  | some v => setJobExpireAt v none db

/-- Insert a state row; the database checks that the job exists. -/
def insertJobState (r : JobStateRow) (db : Db) : Except Fault Db :=
  if db.jobExists r.job then .ok { db with jobState := db.jobState.insert r } else .error .foreignKey

def stateRow (ser : SerializationHelper) (job : ℤ) (state : State) (now : ℤ) : JobStateRow :=
  ⟨0,job,state.name,state.reason,ser.serialize state.data,now⟩

/-- The job's columns as `SetJobState` overwrites them. -/
def withState (ser : SerializationHelper) (state : State) (job : JobRow) : JobRow :=
  { job with
    stateData := ser.serialize state.data
    stateReason := state.reason
    stateName := some state.name }

def setJobState (ser : SerializationHelper) (jobId : String) (state : State) (now : ℤ) (db : Db) :
    Except Fault Db :=
  match StringToInt32Converter.convert jobId with
  | none => .ok db
  | some v =>
    match SqlUtil.singleOrDefault (db.job.rows.filter fun i => Row.id i = v) with
    | .error f => .error f
    | .ok none => .ok db
    | .ok (some job) =>
      (insertJobState (stateRow ser job.id state now) db).map fun db' =>
        { db' with job := db'.job.put (withState ser state job) }

def addJobState (ser : SerializationHelper) (jobId : String) (state : State) (now : ℤ) (db : Db) :
    Except Fault Db :=
  match StringToInt32Converter.convert jobId with
  | none => .ok db
  | some v => insertJobState (stateRow ser v state now) db

def addToQueue (queue jobId : String) (db : Db) : Except Fault Db := JobQueue.enqueue queue jobId db

def insertCounter (key : String) (value : ℤ) (span : Option ℤ) (now : ℤ) (db : Db) : Except Fault Db :=
  match span with
  | none => .ok { db with counter := db.counter.insert ⟨0,key,value,none⟩ }
  | some s => (DateTime.add now s).map fun expire =>
    { db with counter := db.counter.insert ⟨0,key,value,some expire⟩ }

def addToSet (key value : String) (score : ℚ) (db : Db) : Except Fault Db :=
  (SqlUtil.upsertEntity (fun i : SetRow => i.key = key && i.value = value)
    (fun i => { i with score := score }) (fun i => { i with key := key, value := value })
    ⟨0,"","",0,none⟩ db.set).map fun t => { db with set := t }

/-- Insert a set row; the database checks that key and value are not there yet. -/
def insertSet (r : SetRow) (t : Table SetRow) : Except Fault (Table SetRow) :=
  if t.rows.any (fun i => i.key = r.key && i.value = r.value) then .error .uniqueKey else .ok (t.insert r)

def addRangeToSet (key : String) (items : List String) (db : Db) : Except Fault Db :=
  (items.foldlM (fun t i => insertSet ⟨0,key,i,0,none⟩ t) db.set).map fun t => { db with set := t }

def removeFromSet (key value : String) (db : Db) : Db :=
  { db with set := db.set.delete fun i => i.key = key && i.value = value }

def insertToList (key : String) (value : Option String) (db : Db) : Db :=
  { db with list := db.list.insert ⟨0,key,value,none⟩ }

def removeFromList (key : String) (value : Option String) (db : Db) : Db :=
  { db with list := db.list.delete fun i => i.key = key && i.value = value }

def orderById {ρ : Type} [Row ρ] (rows : List ρ) : List ρ :=
  rows.insertionSort fun a b => Row.id a ≤ Row.id b

theorem orderById_rows {ρ : Type} [Row ρ] (t : Table ρ) : orderById t.rows = t.rows :=
  List.Pairwise.insertionSort_eq (t.sorted.imp fun h => h.le)

/-- The ids outside the kept positions, counted from the lowest id. -/
def trimmedIds (key : String) (keepStartingFrom keepEndingAt : ℤ) (t : Table ListRow) : List ℤ :=
  ((((orderById t.rows).filter fun i => i.key = key).zipIdx).filter fun i =>
    (i.2 : ℤ) < keepStartingFrom || keepEndingAt < (i.2 : ℤ)).map fun i => i.1.id

def trimList (key : String) (keepStartingFrom keepEndingAt : ℤ) (db : Db) : Db :=
  { db with list :=
      (SqlUtil.deleteByInt32Id (trimmedIds key keepStartingFrom keepEndingAt db.list) db.list).1 }

def setInHash (key : String) (t : Table HashRow) (kv : String × Option String) :
    Except Fault (Table HashRow) :=
  SqlUtil.upsertEntity (fun i => i.key = key && i.field = kv.1) (fun i => { i with value := kv.2 })
    (fun i => { i with field := kv.1, key := key }) ⟨0,"","",none,none⟩ t

def setRangeInHash (key : String) (keyValuePairs : List (String × Option String)) (db : Db) :
    Except Fault Db :=
  (keyValuePairs.foldlM (setInHash key) db.hash).map fun t => { db with hash := t }

/-- Run one queued command at the time `now`. -/
def run (ser : SerializationHelper) (now : ℤ) (db : Db) : WriteCommand → Except Fault Db
  | .expireJob j span => expireJob j span now db
  | .persistJob j => .ok (persistJob j db)
  | .setJobState j state => setJobState ser j state now db
  | .addJobState j state => addJobState ser j state now db
  | .addToQueue q j => addToQueue q j db
  | .incrementCounter k span => insertCounter k 1 span now db
  | .decrementCounter k span => insertCounter k (-1) span now db
  | .addToSet k v score => addToSet k v score db
  | .addRangeToSet k items => addRangeToSet k items db
  | .removeFromSet k v => .ok (removeFromSet k v db)
  | .expireSet k span => (expireIn k span now db.set).map fun t => { db with set := t }
  | .persistSet k => .ok { db with set := setExpireAt k none db.set }
  | .removeSet k => .ok { db with set := deleteByKey k db.set }
  | .insertToList k v => .ok (insertToList k v db)
  | .removeFromList k v => .ok (removeFromList k v db)
  | .trimList k a b => .ok (trimList k a b db)
  | .expireList k span => (expireIn k span now db.list).map fun t => { db with list := t }
  | .persistList k => .ok { db with list := setExpireAt k none db.list }
  | .setRangeInHash k kvs => setRangeInHash k kvs db
  | .expireHash k span => (expireIn k span now db.hash).map fun t => { db with hash := t }
  | .persistHash k => .ok { db with hash := setExpireAt k none db.hash }
  | .removeHash k => .ok { db with hash := deleteByKey k db.hash }

/-- `Commit`: the queued commands, each with the clock reading it sees. A command that
throws rolls everything back. -/
def commit (ser : SerializationHelper) : List (ℤ × WriteCommand) → Db → Except Fault Db
  | [], db => .ok db
  | (now,c)::cs, db =>
    match run ser now db c with
    | .error f => .error f
    | .ok db' => commit ser cs db'

theorem commit_cons_eq_ok {ser : SerializationHelper} {c : ℤ × WriteCommand}
    {cs : List (ℤ × WriteCommand)} {db db' : Db} : commit ser (c::cs) db = .ok db' ↔
      ∃ db₁, run ser c.1 db c.2 = .ok db₁ ∧ commit ser cs db₁ = .ok db' := by
  rw [commit]
  cases run ser c.1 db c.2 <;> simp

theorem commit_append {ser : SerializationHelper} {cmds cmds' : List (ℤ × WriteCommand)}
    {db db' : Db} : commit ser (cmds ++ cmds') db = .ok db' ↔
      ∃ db₁, commit ser cmds db = .ok db₁ ∧ commit ser cmds' db₁ = .ok db' := by
  induction cmds generalizing db with
  | nil => simp [commit]
  | cons c cs ih =>
    rw [List.cons_append,commit_cons_eq_ok]
    simp only [ih,commit_cons_eq_ok]
    constructor
    · rintro ⟨d,hd,d₁,h₁,h⟩
      exact ⟨d₁,⟨d,hd,h₁⟩,h⟩
    · rintro ⟨d₁,⟨d,hd,h₁⟩,h⟩
      exact ⟨d,hd,d₁,h₁,h⟩

/-- The counter row that a command run at the given time inserts. -/
def counted (c : ℤ × WriteCommand) : Option CounterRow :=
  match c.2 with
  | .incrementCounter key span => some ⟨0,key,1,span.map (c.1 + ·)⟩
  | .decrementCounter key span => some ⟨0,key,-1,span.map (c.1 + ·)⟩
  | _ => none

/-- What every successful command preserves, a commit preserves. -/
theorem commit_induction {ser : SerializationHelper} {P : Db → Prop} {Q : WriteCommand → Prop}
    (hrun : ∀ now c db db', Q c → P db → run ser now db c = .ok db' → P db')
    {cmds : List (ℤ × WriteCommand)} (hQ : ∀ c ∈ cmds, Q c.2) {db db' : Db} (h₀ : P db)
    (h : commit ser cmds db = .ok db') : P db' := by
  induction cmds generalizing db with
  | nil =>
    cases h
    exact h₀
  | cons c cs ih =>
    simp only [commit] at h
    cases hr : run ser c.1 db c.2 with
    | error f => simp [hr] at h
    | ok db₁ =>
      rw [hr] at h
      exact ih (fun c hc => hQ c (by simp [hc])) (hrun _ _ _ _ (hQ c (by simp)) h₀ hr) h

section Specs

variable {ser : SerializationHelper} {now : ℤ} {j : String} {state : State} {db db' : Db}

theorem expireJob_eq_ok {span : ℤ} (h : expireJob j span now db = .ok db') :
    (StringToInt32Converter.convert j = none ∧ db' = db) ∨
      ∃ v, StringToInt32Converter.convert j = some v ∧ db' = setJobExpireAt v (some (now + span)) db := by
  unfold expireJob at h
  cases hj : StringToInt32Converter.convert j with
  | none =>
    simp only [hj,Except.ok.injEq] at h
    exact .inl ⟨rfl,h.symm⟩
  | some v =>
    rw [hj] at h
    obtain ⟨e,he,rfl⟩ := map_eq_ok h
    rw [(DateTime.add_eq_ok.mp he).2]
    exact .inr ⟨v,rfl,rfl⟩

theorem persistJob_eq (j : String) (db : Db) :
    (StringToInt32Converter.convert j = none ∧ persistJob j db = db) ∨
      ∃ v, StringToInt32Converter.convert j = some v ∧ persistJob j db = setJobExpireAt v none db := by
  unfold persistJob
  cases hj : StringToInt32Converter.convert j with
  | none => exact .inl ⟨rfl,rfl⟩
  | some v => exact .inr ⟨v,rfl,rfl⟩

theorem insertJobState_eq_ok {r : JobStateRow} (h : insertJobState r db = .ok db') :
    db.jobExists r.job ∧ db' = { db with jobState := db.jobState.insert r } := by
  unfold insertJobState at h
  split_ifs at h with hj
  exact ⟨hj,by simpa [eq_comm] using h⟩

/-- `SetJobState` does nothing for a job that is not there. -/
theorem setJobState_eq_ok (h : setJobState ser j state now db = .ok db') :
    ((∀ v, StringToInt32Converter.convert j = some v → db.job.byId v = none) ∧ db' = db) ∨
      ∃ v job, StringToInt32Converter.convert j = some v ∧ db.job.byId v = some job ∧ db' = { db with
        jobState := db.jobState.insert (stateRow ser v state now)
        job := db.job.put (withState ser state job) } := by
  unfold setJobState at h
  cases hj : StringToInt32Converter.convert j with
  | none =>
    simp only [hj,Except.ok.injEq] at h
    exact .inl ⟨by simp,h.symm⟩
  | some v =>
    simp only [hj,SqlUtil.singleOrDefault_id] at h
    cases hjob : db.job.byId v with
    | none =>
      simp only [hjob,Except.ok.injEq] at h
      exact .inl ⟨by simpa using hjob,h.symm⟩
    | some job =>
      simp only [hjob] at h
      obtain ⟨db₁,h₁,rfl⟩ := map_eq_ok h
      obtain ⟨-,rfl⟩ := insertJobState_eq_ok h₁
      have hid : job.id = v := Table.id_of_byId hjob
      rw [hid]
      exact .inr ⟨v,job,rfl,hjob,rfl⟩

theorem addJobState_eq_ok (h : addJobState ser j state now db = .ok db') :
    (StringToInt32Converter.convert j = none ∧ db' = db) ∨
      ∃ v, StringToInt32Converter.convert j = some v ∧ db.jobExists v ∧
        db' = { db with jobState := db.jobState.insert (stateRow ser v state now) } := by
  unfold addJobState at h
  cases hj : StringToInt32Converter.convert j with
  | none =>
    simp only [hj,Except.ok.injEq] at h
    exact .inl ⟨rfl,h.symm⟩
  | some v =>
    simp only [hj] at h
    obtain ⟨hex,rfl⟩ := insertJobState_eq_ok h
    exact .inr ⟨v,rfl,hex,rfl⟩

theorem insertCounter_eq_ok {key : String} {value : ℤ} {span : Option ℤ}
    (h : insertCounter key value span now db = .ok db') :
    db' = { db with counter := db.counter.insert ⟨0,key,value,span.map (now + ·)⟩ } := by
  cases span with
  | none =>
    cases h
    rfl
  | some s =>
    obtain ⟨e,he,rfl⟩ := map_eq_ok h
    rw [(DateTime.add_eq_ok.mp he).2]
    rfl

end Specs

/-- No command touches the tables of the aggregator and of the locks, and counter rows are
only inserted. -/
theorem run_counter {ser : SerializationHelper} {now : ℤ} {c : WriteCommand} {db db' : Db}
    (h : run ser now db c = .ok db') :
    db'.aggregatedCounter = db.aggregatedCounter ∧ db'.distributedLock = db.distributedLock ∧
      db'.counter = (counted (now,c)).elim db.counter db.counter.insert := by
  cases c with
  | expireJob j span => obtain ⟨-,rfl⟩ | ⟨v,-,rfl⟩ := expireJob_eq_ok h <;> exact ⟨rfl,rfl,rfl⟩
  | persistJob j =>
    cases h
    obtain ⟨-,h⟩ | ⟨v,-,h⟩ := persistJob_eq j db <;> rw [h] <;> exact ⟨rfl,rfl,rfl⟩
  | setJobState j state =>
    obtain ⟨-,rfl⟩ | ⟨v,job,-,-,rfl⟩ := setJobState_eq_ok h <;> exact ⟨rfl,rfl,rfl⟩
  | addJobState j state => obtain ⟨-,rfl⟩ | ⟨v,-,-,rfl⟩ := addJobState_eq_ok h <;> exact ⟨rfl,rfl,rfl⟩
  | addToQueue q j => obtain ⟨-,rfl⟩ | ⟨v,-,rfl⟩ := JobQueue.enqueue_eq_ok h <;> exact ⟨rfl,rfl,rfl⟩
  | incrementCounter k span | decrementCounter k span =>
    rw [insertCounter_eq_ok h]
    exact ⟨rfl,rfl,rfl⟩
  | addToSet | addRangeToSet | expireSet | expireList | setRangeInHash | expireHash =>
    obtain ⟨t,-,rfl⟩ := map_eq_ok h
    exact ⟨rfl,rfl,rfl⟩
  | removeFromSet | persistSet | removeSet | insertToList | removeFromList | trimList | persistList
  | persistHash | removeHash =>
    cases h
    exact ⟨rfl,rfl,rfl⟩

theorem commit_untouched {ser : SerializationHelper} {cmds : List (ℤ × WriteCommand)} {db db' : Db}
    (h : commit ser cmds db = .ok db') :
    db'.aggregatedCounter = db.aggregatedCounter ∧ db'.distributedLock = db.distributedLock :=
  commit_induction (P := fun d =>
      d.aggregatedCounter = db.aggregatedCounter ∧ d.distributedLock = db.distributedLock)
    (Q := fun _ => True)
    (fun _ _ _ _ _ hP hr => ⟨(run_counter hr).1.trans hP.1,(run_counter hr).2.1.trans hP.2⟩)
    (by simp) ⟨rfl,rfl⟩ h

end WriteOnlyTransaction
end HangfireStorage
