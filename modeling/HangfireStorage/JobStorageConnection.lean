import HangfireStorage.WriteOnlyTransaction
import HangfireStorage.DistributedLock
import Mathlib.Algebra.Order.Ring.Rat

/-!
# The storage connection

Arguments are not null. A query without a complete ORDER BY takes the order of its rows as
an argument.
-/

namespace HangfireStorage
namespace JobStorageConnection

open WriteOnlyTransaction

def insertParameters (job : ℤ) (parameters : List (String × Option String))
    (t : Table JobParameterRow) : Table JobParameterRow :=
  parameters.foldl (fun t kv => t.insert ⟨0,job,kv.1,kv.2⟩) t

/-- The strings are the serialized invocation data and its arguments. -/
def createExpiredJob (invocationData arguments : String) (parameters : Dictionary)
    (createdAt expireIn : ℤ) (db : Db) : Except Fault (ℤ × Db) :=
  (DateTime.add createdAt expireIn).map fun expireAt =>
    (db.job.nextId,{ db with
      job := db.job.insert ⟨0,invocationData,arguments,createdAt,some expireAt,none,none,none⟩
      jobParameter := insertParameters db.job.nextId parameters.entries db.jobParameter })

structure StateData where
  name : Option String
  reason : Option String
  data : Dictionary
  deriving DecidableEq

/-- The columns are read together; `new Dictionary` copies the deserialized data. -/
def getStateData (ser : SerializationHelper) (ordinalIgnoreCase : StringComparer) (jobId : String)
    (db : Db) : Except Fault (Option StateData) :=
  match StringToInt32Converter.convert jobId with
  | none => .ok none
  | some v =>
    match SqlUtil.singleOrDefault (db.job.rows.filter fun i => Row.id i = v) with
    | .error f => .error f
    | .ok none => .ok none
    | .ok (some job) =>
      match ser.deserialize job.stateData with
      | .error f => .error f
      | .ok source =>
        (Dictionary.copy ordinalIgnoreCase source).map fun data =>
          some ⟨job.stateName,job.stateReason,data⟩

/-- NHibernate's `Sum`: no result for no rows, an Int32 otherwise. -/
def sum (values : List ℤ) : Except Fault ℤ :=
  if values = [] then .error .invalidOperation
  else if Int32.InRange values.sum then .ok values.sum else .error .overflow

def valuesOf (key : String) (t : Table CounterRow) : List ℤ :=
  (t.rows.filter fun i => i.key = key).map CounterRow.value

/-- One `Any` and, if it says yes, one `Sum`, each on the table as it is then. -/
def guardedSum (key : String) (atAny atSum : Table CounterRow) : Except Fault ℤ :=
  if valuesOf key atAny = [] then .ok 0 else sum (valuesOf key atSum)

/-- `GetCounter`, its four reads made one after the other in the given states. -/
def getCounterReads (key : String) (read₁ read₂ read₃ read₄ : Db) : Except Fault ℤ :=
  match guardedSum key read₁.counter read₂.counter with
  | .error f => .error f
  | .ok counterSum =>
    match guardedSum key read₃.aggregatedCounter read₄.aggregatedCounter with
    | .error f => .error f
    | .ok aggregatedCounterSum => .ok (Int32.wrap (counterSum+aggregatedCounterSum))

def getCounter (key : String) (db : Db) : Except Fault ℤ := getCounterReads key db db db db

def orderByDescendingId {ρ : Type} [Row ρ] (rows : List ρ) : List ρ :=
  rows.insertionSort fun a b => Row.id b ≤ Row.id a

theorem orderByDescendingId_of_perm {ρ : Type} [Row ρ] {l l' : List ρ}
    (hs : l.Pairwise fun a b => Row.id a < Row.id b) (hp : l'.Perm l) :
    orderByDescendingId l' = l.reverse := by
  have : Std.Total fun a b : ρ => Row.id b ≤ Row.id a := ⟨fun a b => le_total _ _⟩
  have : IsTrans ρ fun a b => Row.id b ≤ Row.id a := ⟨fun _ _ _ h h' => h'.trans h⟩
  have hperm := (List.perm_insertionSort (fun a b : ρ => Row.id b ≤ Row.id a) l').trans hp
  have hnodup : (l.map Row.id).Nodup := List.pairwise_map.mpr (hs.imp Int.ne_of_lt)
  refine List.Perm.eq_of_pairwise ?_ (List.pairwise_insertionSort _ l')
    (List.pairwise_reverse.mpr (hs.imp fun h => h.le)) (hperm.trans l.reverse_perm.symm)
  intro a b ha hb h h'
  exact List.inj_on_of_nodup_map hnodup (hperm.mem_iff.mp ha) (List.mem_reverse.mp hb)
    (le_antisymm h' h)

theorem orderByDescendingId_rows {ρ : Type} [Row ρ] (t : Table ρ) :
    orderByDescendingId t.rows = t.rows.reverse :=
  orderByDescendingId_of_perm t.sorted (.refl _)

def getAllItemsFromList (key : String) (db : Db) : List (Option String) :=
  ((orderByDescendingId db.list.rows).filter fun i => i.key = key).map ListRow.value

def getListCount (key : String) (db : Db) : ℕ := db.list.rows.countP fun i => i.key = key

/-- `Skip(startingFrom).Take(endingAt - startingFrom + 1)`; the count is an Int32. -/
def slice {α : Type} (startingFrom endingAt : ℤ) (l : List α) : List α :=
  (l.drop startingFrom.toNat).take (Int32.wrap (endingAt-startingFrom+1)).toNat

def getRangeFromList (key : String) (startingFrom endingAt : ℤ) (db : Db) : List (Option String) :=
  slice startingFrom endingAt
    (((orderByDescendingId db.list.rows).filter fun i => i.key = key).map ListRow.value)

def getSetCount (key : String) (db : Db) : ℕ := db.set.rows.countP fun i => i.key = key

def getRangeFromSet (key : String) (startingFrom endingAt : ℤ) (db : Db) : List String :=
  (slice startingFrom endingAt ((orderById db.set.rows).filter fun i => i.key = key)).map SetRow.value

/-- The result is a `HashSet`, here without repeats and in the order of insertion. -/
def getAllItemsFromSet (key : String) (db : Db) : List String :=
  ((orderById (db.set.rows.filter fun i => i.key = key)).map SetRow.value).eraseDups

section Scores

variable {ρ S : Type} [LinearOrder S] (score : ρ → S) (value : ρ → String)

def orderByScore (rows : List ρ) : List ρ := rows.insertionSort fun a b => score a ≤ score b

/-- The overload with a count on the rows of a key. It returns a list. -/
def firstByLowestScores (o : RowOrder ρ) (fromScore toScore : S) (count : ℤ) (rows : List ρ) :
    Except Fault (List String) :=
  if count ≤ 0 then .error .argument
  else if toScore < fromScore then .error .argument
  else .ok (((orderByScore score (o.arrange (rows.filter fun i =>
    fromScore < score i && score i ≤ toScore))).map value).take count.toNat)

/-- The overload that returns one value or null. -/
def firstByLowestScore (o : RowOrder ρ) (fromScore toScore : S) (rows : List ρ) :
    Except Fault (Option String) :=
  if toScore < fromScore then .error .argument
  else .ok ((orderByScore score (o.arrange (rows.filter fun i =>
    fromScore ≤ score i && score i ≤ toScore))).map value).head?

end Scores

def getFirstByLowestScoreFromSet (o : RowOrder SetRow) (key : String) (fromScore toScore : ℚ)
    (db : Db) : Except Fault (Option String) :=
  firstByLowestScore SetRow.score SetRow.value o fromScore toScore
    (db.set.rows.filter fun i => i.key = key)

def getFirstByLowestScoreFromSetList (o : RowOrder SetRow) (key : String) (fromScore toScore : ℚ)
    (count : ℤ) (db : Db) : Except Fault (List String) :=
  firstByLowestScores SetRow.score SetRow.value o fromScore toScore count
    (db.set.rows.filter fun i => i.key = key)

def getHashCount (key : String) (db : Db) : ℕ := db.hash.rows.countP fun i => i.key = key

/-- A value that is null and a field that is missing both give null. -/
def getValueFromHash (key name : String) (db : Db) : Except Fault (Option String) :=
  (SqlUtil.singleOrDefault ((db.hash.rows.filter fun i => i.key = key && i.field = name).map
    HashRow.value)).map Option.join

def toDictionary (entries : List (String × Option String)) : Except Fault Dictionary :=
  if h : (entries.map Prod.fst).Nodup then .ok ⟨entries,h⟩ else .error .argument

def getAllEntriesFromHash (o : RowOrder HashRow) (key : String) (db : Db) :
    Except Fault (Option Dictionary) :=
  (toDictionary ((o.arrange (db.hash.rows.filter fun i => i.key = key)).map fun i =>
    (i.field,i.value))).map fun result => if result.entries.length ≠ 0 then some result else none

/-- `TimeSpan.FromSeconds(-1)`. -/
def minusOneSecond : ℤ := -10000000

/-- `GetTTL`. The minimum passes over nulls. -/
def getTtl {ρ : Type} [Row ρ] [ExpirableWithKey ρ] (key : String) (utcNow : ℤ) (t : Table ρ) : ℤ :=
  match ((t.rows.filter fun i => ExpirableWithKey.key i = key).filterMap Expirable.expireAt).min? with
  | none => minusOneSecond
  | some item => item - utcNow

def getHashTtl (key : String) (utcNow : ℤ) (db : Db) : ℤ := getTtl key utcNow db.hash

def getListTtl (key : String) (utcNow : ℤ) (db : Db) : ℤ := getTtl key utcNow db.list

def getSetTtl (key : String) (utcNow : ℤ) (db : Db) : ℤ := getTtl key utcNow db.set

def hashDistributedLockName : String := "hash"

/-- `TimeSpan.FromSeconds(10)`. -/
def hashLockTimeout : ℤ := 100000000

def setInHash (key : String) (t : Table HashRow) (kv : String × Option String) :
    Except Fault (Table HashRow) :=
  SqlUtil.upsertEntity (fun i => i.key = key && i.field = kv.1) (fun i => { i with value := kv.2 })
    (fun i => { i with key := key, field := kv.1 }) ⟨0,"","",none,none⟩ t

/-- The connection's own `SetRangeInHash`, under a lock. There is no result when the wait
for the lock times out. -/
def setRangeInHash (o : RowOrder DistributedLockRow) (utcNow : ℤ) (key : String)
    (keyValuePairs : List (String × Option String)) (db : Db) : Except Fault (Option Db) :=
  match DistributedLock.tryAcquireWithEntity o hashDistributedLockName hashLockTimeout utcNow db with
  | .error f => .error f
  | .ok (none,_) => .ok none
  | .ok (some lockId,db') =>
    match keyValuePairs.foldlM (setInHash key) db'.hash with
    | .error f => .error f
    | .ok t =>
      ((DistributedLock.Lock.mk hashDistributedLockName hashLockTimeout (some lockId)).release false
        { db' with hash := t }).map fun r => some r.2

/-- The database checks that the job exists. -/
def setJobParameter (id name : String) (value : Option String) (db : Db) : Except Fault Db :=
  match StringToInt32Converter.convert id with
  | none => .ok db
  | some v =>
    match SqlUtil.upsertEntity (fun i => i.name = name && i.job = v) (fun z => { z with value := value })
      (fun z => { z with name := name, job := v }) ⟨0,0,"",none⟩ db.jobParameter with
    | .error f => .error f
    | .ok t => if db.jobExists v then .ok { db with jobParameter := t } else .error .foreignKey

def getJobParameter (id name : String) (db : Db) : Except Fault (Option String) :=
  match StringToInt32Converter.convert id with
  | none => .ok none
  | some v => (SqlUtil.singleOrDefault ((db.jobParameter.rows.filter fun i =>
      i.job = v && i.name = name).map JobParameterRow.value)).map Option.join

end JobStorageConnection
end HangfireStorage
