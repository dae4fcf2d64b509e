import HangfireStorage.FiniteMaps
import HangfireStorage.Machine
import HangfireStorage.Serialization
import HangfireStorage.SqlUtil

/-!
# Servers

The server table and the calls that servers make on it. A row is found by the id its server
chose. Every call comes with the clock readings it makes, so clocks need not agree.
-/

namespace HangfireStorage
namespace Servers

structure ServerRow where
  id : String
  data : String
  lastHeartbeat : Option ℤ
  deriving DecidableEq, Repr

@[ext] structure ServerTable where
  rows : List ServerRow
  distinct : (rows.map ServerRow.id).Nodup
  deriving DecidableEq

structure ServerData where
  workerCount : ℤ
  queues : Option (List String)
  startedAt : Option ℤ
  deriving DecidableEq, Repr

structure ServerContext where
  workerCount : ℤ
  queues : Option (List String)
  deriving DecidableEq, Repr

structure ServerDto where
  name : String
  heartbeat : Option ℤ
  queues : Option (List String)
  startedAt : ℤ
  workersCount : ℤ
  deriving DecidableEq, Repr

/-- Hangfire.Core's SerializationHelper on server data, of which only the round trip is used. -/
structure ServerDataHelper where
  serialize : ServerData → String
  deserialize : String → Except Fault (Option ServerData)
  deserialize_serialize : ∀ d, deserialize (serialize d) = .ok (some d)

/-- One instance: a dictionary of the fields' texts in JSON. -/
def jsonHelper : ServerDataHelper where
  serialize d := Json.helper.write ⟨[("WorkerCount",some (String.ofList (Json.integer d.workerCount))),
    ("Queues",d.queues.map fun q => String.ofList (Json.array q)),
    ("StartedAt",d.startedAt.map fun t => String.ofList (Json.integer t))],by simp⟩
  deserialize text :=
    match Json.helper.read text with
    | .error f => .error f
    | .ok d =>
      match d.entries with
      | [(_,some workerCount),(_,queues),(_,startedAt)] =>
        .ok (some ⟨Json.readInteger workerCount.toList,queues.bind fun q => Json.readArray q.toList,
          startedAt.map fun t => Json.readInteger t.toList⟩)
      | _ => .error .serialization
  deserialize_serialize d := by
    obtain ⟨n,q,t⟩ := d
    cases q <;> cases t <;> simp [Json.helper.read_write,Json.readArray_array,Json.readInteger_integer]

namespace ServerTable

def empty : ServerTable := ⟨[],List.nodup_nil⟩

def insert (r : ServerRow) (t : ServerTable) : Except Fault ServerTable :=
  if h : r.id ∈ t.rows.map ServerRow.id then .error .uniqueKey
  else .ok ⟨t.rows ++ [r],by
    rw [List.map_append,List.nodup_append]
    refine ⟨t.distinct,by simp,?_⟩
    intro a ha b hb hab
    obtain rfl : b = r.id := by simpa using hb
    exact h (hab ▸ ha)⟩

/-- An update statement on the row of one server. -/
def modify (serverId : String) (change : ServerRow → ServerRow) (hid : ∀ r, (change r).id = r.id)
    (t : ServerTable) : ServerTable where
  rows := t.rows.map fun r => if r.id = serverId then change r else r
  distinct := by
    have hids : (t.rows.map fun r => if r.id = serverId then change r else r).map ServerRow.id =
        t.rows.map ServerRow.id := by
      rw [List.map_map]
      exact List.map_congr_left fun r _ => by rw [Function.comp_apply]; split_ifs <;> simp [hid]
    rw [hids]
    exact t.distinct

def delete (p : ServerRow → Bool) (t : ServerTable) : ServerTable where
  rows := t.rows.filter fun r => !p r
  distinct := t.distinct.sublist (List.filter_sublist.map _)

def byId (serverId : String) (t : ServerTable) : Option ServerRow :=
  t.rows.find? fun r => r.id = serverId

variable {t : ServerTable} {serverId : String} {r : ServerRow}

theorem byId_eq_some : t.byId serverId = some r ↔ r ∈ t.rows ∧ r.id = serverId := by
  constructor
  · intro h
    exact ⟨List.mem_of_find?_eq_some h,by simpa using List.find?_some h⟩
  · rintro ⟨hr,rfl⟩
    have hfound : (t.byId r.id).isSome := List.find?_isSome.mpr ⟨r,hr,by simp⟩
    obtain ⟨a,ha⟩ := Option.isSome_iff_exists.mp hfound
    have hid : a.id = r.id := by simpa using List.find?_some ha
    rw [ha,List.inj_on_of_nodup_map t.distinct (List.mem_of_find?_eq_some ha) hr hid]

theorem insert_of_byId (h : t.byId r.id = none) : ∃ t', t.insert r = .ok t' ∧
    ∀ i, t'.byId i = if i = r.id then some r else t.byId i := by
  have hnot : r.id ∉ t.rows.map ServerRow.id := by
    simpa [byId,List.find?_eq_none] using h
  rw [insert,dif_neg hnot]
  refine ⟨_,rfl,fun i => ?_⟩
  rw [byId,List.find?_append]
  split_ifs with hi
  · rw [hi,show t.rows.find? (fun a => a.id = r.id) = none from h]
    simp
  · simp [byId,Ne.symm hi]

theorem byId_modify (change : ServerRow → ServerRow) (hid : ∀ r, (change r).id = r.id) (i : String) :
    (t.modify serverId change hid).byId i =
      if i = serverId then (t.byId i).map change else t.byId i := by
  have hchanged : ∀ r : ServerRow, (if r.id = serverId then change r else r).id = r.id := fun r => by
    split_ifs <;> simp [hid]
  simp only [byId,modify,List.find?_map,Function.comp_def,hchanged]
  cases h : t.rows.find? fun r => r.id = i with
  | none => simp
  | some r =>
    have hr : r.id = i := by simpa using List.find?_some h
    rw [Option.map_some,hr]
    split_ifs <;> rfl

theorem byId_delete (p : ServerRow → Bool) (i : String) :
    (t.delete p).byId i = (t.byId i).filter fun r => !p r := by
  apply Option.ext
  intro r
  rw [Option.filter_eq_some_iff,byId_eq_some,byId_eq_some,delete,List.mem_filter]
  tauto

end ServerTable

/-- `changeAction` of AnnounceServer. -/
def announced (data : String) (utcNow : ℤ) (server : ServerRow) : ServerRow :=
  { server with lastHeartbeat := some utcNow, data := data }

theorem announced_id (data : String) (utcNow : ℤ) (server : ServerRow) :
    (announced data utcNow server).id = server.id := rfl

/-- The clock is read for the data and once more for the heartbeat. -/
def announceServer (ser : ServerDataHelper) (serverId : String) (context : ServerContext)
    (startedAt utcNow : ℤ) (t : ServerTable) : Except Fault ServerTable :=
  let data := ser.serialize ⟨context.workerCount,context.queues,some startedAt⟩
  match SqlUtil.singleOrDefault (t.rows.filter fun i => i.id = serverId) with
  | .error f => .error f
  | .ok none => t.insert (announced data utcNow { id := serverId, data := "", lastHeartbeat := none })
  | .ok (some server) => .ok (t.modify server.id (announced data utcNow) (announced_id data utcNow))

def removeServer (serverId : String) (t : ServerTable) : ServerTable :=
  t.delete fun i => i.id = serverId

/-- `UpdateServerLastHeartbeatStatement`. -/
def heartbeat (serverId : String) (utcNow : ℤ) (t : ServerTable) : ServerTable :=
  t.modify serverId (fun server => { server with lastHeartbeat := some utcNow }) fun _ => rfl

/-- `TimeSpan.MinValue`. -/
def timeSpanMinValue : ℤ := -9223372036854775808

/-- `TimeSpan.Duration`. -/
def duration (timeOut : ℤ) : Except Fault ℤ :=
  if timeOut = timeSpanMinValue then .error .overflow else .ok |timeOut|

/-- The result is the number of servers removed. -/
def removeTimedOutServers (timeOut utcNow : ℤ) (t : ServerTable) : Except Fault (ℕ × ServerTable) :=
  match duration timeOut with
  | .error f => .error f
  | .ok d =>
    if d ≠ timeOut then .error .argument else
    match DateTime.add utcNow (-timeOut) with
    | .error f => .error f
    | .ok cutoff => .ok (t.rows.countP fun i => expiredBefore cutoff i.lastHeartbeat,
        t.delete fun i => expiredBefore cutoff i.lastHeartbeat)

def serverDto (ser : ServerDataHelper) (server : ServerRow) : Except Fault ServerDto :=
  match ser.deserialize server.data with
  | .error f => .error f
  | .ok none => .error .nullReference
  | .ok (some data) => .ok { name := server.id
                             heartbeat := server.lastHeartbeat
                             queues := data.queues
                             startedAt := data.startedAt.getD 0
                             workersCount := data.workerCount }

/-- `Servers` of the monitoring API. -/
def servers (ser : ServerDataHelper) (o : RowOrder ServerRow) (t : ServerTable) :
    Except Fault (List ServerDto) :=
  (o.arrange t.rows).mapM (serverDto ser)

inductive Action
  | announceServer (serverId : String) (context : ServerContext) (startedAt utcNow : ℤ)
  | removeServer (serverId : String)
  | heartbeat (serverId : String) (utcNow : ℤ)
  | removeTimedOutServers (timeOut utcNow : ℤ)
  deriving DecidableEq

inductive Event
  | done
  | removed (count : ℕ)
  | failed (f : Fault)
  deriving DecidableEq, Repr

def step (ser : ServerDataHelper) (t : ServerTable) : Action → ServerTable × Event
  | .announceServer serverId context startedAt utcNow =>
    match announceServer ser serverId context startedAt utcNow t with
    | .error f => (t,.failed f)
    | .ok t' => (t',.done)
  | .removeServer serverId => (removeServer serverId t,.done)
  | .heartbeat serverId utcNow => (heartbeat serverId utcNow t,.done)
  | .removeTimedOutServers timeOut utcNow =>
    match removeTimedOutServers timeOut utcNow t with
    | .error f => (t,.failed f)
    | .ok (count,t') => (t',.removed count)

section Specs

/-- An upsert by the primary key never fails. -/
theorem announceServer_eq (ser : ServerDataHelper) (serverId : String) (context : ServerContext)
    (startedAt utcNow : ℤ) (t : ServerTable) : ∃ t', announceServer ser serverId context startedAt utcNow t = .ok t' ∧
      ∀ i, t'.byId i = if i = serverId then some ⟨serverId,ser.serialize
        ⟨context.workerCount,context.queues,some startedAt⟩,some utcNow⟩ else t.byId i := by
  have hfind : SqlUtil.singleOrDefault (t.rows.filter fun i => i.id = serverId) =
      .ok (t.byId serverId) :=
    SqlUtil.singleOrDefault_of_distinct (List.pairwise_map.mp t.distinct) serverId
  unfold announceServer
  rw [hfind]
  cases h : t.byId serverId with
  | none => exact ServerTable.insert_of_byId (by exact h)
  | some server =>
    obtain ⟨-,hid⟩ := ServerTable.byId_eq_some.mp h
    refine ⟨_,rfl,fun i => ?_⟩
    rw [ServerTable.byId_modify,hid]
    split_ifs with hi
    · rw [hi,h,Option.map_some,announced,hid]
    · rfl

/-- The sweep goes through exactly if the span is not negative and the cut-off is a date. -/
theorem removeTimedOutServers_eq (timeOut utcNow : ℤ) (t : ServerTable) :
    (0 ≤ timeOut ∧ DateTime.InRange (utcNow-timeOut) ∧
      removeTimedOutServers timeOut utcNow t =
        .ok (t.rows.countP fun i => expiredBefore (utcNow-timeOut) i.lastHeartbeat,
          t.delete fun i => expiredBefore (utcNow-timeOut) i.lastHeartbeat)) ∨
    (¬ (0 ≤ timeOut ∧ DateTime.InRange (utcNow-timeOut)) ∧
      ∃ f, removeTimedOutServers timeOut utcNow t = .error f) := by
  unfold removeTimedOutServers duration
  split_ifs with hmin
  · refine .inr ⟨fun h => ?_,.overflow,rfl⟩
    have := h.1
    rw [hmin,timeSpanMinValue] at this
    omega
  · by_cases hneg : 0 ≤ timeOut
    · rw [abs_of_nonneg hneg]
      simp only [ne_eq,not_true_eq_false,if_false]
      by_cases hr : DateTime.InRange (utcNow-timeOut)
      · rw [DateTime.add_of_inRange hr]
        exact .inl ⟨hneg,hr,rfl⟩
      · rw [DateTime.add_eq_error.mpr ⟨hr,rfl⟩]
        exact .inr ⟨fun h => hr h.2,.argumentOutOfRange,rfl⟩
    · have hne : |timeOut| ≠ timeOut := fun h => hneg (h ▸ abs_nonneg timeOut)
      exact .inr ⟨fun h => hneg h.1,.argument,by simp [hne]⟩

end Specs

end Servers
end HangfireStorage
