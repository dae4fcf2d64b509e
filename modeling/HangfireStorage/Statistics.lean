import HangfireStorage.CounterArithmetic
import HangfireStorage.JobData
import HangfireStorage.LastingCollections
import HangfireStorage.QueuesCache
import HangfireStorage.SchemaInvariant
import HangfireStorage.ServerRuns
import HangfireStorage.UpsertStores

/-!
# Statistics over whole runs

Counters that never expire are conserved by every run in 32 bits, wherever their increments are.
The statistics show them, and how many jobs are in which state.
-/

namespace HangfireStorage
namespace StorageSystem

open AggregationSystem (totalOf increments decrements expiries history_value)
open CounterArithmetic CountersAggregator FiniteMap JobStorageConnection Machine MonitoringApi Table
  WriteOnlyTransaction

section Arithmetic

theorem wrap_add_wrap (x y : ℤ) : Int32.wrap (x + Int32.wrap y) = Int32.wrap (x+y) :=
  Int.add_bmod_bmod ..

/-- Fewer than `2^31` units cannot overflow on the way. -/
theorem runningSums_of_units {xs : List ℤ} (h : ∀ x ∈ xs, x = 1 ∨ x = -1)
    (hlen : xs.length < 2^31) : Int32.RunningSums xs := by
  have hsum (ys : List ℤ) (hy : ∀ y ∈ ys, y = 1 ∨ y = -1) :
      -(ys.length : ℤ) ≤ ys.sum ∧ ys.sum ≤ ys.length := by
    induction ys with
    | nil => simp
    | cons y ys ih =>
      obtain ⟨hle,hge⟩ := ih fun z hz => hy z (by simp [hz])
      obtain hy | hy := hy y (by simp) <;> simp only [List.sum_cons,List.length_cons] <;> omega
  intro n _
  obtain ⟨hle,hge⟩ := hsum (xs.take n) fun x hx => h x (List.mem_of_mem_take hx)
  have hn := List.length_take_le' n xs
  unfold Int32.InRange
  omega

end Arithmetic

section Passes

variable {key : String} {db db' : Db} {o : RowOrder CounterRow}

theorem mem_taken {r : CounterRow} (h : r ∈ taken o db) : r ∈ db.counter.rows :=
  RowOrder.mem_of_mem_take h

/-- A pass moves what it takes from one table to the other. -/
theorem pass_values (h : CountersAggregator.pass o db = .ok db') :
    (key ∈ takenKeys o db → valuesOf key db'.aggregatedCounter = [Int32.wrap (newTotal o key db)]) ∧
    (key ∉ takenKeys o db → valuesOf key db'.aggregatedCounter = valuesOf key db.aggregatedCounter) ∧
    (valuesOf key db'.counter).sum + (takenValues o key db).sum = (valuesOf key db.counter).sum := by
  obtain ⟨items,t,hi,ht,rfl⟩ := pass_eq_ok h
  have hitems := countersByName_items hi
  have hkeys : items.map Item.key = (takenKeys o db).eraseDups := by
    have hfst := congrArg (List.map Prod.fst) hitems
    simpa [Function.comp_def,takenKeys,taken] using hfst
  have hnodup : (items.map Item.key).Nodup := hkeys ▸ nodup_eraseDups _
  obtain ⟨hin,hout⟩ := upsertItems_values hnodup ht
  refine ⟨fun hmem => ?_,fun hmem => ?_,?_⟩
  · have hpair : (key,(takenValues o key db).sum) ∈ items.map fun i => (i.key,i.value) := by
      rw [hitems]
      exact List.mem_map.mpr ⟨key,List.mem_eraseDups.mpr hmem,rfl⟩
    obtain ⟨i,hi',he⟩ := List.mem_map.mp hpair
    obtain ⟨rfl,hv⟩ := Prod.mk.inj he
    rw [hin i hi',hv,newTotal]
  · refine hout key ?_
    rwa [hkeys,List.mem_eraseDups]
  · let moved : CounterRow → Bool := fun r => ((taken o db).map Row.id).contains (Row.id r)
    have hperm : (db.counter.rows.filter moved).Perm (taken o db) :=
      Table.filter_ids_perm (RowOrder.take_nodup o _ db.counter.nodup) fun r hr => mem_taken hr
    have hsplit : sumOf CounterRow.key CounterRow.value key (db.counter.rows.filter moved) +
        sumOf CounterRow.key CounterRow.value key (db.counter.rows.filter fun r => !moved r) =
          sumOf CounterRow.key CounterRow.value key db.counter.rows := sumOf_filter_add _ _
    rw [sumOf_perm hperm,add_comm] at hsplit
    exact hsplit

theorem countersByName_endless {rows : List CounterRow} {items : List Item}
    (h : countersByName rows = .ok items) (hrows : ∀ r ∈ rows, r.key = key → r.expireAt = none) :
    ∀ i ∈ items, i.key = key → i.expireAt = none := by
  intro i hi hkey
  have hmax (l : List CounterRow) (hl : ∀ r ∈ l, r.expireAt = none) : maxExpireAt l = none := by
    unfold maxExpireAt
    induction l with
    | nil => rfl
    | cons r l ih =>
      rw [List.foldl_cons,hl r (by simp)]
      exact ih fun a ha => hl a (by simp [ha])
  obtain ⟨g,hg,hi⟩ := (mem_mapM h i).mp hi
  obtain ⟨k,-,rfl⟩ := List.mem_map.mp hg
  obtain ⟨value,-,rfl⟩ := map_eq_ok hi
  refine hmax _ fun r hr => ?_
  obtain ⟨hr,hk⟩ := List.mem_filter.mp hr
  exact hrows r hr ((of_decide_eq_true hk).trans hkey)

theorem keeps_upsertItem {t t' : Table CounterRow} {item : Item}
    (hitem : item.key = key → item.expireAt = none) (h : upsertItem t item = .ok t') :
    t.Keeps CounterRow.key key t' := by
  refine .upsertEntity h (fun _ => rfl) (fun _ => rfl) (fun r _ hmatch hk he => ?_) fun i hk => ?_
  · have hkey : r.key = item.key := by simpa using hmatch
    show maxOfDateTimes r.expireAt item.expireAt = none
    rw [show r.expireAt = none from he,hitem (hkey.symm.trans hk)]
    rfl
  · show maxOfDateTimes none item.expireAt = none
    rw [hitem hk]
    rfl

end Passes

def counts (key : String) (cmds : List (ℤ × WriteCommand)) : ℤ := increments key cmds - decrements key cmds

/-- The two counter tables hold what has been counted for the key, in 32 bits. -/
structure Accounts (key : String) (cmds : List (ℤ × WriteCommand)) (db : Db) : Prop where
  single : (valuesOf key db.aggregatedCounter).length ≤ 1
  inRange : ∀ v ∈ valuesOf key db.aggregatedCounter, Int32.InRange v
  total : Int32.wrap (totalOf key db) = Int32.wrap (counts key cmds)
  units : ∀ r ∈ db.counter.rows, r.value = 1 ∨ r.value = -1
  endless : ∀ r ∈ db.counter.rows, r.key = key → r.expireAt = none

def CountsForever (key : String) (c : ℤ × WriteCommand) : Prop :=
  ∀ r ∈ counted c, r.key = key → r.expireAt = none

section Runs

variable {key : String} {cmds cs : List (ℤ × WriteCommand)} {db db' : Db} {ser : SerializationHelper}
  {o : RowOrder CounterRow}

theorem counts_append (key : String) (cmds cs : List (ℤ × WriteCommand)) :
    counts key (cmds ++ cs) = counts key cmds + counts key cs := by
  simp only [counts,increments,decrements,List.countP_append]
  push_cast
  ring

theorem counts_singleton (key : String) (c : ℤ × WriteCommand) : counts key [c] =
    ((counted c).elim 0 fun r => if r.key = key then r.value else 0) := by
  have h := history_value key [c]
  rw [counts,← h,tallyOf_value]
  cases hc : counted c with
  | none => simp [hc]
  | some r => by_cases hk : r.key = key <;> simp [hc,hk]

theorem Accounts.run {c : ℤ × WriteCommand} (h : Accounts key cmds db) (hc : CountsForever key c)
    (hr : WriteOnlyTransaction.run ser c.1 db c.2 = .ok db') : Accounts key (cmds ++ [c]) db' := by
  obtain ⟨hagg,-,hcounter⟩ := run_counter hr
  have hunit : ∀ r, counted c = some r → r.value = 1 ∨ r.value = -1 := by
    intro r hr
    unfold counted at hr
    split at hr <;> cases hr <;> simp
  rw [show (c.1,c.2) = c from rfl] at hcounter
  have hrow : ∀ r ∈ db'.counter.rows, r ∈ db.counter.rows ∨
      ∃ a ∈ counted c, r = Row.withId db.counter.nextId a := by
    intro r hr
    rw [hcounter] at hr
    cases hc : counted c with
    | none => exact .inl (by simpa [hc] using hr)
    | some a => simpa [hc] using hr
  refine ⟨hagg ▸ h.single,hagg ▸ h.inRange,?_,fun r hr => ?_,fun r hr hk => ?_⟩
  · have htotal : totalOf key db' = totalOf key db +
        (counted c).elim 0 fun r => if r.key = key then r.value else 0 := by
      rw [totalOf,totalOf,hagg,hcounter]
      cases counted c with
      | none => simp
      | some r =>
        by_cases hk : r.key = key
        · simp only [valuesOf,Option.elim_some,Table.rows_insert,List.filter_append]
          simp [Row.withId,hk]
          ring
        · simp [valuesOf,List.filter_append,Row.withId,hk]
    rw [counts_append,counts_singleton,htotal,add_comm,← wrap_add_wrap,h.total,wrap_add_wrap,add_comm]
  · obtain hr | ⟨a,ha,rfl⟩ := hrow r hr
    · exact h.units r hr
    · exact hunit a ha
  · obtain hr | ⟨a,ha,rfl⟩ := hrow r hr
    · exact h.endless r hr hk
    · exact hc a ha hk

theorem Accounts.commit (h : Accounts key cmds db) (hcs : ∀ c ∈ cs, CountsForever key c)
    (hc : WriteOnlyTransaction.commit ser cs db = .ok db') : Accounts key (cmds ++ cs) db' := by
  induction cs generalizing db cmds with
  | nil =>
    cases hc
    simpa using h
  | cons c cs ih =>
    obtain ⟨db₁,hr,hrest⟩ := commit_cons_eq_ok.mp hc
    have hrun := ih (h.run (hcs c (by simp)) hr) (fun d hd => hcs d (by simp [hd])) hrest
    rwa [List.append_assoc] at hrun

theorem Accounts.pass (h : Accounts key cmds db) (hp : CountersAggregator.pass o db = .ok db') :
    Accounts key cmds db' := by
  obtain ⟨hin,hout,hmoved⟩ := @pass_values key db db' o hp
  obtain ⟨items,t,hi,ht,rfl⟩ := pass_eq_ok hp
  refine ⟨?_,?_,?_,fun r hr => h.units r (List.mem_of_mem_filter hr),
    fun r hr => h.endless r (List.mem_of_mem_filter hr)⟩
  · by_cases hk : key ∈ takenKeys o db
    · simp [hin hk]
    · rw [hout hk]
      exact h.single
  · by_cases hk : key ∈ takenKeys o db
    · rw [hin hk]
      simpa using Int32.wrap_inRange _
    · rw [hout hk]
      exact h.inRange
  · rw [← h.total,totalOf,totalOf,← hmoved]
    by_cases hk : key ∈ takenKeys o db
    · rw [hin hk,List.sum_singleton,wrap_add_wrap,newTotal]
      congr 1
      ring
    · rw [hout hk]
      have hzero : takenValues o key db = [] := by
        rw [takenValues,List.filter_eq_nil_iff.mpr]
        · rfl
        · exact fun r hr hkey => hk (List.mem_map.mpr ⟨r,hr,of_decide_eq_true hkey⟩)
      simp [hzero]

theorem Accounts.keeps_pass (h : Accounts key cmds db) (hp : CountersAggregator.pass o db = .ok db') :
    db.aggregatedCounter.Keeps CounterRow.key key db'.aggregatedCounter := by
  obtain ⟨items,t,hi,ht,rfl⟩ := pass_eq_ok hp
  have hitems := countersByName_endless hi fun r hr => h.endless r (mem_taken hr)
  exact .foldlM (fun i hi t t' hu => keeps_upsertItem (hitems i hi) hu) ht

theorem Accounts.same (h : Accounts key cmds db) (hc : db'.counter = db.counter)
    (hr : aggregatedCounterTable.rowsOf key db' = aggregatedCounterTable.rowsOf key db) :
    Accounts key cmds db' := by
  have hv : valuesOf key db'.aggregatedCounter = valuesOf key db.aggregatedCounter :=
    congrArg (List.map CounterRow.value) hr
  refine ⟨hv ▸ h.single,hv ▸ h.inRange,?_,hc ▸ h.units,hc ▸ h.endless⟩
  rw [← h.total,totalOf,totalOf,hv,hc]

theorem accounts_initial (key : String) (now : ℤ) : Accounts key [] (initial now).db where
  single := by simp [initial,Db.empty,valuesOf,Table.empty]
  inRange := by simp [initial,Db.empty,valuesOf,Table.empty]
  total := rfl
  units := by simp [initial,Db.empty,Table.empty]
  endless := by simp [initial,Db.empty,Table.empty]

theorem countsForever_of_expiries (h : expiries key cmds = []) : ∀ c ∈ cmds, CountsForever key c := by
  intro c hc r hr hk
  have hnone := List.filterMap_eq_nil_iff.mp h c hc
  obtain ⟨now,c⟩ := c
  cases c with
  | incrementCounter k span | decrementCounter k span =>
    cases hr
    obtain rfl : k = key := hk
    simpa using hnone
  | _ => cases hr

variable {T now : ℤ} {as : List Action}

/-- Clean-up takes nothing from a counter that never expires, and aggregation only moves it. -/
theorem accounts_exec (h : expiries key (commands (trace (step ser T) (initial now) as)) = []) :
    Accounts key (commands (trace (step ser T) (initial now) as))
      (exec (step ser T) (initial now) as).db := by
  have hexec : Accounts key ([] ++ commands (trace (step ser T) (initial now) as))
      (exec (step ser T) (initial now) as).db := by
    refine lasting_exec (C := aggregatedCounterTable) (k := key) (Q := CountsForever key)
      (P := Accounts key) (fun cs cmds db db' hP hQ hc => ⟨?_,hP.commit hQ hc⟩)
      (fun cs o db db' hP hp => ⟨hP.keeps_pass hp,hP.pass hp⟩)
      (fun cs db db' hP hr hc => hP.same hc hr) (countsForever_of_expiries h)
      (lasting_initial _ _ _ rfl) (accounts_initial key now)
    have hagg : db'.aggregatedCounter = db.aggregatedCounter := (commit_untouched hc).1
    show db.aggregatedCounter.Keeps CounterRow.key key db'.aggregatedCounter
    exact hagg ▸ .refl _ _ _
  exact hexec

end Runs

section Reads

variable {key : String} {cmds : List (ℤ × WriteCommand)} {db : Db} {ser : SerializationHelper} {T now : ℤ}
  {as : List Action}

/-- The shown count is short of the exact one by a multiple of `2^32` at most. -/
theorem Accounts.countStats (h : Accounts key cmds db) (o₁ o₂ : RowOrder CounterRow)
    (hlen : (valuesOf key db.counter).length < 2^31) :
    countStats o₁ o₂ key db = .ok (Int32.wrap (counts key cmds)) := by
  have hperm (o : RowOrder CounterRow) (t : Table CounterRow) :
      ((o.arrange (t.rows.filter fun i => i.key = key)).map CounterRow.value).Perm (valuesOf key t) :=
    (o.perm _).map CounterRow.value
  have h₁ : Int32.RunningSums
      ((o₁.arrange (db.aggregatedCounter.rows.filter fun i => i.key = key)).map CounterRow.value) := by
    refine runningSums_of_length_le_one ?_ ?_
    · rw [(hperm o₁ _).length_eq]
      exact h.single
    · rw [sum_arrange]
      have hsingle := h.single
      have hin := h.inRange
      generalize valuesOf key db.aggregatedCounter = vs at hsingle hin
      match vs,hsingle with
      | [],_ => simp [Int32.InRange]
      | [v],_ => simpa using hin v (by simp)
  have h₂ : Int32.RunningSums
      ((o₂.arrange (db.counter.rows.filter fun i => i.key = key)).map CounterRow.value) := by
    refine runningSums_of_units (fun x hx => ?_) (by rwa [(hperm o₂ _).length_eq])
    obtain ⟨r,hr,rfl⟩ := List.mem_map.mp hx
    exact h.units r (List.mem_of_mem_filter ((o₂.perm _).mem_iff.mp hr))
  rw [MonitoringApi.countStats,Int32.checkedSum_eq_ok_iff.mpr ⟨h₁,rfl⟩]
  simp only [Int32.checkedSum_eq_ok_iff.mpr ⟨h₂,rfl⟩,Except.map,sum_arrange]
  rw [← h.total,totalOf,add_comm]

def jobsInState (cs : List Call) (name : String) : Set ℤ :=
  {v | ∃ r, Recorded cs v r ∧ r.state.map State.name = some name}

theorem encard_jobsInState {name : String} (hname : 0 < name.length) (now : ℤ) (as : List Action) :
    (jobsInState (calls ser T (initial now) as) name).encard =
      getJobStatusCount name (exec (step ser T) (initial now) as).db := by
  let db := (exec (step ser T) (initial now) as).db
  let ids := (db.job.rows.filter fun job => job.stateName = some name).map Row.id
  have hset : jobsInState (calls ser T (initial now) as) name = (ids.toFinset : Set ℤ) := by
    ext v
    have hv : HoldsRecord ser db v (jobRecord (calls ser T (initial now) as) v) := holdsRecord_exec rfl as v
    simp only [jobsInState,Set.mem_ofPred_eq,List.coe_toFinset,ids,List.mem_map,List.mem_filter,
      decide_eq_true_eq]
    constructor
    · rintro ⟨r,hr,hstate⟩
      rw [jobRecord_eq_some.mpr hr] at hv
      obtain ⟨job,hb,hlast⟩ := Option.map_eq_some_iff.mp hv
      exact ⟨job,⟨Table.mem_of_byId hb,by rw [stateName_of_lasting hlast,hstate]⟩,Table.id_of_byId hb⟩
    · rintro ⟨job,⟨hjob,hstate⟩,rfl⟩
      rw [HoldsRecord,Table.byId_of_mem hjob] at hv
      obtain ⟨r,hr,hlast⟩ := Option.map_eq_some_iff.mp hv.symm
      exact ⟨r,jobRecord_eq_some.mp hr,by rw [← stateName_of_lasting hlast.symm,hstate]⟩
  rw [hset,Set.encard_coe_eq_coe_finsetCard,List.toFinset_card_of_nodup,List.length_map,
    getJobStatusCount_eq hname,List.countP_eq_length_filter]
  exact Table.nodup_ids db.job _

theorem effects_set {m : Maps} {l l' : List (Entry (String × ℚ))}
    (h : Collections.effects (.set key) cmds l = .ok l') (hl : Represents (l.map Entry.item) (m.set key)) :
    Represents (l'.map Entry.item) ((cmds.foldl (fun m c => m.command c.2) m).set key) := by
  induction cmds generalizing l m with
  | nil =>
    cases h
    exact hl
  | cons c cmds ih =>
    rw [List.foldl_cons]
    by_cases hc : c.2.place = some (.set key)
    · rw [Collections.effects,List.filter_cons_of_pos (by simpa using hc)] at h
      obtain ⟨l₁,h₁,hrest⟩ := foldlM_cons_eq_ok.mp h
      have hlawful := effect_set c.1 hc hl
      rw [h₁] at hlawful
      exact ih hrest hlawful
    · rw [Collections.effects,List.filter_cons_of_neg (by simpa using hc)] at h
      exact ih h (by rwa [command_set_of_ne hc])

/-- The recurring jobs that have been scheduled and not been removed since. -/
def recurringJobs (cmds : List (ℤ × WriteCommand)) : Set String :=
  {value | (cmds.foldl (fun m c => m.command c.2) Maps.empty).set "recurring-jobs" value ≠ none}

theorem encard_recurringJobs
    (h : NeverExpires (.set "recurring-jobs") (commands (trace (step ser T) (initial now) as))) :
    (recurringJobs (commands (trace (step ser T) (initial now) as))).encard =
      (exec (step ser T) (initial now) as).db.set.rows.countP fun i => i.key = "recurring-jobs" := by
  have hset := effects_set (m := .empty) (effects_initial (by simp) now h) .nil
  rw [recurringJobs,hset.encard,List.countP_eq_length_filter,List.length_map]
  exact congrArg _ (List.length_map _)

def registeredServers (serverCalls : List Servers.Action) : Set String :=
  {serverId | ∃ r, Servers.Registered serverCalls serverId r}

theorem encard_registeredServers (serverSer : Servers.ServerDataHelper)
    (serverCalls : List Servers.Action) : (registeredServers serverCalls).encard =
      (exec (Servers.step serverSer) .empty serverCalls).rows.length := by
  rw [← (Servers.holds_exec serverSer serverCalls).encard,registeredServers]
  congr 1
  ext serverId
  simp only [Set.mem_ofPred_eq,← Servers.registry_eq_some,Option.ne_none_iff_exists']

def queuesInUse (db : Db) : Set String := {queue | ∃ i ∈ db.jobQueue.rows, i.queue = queue}

theorem encard_queuesInUse {names : List String} (h : QueuesCache.Names names db) :
    (queuesInUse db).encard = names.length := by
  have hset : queuesInUse db = (names.toFinset : Set String) := by
    ext queue
    simp [queuesInUse,h.mem_iff]
  rw [hset,Set.encard_coe_eq_coe_finsetCard,List.toFinset_card_of_nodup h.nodup]

/-- What the statistics stand for, given the calls and the commands of a run, the calls of the
servers and the answers of GetQueues. -/
structure Shows (cs : List Call) (cmds : List (ℤ × WriteCommand)) (serverCalls : List Servers.Action)
    (getQueues : List (List String)) (db : Db) (dto : StatisticsDto) : Prop where
  enqueued : (jobsInState cs "Enqueued").encard = dto.enqueued
  failed : (jobsInState cs "Failed").encard = dto.failed
  processing : (jobsInState cs "Processing").encard = dto.processing
  scheduled : (jobsInState cs "Scheduled").encard = dto.scheduled
  servers : (registeredServers serverCalls).encard = dto.servers
  succeeded : dto.succeeded = Int32.wrap (counts "stats:succeeded" cmds)
  deleted : dto.deleted = Int32.wrap (counts "stats:deleted" cmds)
  recurring : (recurringJobs cmds).encard = dto.recurring
  queues : dto.queues = getQueues.flatten.length
  queuesInUse : ∀ names, getQueues = [names] → QueuesCache.Names names db →
    (queuesInUse db).encard = dto.queues

/-- After every run the statistics show the jobs by their last states, the registered servers, the
counters as exact counts of what has been committed, in 32 bits, and the recurring jobs, if the
counters and the recurring jobs have never been given an expiry and fewer than `2^31` increments
wait for their aggregation. A single queue provider with a current answer gives the queues in
use. -/
theorem statistics_show (ser : SerializationHelper) (T now : ℤ) (as : List Action)
    (o₁ o₂ : String → RowOrder CounterRow) (serverSer : Servers.ServerDataHelper)
    (serverCalls : List Servers.Action) (getQueues : List (List String))
    (hcounters : ∀ key ∈ ["stats:succeeded","stats:deleted"],
      expiries key (commands (trace (step ser T) (initial now) as)) = [] ∧
      (valuesOf key (exec (step ser T) (initial now) as).db.counter).length < 2^31)
    (hrecurring : NeverExpires (.set "recurring-jobs")
      (commands (trace (step ser T) (initial now) as))) :
    ∃ dto, getStatistics o₁ o₂ (exec (Servers.step serverSer) .empty serverCalls) getQueues
        (exec (step ser T) (initial now) as).db = .ok dto ∧
      Shows (calls ser T (initial now) as) (commands (trace (step ser T) (initial now) as)) serverCalls
        getQueues (exec (step ser T) (initial now) as).db dto := by
  have hstats : ∀ key ∈ ["stats:succeeded","stats:deleted"],
      MonitoringApi.countStats (o₁ key) (o₂ key) key (exec (step ser T) (initial now) as).db =
        .ok (Int32.wrap (counts key (commands (trace (step ser T) (initial now) as)))) :=
    fun key hk => (accounts_exec (hcounters key hk).1).countStats _ _ (hcounters key hk).2
  rw [getStatistics,hstats _ (by simp),hstats _ (by simp)]
  refine ⟨_,rfl,?_⟩
  constructor
  case recurring => exact encard_recurringJobs hrecurring
  case servers => exact encard_registeredServers serverSer serverCalls
  case queuesInUse =>
    rintro names rfl hnames
    rw [encard_queuesInUse hnames]
    simp
  case succeeded | deleted | queues => rfl
  all_goals exact encard_jobsInState (by decide) now as

/-- One increment is aggregated and another is not, and a recurring job has replaced another. -/
def statisticsRun : List Action :=
  [.createExpiredJob "job" "[]" .empty 0 100,
    .commit [(0,.setJobState "1" failed),(0,.incrementCounter "stats:succeeded" none),
      (0,.addToSet "recurring-jobs" "hourly" 5)],
    .aggregate .stored,.advance 20,.select .aggregatedCounter .stored 1000 0,.deleteBatch 0,
    .commit [(20,.incrementCounter "stats:succeeded" none),(20,.removeFromSet "recurring-jobs" "hourly"),
      (20,.addToSet "recurring-jobs" "daily" 5)]]

def twoServers : List Servers.Action :=
  [.announceServer "a" ⟨20,none⟩ 0 0,.announceServer "b" ⟨20,none⟩ 5 5,.removeServer "a"]

theorem statistics_show_two :
    ∃ dto, getStatistics (fun _ => .stored) (fun _ => .stored)
        (exec (Servers.step Servers.jsonHelper) .empty twoServers) [["default"]]
        (exec (step Json.helper 0) (initial 0) statisticsRun).db = .ok dto ∧
      Shows (calls Json.helper 0 (initial 0) statisticsRun)
        (commands (trace (step Json.helper 0) (initial 0) statisticsRun)) twoServers [["default"]]
        (exec (step Json.helper 0) (initial 0) statisticsRun).db dto :=
  statistics_show Json.helper 0 0 statisticsRun _ _ Servers.jsonHelper twoServers [["default"]] (by decide)
    (by decide)

example : getStatistics (fun _ => .stored) (fun _ => .stored)
    (exec (Servers.step Servers.jsonHelper) .empty twoServers) [["default"]]
    (exec (step Json.helper 0) (initial 0) statisticsRun).db = .ok ⟨0,1,0,0,1,2,0,1,1⟩ := by decide

end Reads

end StorageSystem
end HangfireStorage
