import HangfireStorage.AggregationLoop
import HangfireStorage.CounterReads
import HangfireStorage.MonitoringApi

/-!
# Counter arithmetic

The sums of stored values are checked. The two sums of a key, and the old and the new value of
an AggregatedCounter row, are added in 32 bits without a check.
-/

namespace HangfireStorage
namespace CounterArithmetic

open AggregationSystem CountersAggregator JobStorageConnection MonitoringApi

def taken (o : RowOrder CounterRow) (db : Db) : List CounterRow :=
  o.take numberOfRecordsInSinglePass db.counter.rows

def takenKeys (o : RowOrder CounterRow) (db : Db) : List String := (taken o db).map CounterRow.key

def takenValues (o : RowOrder CounterRow) (key : String) (db : Db) : List ℤ :=
  ((taken o db).filter fun i => i.key = key).map CounterRow.value

/-- The exact value of a key's AggregatedCounter row after a pass. -/
def newTotal (o : RowOrder CounterRow) (key : String) (db : Db) : ℤ :=
  (valuesOf key db.aggregatedCounter).sum + (takenValues o key db).sum

/-- A pass stores the exact new total of each key it takes rows of, or it throws and changes
nothing. -/
def PassExact (o : RowOrder CounterRow) (removedCount : ℕ) (db : Db) : Prop :=
  match CountersAggregator.round o (removedCount,db) with
  | (s,some (.error _)) => s.2 = db
  | (s,_) => ∀ key ∈ takenKeys o db, valuesOf key s.2.aggregatedCounter = [newTotal o key db]

/-- The two readers of a key's counters, and a pass, compute exactly. -/
structure CountersExact (o₁ o₂ o : RowOrder CounterRow) (removedCount : ℕ) (key : String) (db : Db) :
    Prop where
  getCounter : getCounter key db = .ok (totalOf key db)
  countStats : countStats o₁ o₂ key db = .ok (totalOf key db)
  pass : PassExact o removedCount db

/-- No sum leaves the Int32 range. A pass that throws for one stores none of the others. -/
structure NoOverflow (o₂ o : RowOrder CounterRow) (key : String) (db : Db) : Prop where
  total : Int32.InRange (totalOf key db)
  running : Int32.RunningSums
    ((o₂.arrange (db.counter.rows.filter fun i => i.key = key)).map CounterRow.value)
  pass : (∀ k ∈ takenKeys o db, Int32.RunningSums (takenValues o k db)) →
    ∀ k ∈ takenKeys o db, Int32.InRange (newTotal o k db)

instance (o₂ o : RowOrder CounterRow) (key : String) (db : Db) :
    Decidable (NoOverflow o₂ o key db) :=
  decidable_of_iff (Int32.InRange _ ∧ Int32.RunningSums _ ∧
      ((∀ k ∈ takenKeys o db, Int32.RunningSums _) → ∀ k ∈ takenKeys o db, Int32.InRange _))
    ⟨fun h => ⟨h.1,h.2.1,h.2.2⟩,fun h => ⟨h.total,h.running,h.pass⟩⟩

section Upserts

variable {t t' : Table CounterRow} {item : Item}

theorem upsertItem_values (h : upsertItem t item = .ok t') :
    valuesOf item.key t' = [Int32.wrap ((valuesOf item.key t).sum + item.value)] ∧
      ∀ key ≠ item.key, valuesOf key t' = valuesOf key t := by
  obtain ⟨entity,he,rfl⟩ := map_eq_ok h
  have hrows := SqlUtil.singleOrDefault_eq_ok he
  have hvalues : valuesOf item.key t = entity.toList.map CounterRow.value := by
    rw [valuesOf,hrows]
  obtain ⟨rfl,hne,hsaved⟩ | ⟨e,l₁,l₂,rfl,hkey,hl,hsaved⟩ := saveEntity_rows hrows
  · have hnone : t.rows.filter (fun i => i.key = item.key) = [] := hrows
    constructor
    · rw [hvalues,valuesOf,hsaved,List.filter_append,hnone]
      simp [Row.withId,changeAction,keysetAction,newEntity]
    · intro key hk
      rw [valuesOf,hsaved,List.filter_append,valuesOf]
      simp [Row.withId,changeAction,keysetAction,Ne.symm hk]
  · constructor
    · have hone : (l₁ ++ e::l₂).filter (fun i => i.key = item.key) = [e] := hl ▸ hrows
      rw [hvalues,valuesOf,hsaved]
      have hsplit : l₁.filter (fun i => i.key = item.key) = [] ∧
          l₂.filter (fun i => i.key = item.key) = [] := by
        have hlen := congrArg List.length hone
        rw [List.filter_append,List.filter_cons_of_pos (by simpa using hkey)] at hlen
        simp only [List.length_append,List.length_cons,List.length_nil] at hlen
        exact ⟨List.length_eq_zero_iff.mp (by omega),List.length_eq_zero_iff.mp (by omega)⟩
      rw [List.filter_append,hsplit.1,List.nil_append,List.filter_cons,hsplit.2]
      simp [changeAction,hkey]
    · intro key hk
      have hek : e.key ≠ key := hkey ▸ Ne.symm hk
      rw [valuesOf,valuesOf,hsaved,hl]
      simp [List.filter_append,changeAction,hek]

theorem upsertItems_values {items : List Item} (hd : (items.map Item.key).Nodup)
    (h : items.foldlM upsertItem t = .ok t') :
    (∀ i ∈ items, valuesOf i.key t' = [Int32.wrap ((valuesOf i.key t).sum + i.value)]) ∧
      ∀ key ∉ items.map Item.key, valuesOf key t' = valuesOf key t := by
  induction items generalizing t with
  | nil =>
    cases h
    exact ⟨nofun,fun _ _ => rfl⟩
  | cons item items ih =>
    rw [List.map_cons,List.nodup_cons] at hd
    obtain ⟨t₁,hu,hrest⟩ := foldlM_cons_eq_ok.mp h
    obtain ⟨hown,hothers⟩ := upsertItem_values hu
    obtain ⟨hin,hout⟩ := ih hd.2 hrest
    constructor
    · intro i hi
      rcases List.mem_cons.mp hi with rfl | hi
      · rw [hout _ hd.1,hown]
      · have hne : i.key ≠ item.key := fun he => hd.1 (he ▸ List.mem_map_of_mem hi)
        rw [hin i hi,hothers _ hne]
    · intro key hkey
      rw [List.map_cons,List.mem_cons,not_or] at hkey
      rw [hout key hkey.2,hothers key hkey.1]

end Upserts

section Groups

variable {rows : List CounterRow} {items : List Item}

/-- Grouping throws exactly if the running sum of a group overflows. -/
theorem countersByName_ok_iff : (∃ items, countersByName rows = .ok items) ↔
    ∀ key ∈ rows.map CounterRow.key,
      Int32.RunningSums ((rows.filter fun i => i.key = key).map CounterRow.value) := by
  rw [countersByName,mapM_ok_iff,groupBy]
  simp only [List.forall_mem_map,List.mem_eraseDups]
  refine forall₂_congr fun key _ => ?_
  constructor
  · rintro ⟨item,h⟩
    obtain ⟨value,hv,-⟩ := map_eq_ok h
    exact (Int32.checkedSum_eq_ok_iff.mp hv).1
  · intro h
    rw [Int32.checkedSum_eq_ok_iff.mpr ⟨h,rfl⟩]
    exact ⟨_,rfl⟩

theorem countersByName_items (h : countersByName rows = .ok items) :
    items.map (fun i => (i.key,i.value)) = (rows.map CounterRow.key).eraseDups.map fun key =>
      (key,((rows.filter fun i => i.key = key).map CounterRow.value).sum) := by
  have hitem : ∀ (g : String × List CounterRow) (i : Item),
      ((Int32.checkedSum 0 (g.2.map CounterRow.value)).map fun value =>
        Item.mk g.1 value (maxExpireAt g.2)) = .ok i →
      (i.key,i.value) = (g.1,(g.2.map CounterRow.value).sum) := by
    intro g i hi
    obtain ⟨value,hv,rfl⟩ := map_eq_ok hi
    rw [(Int32.checkedSum_eq_ok_iff.mp hv).2]
  rw [map_of_mapM hitem h,groupBy,List.map_map]
  rfl

end Groups

section Passes

variable {o : RowOrder CounterRow} {removedCount : ℕ} {db : Db}

theorem passExact_of_overflow
    (h : ¬ ∀ k ∈ takenKeys o db, Int32.RunningSums (takenValues o k db)) :
    PassExact o removedCount db := by
  have hitems : ¬ ∃ items, countersByName (taken o db) = .ok items :=
    fun he => h (countersByName_ok_iff.mp he)
  cases hi : countersByName (taken o db) with
  | ok items => exact absurd ⟨items,hi⟩ hitems
  | error f =>
    have hpass : CountersAggregator.pass o db = .error f := by
      rw [taken] at hi
      simp only [CountersAggregator.pass,hi]
    simp [PassExact,CountersAggregator.round,countedPass,hpass,Except.map]

theorem passExact_of_fit (hk : (db.aggregatedCounter.rows.map CounterRow.key).Nodup)
    (h : ∀ k ∈ takenKeys o db, Int32.RunningSums (takenValues o k db)) :
    PassExact o removedCount db ↔
      ∀ k ∈ takenKeys o db, [Int32.wrap (newTotal o k db)] = [newTotal o k db] := by
  obtain ⟨items,hi⟩ : ∃ items, countersByName (taken o db) = .ok items :=
    countersByName_ok_iff.mpr h
  obtain ⟨t,ht,-⟩ := upsertItems_ok items hk
  have hitems := countersByName_items hi
  have hkeys : items.map Item.key = (takenKeys o db).eraseDups := by
    have hfst := congrArg (List.map Prod.fst) hitems
    simpa [Function.comp_def,takenKeys] using hfst
  have hnodup : (items.map Item.key).Nodup := hkeys ▸ nodup_eraseDups _
  have hstored : ∀ k ∈ takenKeys o db, valuesOf k t = [Int32.wrap (newTotal o k db)] := by
    intro k hmem
    have hpair : (k,(takenValues o k db).sum) ∈ items.map fun i => (i.key,i.value) := by
      rw [hitems]
      exact List.mem_map.mpr ⟨k,List.mem_eraseDups.mpr hmem,rfl⟩
    obtain ⟨i,hi',he⟩ := List.mem_map.mp hpair
    obtain ⟨rfl,hv⟩ := Prod.mk.inj he
    rw [(upsertItems_values hnodup ht).1 i hi',hv,newTotal]
  rw [taken] at hi
  have hexact : PassExact o removedCount db ↔
      ∀ k ∈ takenKeys o db, valuesOf k t = [newTotal o k db] := by
    simp only [PassExact,CountersAggregator.round,countedPass,CountersAggregator.pass,hi,ht,
      Except.map]
    split_ifs <;> rfl
  rw [hexact]
  exact forall₂_congr fun k hmem => by rw [hstored k hmem]

theorem passExact_iff (hk : (db.aggregatedCounter.rows.map CounterRow.key).Nodup) :
    PassExact o removedCount db ↔ ((∀ k ∈ takenKeys o db, Int32.RunningSums (takenValues o k db)) →
      ∀ k ∈ takenKeys o db, Int32.InRange (newTotal o k db)) := by
  by_cases h : ∀ k ∈ takenKeys o db, Int32.RunningSums (takenValues o k db)
  · rw [passExact_of_fit hk h]
    simp only [List.cons.injEq,and_true,Int32.wrap_eq_self_iff]
    exact ⟨fun hall _ => hall,fun hall => hall h⟩
  · exact ⟨fun _ hall => absurd hall h,fun _ => passExact_of_overflow h⟩

end Passes

section Reads

variable {key : String} {db : Db}

theorem guardedSum_of_inRange {t : Table CounterRow} (h : Int32.InRange (valuesOf key t).sum) :
    guardedSum key t t = .ok (valuesOf key t).sum := by
  unfold guardedSum sum
  split_ifs with hnil
  · simp [hnil]
  · rfl

/-- Both sums fit, so that only their addition can go wrong. -/
theorem getCounter_exact_iff_total (hcounter : Int32.InRange (valuesOf key db.counter).sum)
    (haggregated : Int32.InRange (valuesOf key db.aggregatedCounter).sum) :
    getCounter key db = .ok (totalOf key db) ↔ Int32.InRange (totalOf key db) := by
  rw [getCounter,getCounterReads,guardedSum_of_inRange hcounter,guardedSum_of_inRange haggregated]
  simp only [Except.ok.injEq]
  exact Int32.wrap_eq_self_iff

theorem sum_arrange (o : RowOrder CounterRow) (t : Table CounterRow) :
    ((o.arrange (t.rows.filter fun i => i.key = key)).map CounterRow.value).sum =
      (valuesOf key t).sum :=
  ((o.perm _).map CounterRow.value).sum_eq

theorem runningSums_of_length_le_one {xs : List ℤ} (hlen : xs.length ≤ 1) (h : Int32.InRange xs.sum) :
    Int32.RunningSums xs := by
  intro n _
  cases n with
  | zero => simp [Int32.InRange]
  | succ n => rwa [List.take_of_length_le (by omega)]

/-- A unique key has one value at most, which is its sum. -/
theorem runningSums_of_unique (o : RowOrder CounterRow) {t : Table CounterRow}
    (hk : (t.rows.map CounterRow.key).Nodup) (h : Int32.InRange (valuesOf key t).sum) :
    Int32.RunningSums ((o.arrange (t.rows.filter fun i => i.key = key)).map CounterRow.value) := by
  have hone := SqlUtil.singleOrDefault_eq_ok
    (SqlUtil.singleOrDefault_of_distinct (List.pairwise_map.mp hk) key)
  refine runningSums_of_length_le_one ?_ (by rwa [sum_arrange])
  rw [List.length_map,(o.perm _).length_eq,hone]
  cases t.rows.find? (fun i => i.key = key) <;> simp

theorem countStats_exact_iff {o₁ o₂ : RowOrder CounterRow}
    (hk : (db.aggregatedCounter.rows.map CounterRow.key).Nodup)
    (haggregated : Int32.InRange (valuesOf key db.aggregatedCounter).sum) :
    countStats o₁ o₂ key db = .ok (totalOf key db) ↔ Int32.InRange (totalOf key db) ∧
      Int32.RunningSums ((o₂.arrange (db.counter.rows.filter fun i => i.key = key)).map
        CounterRow.value) := by
  have h₁ := Int32.checkedSum_eq_ok_iff.mpr ⟨runningSums_of_unique o₁ hk haggregated,rfl⟩
  rw [countStats,h₁]
  constructor
  · intro h
    obtain ⟨l2,h₂,hsum⟩ := map_eq_ok h
    obtain ⟨hrun,rfl⟩ := Int32.checkedSum_eq_ok_iff.mp h₂
    rw [sum_arrange,sum_arrange,add_comm] at hsum
    exact ⟨Int32.wrap_eq_self_iff.mp hsum,hrun⟩
  · rintro ⟨htotal,hrun⟩
    simp only [Int32.checkedSum_eq_ok_iff.mpr ⟨hrun,rfl⟩,sum_arrange,Except.map]
    rw [add_comm]
    exact congrArg _ (Int32.wrap_of_inRange htotal)

/-- The statistics show the two totals where `CountStats` is exact. -/
theorem getStatistics_exact {o₁ o₂ : String → RowOrder CounterRow} {server : Servers.ServerTable}
    {getQueues : List (List String)}
    (h : ∀ k ∈ ["stats:succeeded","stats:deleted"],
      countStats (o₁ k) (o₂ k) k db = .ok (totalOf k db)) :
    ∃ dto, getStatistics o₁ o₂ server getQueues db = .ok dto ∧
      dto.succeeded = totalOf "stats:succeeded" db ∧ dto.deleted = totalOf "stats:deleted" db := by
  rw [getStatistics,h _ (by simp),h _ (by simp)]
  exact ⟨_,rfl,rfl,rfl⟩

end Reads

/-- Counters are read and aggregated exactly if and only if no addition overflows. -/
theorem counters_exact_iff {o₁ o₂ o : RowOrder CounterRow} {removedCount : ℕ} {key : String} {db : Db}
    (hk : (db.aggregatedCounter.rows.map CounterRow.key).Nodup)
    (hcounter : Int32.InRange (valuesOf key db.counter).sum)
    (haggregated : Int32.InRange (valuesOf key db.aggregatedCounter).sum) :
    CountersExact o₁ o₂ o removedCount key db ↔ NoOverflow o₂ o key db := by
  have hget := getCounter_exact_iff_total hcounter haggregated
  have hstats : countStats o₁ o₂ key db = .ok (totalOf key db) ↔ _ :=
    countStats_exact_iff hk haggregated
  have hpass : PassExact o removedCount db ↔ _ := passExact_iff hk
  exact ⟨fun h => ⟨hget.mp h.getCounter,(hstats.mp h.countStats).2,hpass.mp h.pass⟩,
    fun h => ⟨hget.mpr h.total,hstats.mpr ⟨h.total,h.running⟩,hpass.mpr h.pass⟩⟩

def incremented (total : ℤ) : Db := { Db.empty with
  counter := Table.empty.insert ⟨0,"stats:succeeded",1,none⟩
  aggregatedCounter := Table.empty.insert ⟨0,"stats:succeeded",total,none⟩ }

theorem counters_exact_seven :
    CountersExact .stored .stored .stored 0 "stats:succeeded" (incremented 7) ↔
      NoOverflow .stored .stored "stats:succeeded" (incremented 7) :=
  counters_exact_iff (by decide) (by decide) (by decide)

/-- Both sums are Int32. The readers return a negative number, and the next pass makes it permanent. -/
theorem counters_wrap :
    Int32.InRange (valuesOf "stats:succeeded" (incremented 2147483647).counter).sum ∧
    Int32.InRange (valuesOf "stats:succeeded" (incremented 2147483647).aggregatedCounter).sum ∧
    getCounter "stats:succeeded" (incremented 2147483647) = .ok (-2147483648) ∧
    countStats .stored .stored "stats:succeeded" (incremented 2147483647) = .ok (-2147483648) ∧
    (CountersAggregator.round .stored (0,incremented 2147483647)).1.2.aggregatedCounter.rows =
      [⟨1,"stats:succeeded",-2147483648,none⟩] ∧
    ¬ CountersExact .stored .stored .stored 0 "stats:succeeded" (incremented 2147483647) :=
  ⟨by decide,by decide,by decide,by decide,by decide,fun h => absurd h.getCounter (by decide)⟩

end CounterArithmetic
end HangfireStorage
