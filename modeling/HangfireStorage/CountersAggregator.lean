import HangfireStorage.SqlUtil
import HangfireStorage.KeyedSums

/-!
# The counters aggregator

One pass is one transaction. Its statements are kept apart, since other clients
insert counter rows between them.
-/

namespace HangfireStorage
namespace CountersAggregator

def numberOfRecordsInSinglePass : ℕ := 1000

def maxOfDateTimes : Option ℤ → Option ℤ → Option ℤ
  | none, b => b
  | some a, none => some a
  | some a, some b => some (if b < a then a else b)

@[simp] theorem maxOfDateTimes_none_right (a : Option ℤ) : maxOfDateTimes a none = a := by
  cases a <;> rfl

theorem maxOfDateTimes_some (a b : ℤ) : maxOfDateTimes (some a) (some b) = some (max a b) := by
  simp only [maxOfDateTimes,max_def]
  congr 1
  split_ifs <;> omega

theorem maxOfDateTimes_comm (a b : Option ℤ) : maxOfDateTimes a b = maxOfDateTimes b a := by
  cases a <;> cases b <;> simp [maxOfDateTimes_some,max_comm] <;> rfl

theorem maxOfDateTimes_assoc (a b c : Option ℤ) :
    maxOfDateTimes (maxOfDateTimes a b) c = maxOfDateTimes a (maxOfDateTimes b c) := by
  cases a with
  | none => rfl
  | some a =>
    cases b with
    | none => rfl
    | some b =>
      cases c with
      | none => simp
      | some c => simp only [maxOfDateTimes_some,max_assoc]

/-- LINQ's `Max` passes over nulls. -/
def maxExpireAt (counters : List CounterRow) : Option ℤ :=
  counters.foldl (fun m counter => maxOfDateTimes m counter.expireAt) none

/-- An entry of `countersByName`. -/
structure Item where
  key : String
  value : ℤ
  expireAt : Option ℤ
  deriving DecidableEq, Repr

def countersByName (counters : List CounterRow) : Except Fault (List Item) :=
  (groupBy CounterRow.key counters).mapM fun i =>
    (Int32.checkedSum 0 (i.2.map CounterRow.value)).map fun value => ⟨i.1,value,maxExpireAt i.2⟩

def changeAction (item : Item) (n : CounterRow) : CounterRow :=
  { n with
    expireAt := maxOfDateTimes n.expireAt item.expireAt
    value := Int32.wrap (n.value+item.value) }

def keysetAction (item : Item) (n : CounterRow) : CounterRow := { n with key := item.key }

def newEntity : CounterRow := ⟨0,"",0,none⟩

def upsertItem (t : Table CounterRow) (item : Item) : Except Fault (Table CounterRow) :=
  SqlUtil.upsertEntity (fun i => i.key = item.key) (changeAction item) (keysetAction item) newEntity t

/-- A whole pass; the order is that of the unordered `Take`. -/
def pass (o : RowOrder CounterRow) (db : Db) : Except Fault Db :=
  let counters := o.take numberOfRecordsInSinglePass db.counter.rows
  match countersByName counters with
  | .error f => .error f
  | .ok items =>
    (items.foldlM upsertItem db.aggregatedCounter).map fun t =>
      { db with
        aggregatedCounter := t
        counter := (SqlUtil.deleteByInt32Id (counters.map Row.id) db.counter).1 }

theorem pass_eq_ok {o : RowOrder CounterRow} {db db' : Db} (h : pass o db = .ok db') :
    ∃ items t, countersByName (o.take numberOfRecordsInSinglePass db.counter.rows) = .ok items ∧
      items.foldlM upsertItem db.aggregatedCounter = .ok t ∧
      db' = { db with
        aggregatedCounter := t
        counter := db.counter.delete fun r =>
          ((o.take numberOfRecordsInSinglePass db.counter.rows).map Row.id).contains (Row.id r) } := by
  simp only [pass,SqlUtil.deleteByInt32Id_eq] at h
  cases hi : countersByName (o.take numberOfRecordsInSinglePass db.counter.rows) with
  | error f => simp [hi] at h
  | ok items =>
    rw [hi] at h
    obtain ⟨t,ht,rfl⟩ := map_eq_ok h
    exact ⟨items,t,rfl,ht,rfl⟩

inductive Statement
  | find (item : Item)
  | save (item : Item) (entity : Option CounterRow)
  | delete (batch : List ℤ)
  deriving DecidableEq, Repr

/-- A pass in progress. Nobody else writes AggregatedCounter or deletes from Counter, so
its own view is the former table and the ids it has deleted from the latter. -/
structure Transaction where
  aggregatedCounter : Table CounterRow
  deleted : List ℤ
  pending : List Statement
  deriving DecidableEq

/-- The first query of a pass, which fixes the other statements. -/
def begin (o : RowOrder CounterRow) (db : Db) : Except Fault Transaction :=
  let counters := o.take numberOfRecordsInSinglePass db.counter.rows
  (countersByName counters).map fun items => ⟨db.aggregatedCounter,[],items.map .find ++
    (batches SqlUtil.deleteBatchSize (counters.map Row.id)).map .delete⟩

def Transaction.next (w : Transaction) : Except Fault Transaction :=
  match w.pending with
  | [] => .ok w
  | .find item::rest =>
    (SqlUtil.singleOrDefault (w.aggregatedCounter.rows.filter fun i => i.key = item.key)).map
      fun entity => { w with pending := .save item entity::rest }
  | .save item entity::rest => .ok { w with
      aggregatedCounter := SqlUtil.saveEntity (changeAction item) (keysetAction item) newEntity
        w.aggregatedCounter entity
      pending := rest }
  | .delete batch::rest => .ok { w with deleted := w.deleted ++ batch, pending := rest }

def Transaction.commit (w : Transaction) (db : Db) : Db :=
  { db with
    aggregatedCounter := w.aggregatedCounter
    counter := db.counter.delete fun i => w.deleted.contains (Row.id i) }

end CountersAggregator
end HangfireStorage
