import HangfireStorage.CounterTally
import HangfireStorage.Machine
import HangfireStorage.WriteOnlyTransaction

/-!
# Aggregation among other clients

One aggregator, whose pass advances statement by statement, and clients that commit write
transactions between any two of its statements.
-/

namespace HangfireStorage
namespace AggregationSystem

open CountersAggregator WriteOnlyTransaction Machine

/-- The committed database and the pass in progress. -/
structure AggregationState where
  db : Db
  pass : Option Transaction
  deriving DecidableEq

inductive Action
  | commit (cmds : List (ℤ × WriteCommand))
  | beginPass (o : RowOrder CounterRow)
  | nextStatement
  | commitPass
  | abortPass

inductive Event
  | silent
  | failed (f : Fault)
  | committed (cmds : List (ℤ × WriteCommand))
  | passed
  deriving DecidableEq

/-- A statement that throws rolls the pass back. -/
def nextStatement (s : AggregationState) (w : Transaction) : AggregationState × Event :=
  match w.next with
  | .error f => ({ s with pass := none },.failed f)
  | .ok w' => ({ s with pass := some w' },.silent)

def step (ser : SerializationHelper) (s : AggregationState) : Action → AggregationState × Event
  | .commit cmds =>
    match WriteOnlyTransaction.commit ser cmds s.db with
    | .error f => (s,.failed f)
    | .ok db => ({ s with db := db },.committed cmds)
  | .beginPass o =>
    match s.pass with
    | some _ => (s,.silent)
    | none =>
      match begin o s.db with
      | .error f => (s,.failed f)
      | .ok w => ({ s with pass := some w },.silent)
  | .nextStatement => s.pass.elim (s,.silent) (nextStatement s)
  | .commitPass =>
    match s.pass with
    | some ⟨t,deleted,[]⟩ => (⟨Transaction.commit ⟨t,deleted,[]⟩ s.db,none⟩,.passed)
    | _ => (s,.silent)
  | .abortPass => ({ s with pass := none },.silent)

/-- The commands of all commits shown so far. -/
def committed (es : List Event) : List (ℤ × WriteCommand) :=
  es.flatMap fun e => match e with
    | .committed cmds => cmds
    | _ => []

@[simp] theorem committed_nil : committed [] = [] := rfl
@[simp] theorem committed_append (es es' : List Event) :
    committed (es ++ es') = committed es ++ committed es' := by simp [committed]

/-- The sum that the next statement of the pass writes, if it writes one, is an Int32. -/
def SumsInRange (s : AggregationState) (a : Action) : Prop :=
  match a, s.pass with
  | .nextStatement, some ⟨_,_,.save item entity::_⟩ => Int32.InRange (savedValue item entity)
  | _, _ => True

instance (s : AggregationState) (a : Action) : Decidable (SumsInRange s a) := by
  unfold SumsInRange
  split <;> infer_instance

section Commits

variable {ser : SerializationHelper}

/-- A commit appends counter rows, and their tallies are those of its commands. -/
theorem commit_counter {cmds : List (ℤ × WriteCommand)} {db db' : Db}
    (h : WriteOnlyTransaction.commit ser cmds db = .ok db') :
    ∃ rows, db'.counter.rows = db.counter.rows ++ rows ∧ (∀ r ∈ rows, db.counter.nextId ≤ Row.id r) ∧
      db.counter.nextId ≤ db'.counter.nextId ∧
      ∀ key, tallyOf key rows = tallyOf key (cmds.filterMap counted) := by
  induction cmds generalizing db with
  | nil =>
    cases h
    exact ⟨[],by simp,by simp,le_rfl,fun _ => rfl⟩
  | cons c cs ih =>
    simp only [WriteOnlyTransaction.commit] at h
    cases hr : run ser c.1 db c.2 with
    | error f => simp [hr] at h
    | ok db₁ =>
      rw [hr] at h
      obtain ⟨rows,hrows,hids,hn,ht⟩ := ih h
      obtain ⟨-,-,hc⟩ := run_counter hr
      cases hcount : counted c with
      | none =>
        rw [show counted (c.1,c.2) = none from hcount,Option.elim_none] at hc
        rw [hc] at hrows hids hn
        exact ⟨rows,hrows,hids,hn,by simpa [hcount] using ht⟩
      | some r =>
        rw [show counted (c.1,c.2) = some r from hcount,Option.elim_some] at hc
        rw [hc] at hrows hids hn
        rw [Table.nextId_insert] at hids hn
        refine ⟨Row.withId db.counter.nextId r::rows,by simp [hrows],?_,by omega,fun key => ?_⟩
        · intro a ha
          rcases List.mem_cons.mp ha with rfl | ha
          · rw [Row.id_withId]
          · have := hids a ha
            omega
        · rw [List.filterMap_cons_some hcount,tallyOf,tallyOf,sumOf_cons,sumOf_cons]
          exact congrArg₂ _ rfl (ht key)

end Commits

section Passes

variable {db db' : Db} {t t' : Table CounterRow}

theorem exec_saves (ser : SerializationHelper) (db : Db) {items : List Item}
    (h : items.foldlM upsertItem t = .ok t') (deleted : List ℤ) (rest : List Statement) :
    ∃ n, exec (step ser) ⟨db,some ⟨t,deleted,items.map .find ++ rest⟩⟩
      (List.replicate n .nextStatement) = ⟨db,some ⟨t',deleted,rest⟩⟩ := by
  induction items generalizing t with
  | nil =>
    cases h
    exact ⟨0,rfl⟩
  | cons item items ih =>
    obtain ⟨t₁,hu,hrest⟩ := foldlM_cons_eq_ok.mp h
    obtain ⟨n,hn⟩ := ih hrest
    obtain ⟨entity,he,rfl⟩ := map_eq_ok hu
    refine ⟨n+2,?_⟩
    rw [List.replicate_succ,List.replicate_succ,exec_cons,exec_cons]
    simpa [step,nextStatement,Transaction.next,he,Except.map] using hn

theorem exec_deletes {ser : SerializationHelper} (batches : List (List ℤ)) (deleted : List ℤ) :
    exec (step ser) ⟨db,some ⟨t,deleted,batches.map .delete⟩⟩
      (List.replicate batches.length .nextStatement) =
        ⟨db,some ⟨t,deleted ++ batches.flatten,[]⟩⟩ := by
  induction batches generalizing deleted with
  | nil => simp
  | cons b batches ih =>
    rw [List.length_cons,List.replicate_succ,exec_cons]
    simpa [step,nextStatement,Transaction.next] using ih (deleted ++ b)

/-- With nobody in between, the statements of a pass amount to the pass. -/
theorem exec_pass (ser : SerializationHelper) {o : RowOrder CounterRow} (h : pass o db = .ok db') :
    ∃ n, exec (step ser) ⟨db,none⟩ (.beginPass o::(List.replicate n .nextStatement ++ [.commitPass])) =
      ⟨db',none⟩ := by
  obtain ⟨items,t,hi,ht,rfl⟩ := pass_eq_ok h
  obtain ⟨n,hn⟩ := exec_saves ser db ht []
    ((batches SqlUtil.deleteBatchSize
      ((o.take numberOfRecordsInSinglePass db.counter.rows).map Row.id)).map .delete)
  refine ⟨n+(batches SqlUtil.deleteBatchSize
    ((o.take numberOfRecordsInSinglePass db.counter.rows).map Row.id)).length,?_⟩
  have hb : (step ser ⟨db,none⟩ (.beginPass o)).1 = ⟨db,some ⟨db.aggregatedCounter,[],
      items.map .find ++ (batches SqlUtil.deleteBatchSize
        ((o.take numberOfRecordsInSinglePass db.counter.rows).map Row.id)).map .delete⟩⟩ := by
    simp [step,begin,hi,Except.map]
  rw [exec_cons,hb,exec_append,List.replicate_add,exec_append,hn,exec_deletes,List.nil_append,
    flatten_batches (by decide)]
  rfl

end Passes

end AggregationSystem
end HangfireStorage
