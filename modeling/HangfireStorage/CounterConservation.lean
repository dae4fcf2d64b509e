import HangfireStorage.AggregationSystem
import HangfireStorage.JobStorageConnection

/-!
# Aggregation conserves every counter

The tally of a key over both counter tables is that of the commands committed for it, in
every state of every run. A pass in progress keeps the same account: what it has saved,
what it has still to save, and the rows that are none of its batch.
-/

namespace HangfireStorage

namespace CountersAggregator

def Statement.item? : Statement → Option Item
  | .find item => some item
  | .save item _ => some item
  | .delete _ => none

def Statement.ids : Statement → List ℤ
  | .delete batch => batch
  | _ => []

def Statement.isSave : Statement → Bool
  | .save _ _ => true
  | _ => false

def Transaction.items (w : Transaction) : List Item := w.pending.filterMap Statement.item?

def Transaction.batch (w : Transaction) : List ℤ := w.deleted ++ w.pending.flatMap Statement.ids

def Transaction.untouched (w : Transaction) (db : Db) : List CounterRow :=
  db.counter.rows.filter fun r => !w.batch.contains (Row.id r)

end CountersAggregator

namespace AggregationSystem

open CountersAggregator WriteOnlyTransaction JobStorageConnection Machine

/-- The account of a pass in progress, to end up with the tallies `τ`. -/
structure PassOk (τ : String → Tally) (db : Db) (w : Transaction) : Prop where
  total : ∀ key, tallyOf key w.aggregatedCounter.rows + itemTally key w.items +
    tallyOf key (w.untouched db) = τ key
  distinct : (w.aggregatedCounter.rows.map CounterRow.key).Nodup
  keys : ∀ key ∈ db.aggregatedCounter.rows.map CounterRow.key,
    key ∈ w.aggregatedCounter.rows.map CounterRow.key
  known : ∀ i ∈ w.batch, i < db.counter.nextId
  found : ∀ item entity rest, w.pending = .save item entity::rest →
    w.aggregatedCounter.rows.filter (fun i => i.key = item.key) = entity.toList
  rest : ∀ st ∈ w.pending.tail, st.isSave = false

/-- The account of the committed tables and of the pass, if there is one. -/
structure RunOk (τ : String → Tally) (s : AggregationState) : Prop where
  total : ∀ key, tallyOf key s.db.aggregatedCounter.rows + tallyOf key s.db.counter.rows = τ key
  distinct : (s.db.aggregatedCounter.rows.map CounterRow.key).Nodup
  pass : ∀ w, s.pass = some w → PassOk τ s.db w

section Statements

variable {τ : String → Tally} {db : Db} {w w' : Transaction}

theorem filterMap_find (items : List Item) :
    (items.map Statement.find).filterMap Statement.item? = items := by
  induction items with
  | nil => rfl
  | cons item items ih => simp [Statement.item?,ih]

theorem flatMap_delete (bs : List (List ℤ)) :
    (bs.map Statement.delete).flatMap Statement.ids = bs.flatten := by
  induction bs with
  | nil => rfl
  | cons b bs ih => simp [Statement.ids,ih]

theorem begin_ok {o : RowOrder CounterRow} (h : begin o db = .ok w)
    (ht : ∀ key, tallyOf key db.aggregatedCounter.rows + tallyOf key db.counter.rows = τ key)
    (hd : (db.aggregatedCounter.rows.map CounterRow.key).Nodup) : PassOk τ db w := by
  obtain ⟨items,hi,rfl⟩ := map_eq_ok h
  have hmem : ∀ r ∈ o.take numberOfRecordsInSinglePass db.counter.rows, r ∈ db.counter.rows :=
    fun r hr => RowOrder.mem_of_mem_take hr
  set counters := o.take numberOfRecordsInSinglePass db.counter.rows with hcounters
  have hbatch : Transaction.batch ⟨db.aggregatedCounter,[],items.map .find ++
      (batches SqlUtil.deleteBatchSize (counters.map Row.id)).map .delete⟩ = counters.map Row.id := by
    have hfind : (items.map Statement.find).flatMap Statement.ids = [] := by simp [Statement.ids]
    rw [Transaction.batch,List.flatMap_append,flatMap_delete,flatten_batches (by decide),hfind]
    rfl
  refine ⟨fun key => ?_,hd,fun key hk => hk,fun i hib => ?_,?_,?_⟩
  · have hitems : Transaction.items ⟨db.aggregatedCounter,[],items.map .find ++
        (batches SqlUtil.deleteBatchSize (counters.map Row.id)).map .delete⟩ = items := by
      have hdel : ∀ bs : List (List ℤ), (bs.map Statement.delete).filterMap Statement.item? = [] := by
        simp [Statement.item?]
      rw [Transaction.items,List.filterMap_append,filterMap_find,hdel,List.append_nil]
    have hperm : (db.counter.rows.filter fun r =>
        (counters.map Row.id).contains (Row.id r)).Perm counters :=
      Table.filter_ids_perm (o.take_nodup _ db.counter.nodup) hmem
    rw [hitems,itemTally_countersByName hi,Transaction.untouched,hbatch,add_assoc,← ht key]
    congr 1
    rw [tallyOf,← sumOf_perm hperm]
    exact sumOf_filter_add _ _
  · rw [hbatch] at hib
    obtain ⟨r,hr,rfl⟩ := List.mem_map.mp hib
    exact db.counter.fresh r (hmem r hr)
  · intro item entity rest hp
    cases items <;> cases hb : batches SqlUtil.deleteBatchSize (counters.map Row.id) <;> simp [hb] at hp
  · intro st hst
    have hst := List.mem_of_mem_tail hst
    simp only [List.mem_append,List.mem_map] at hst
    obtain ⟨item,-,rfl⟩ | ⟨b,-,rfl⟩ := hst <;> rfl

/-- A statement moves an item into the table or an id into the deleted ones, or only looks. -/
theorem next_ok (h : w.next = .ok w') (hok : PassOk τ db w)
    (hr : ∀ item entity rest, w.pending = .save item entity::rest →
      Int32.InRange (savedValue item entity)) : PassOk τ db w' := by
  obtain ⟨t,deleted,pending⟩ := w
  cases pending with
  | nil =>
    cases h
    exact hok
  | cons st rest =>
    have hrest : ∀ item entity rest', rest = .save item entity::rest' → False := by
      rintro item entity rest' rfl
      exact Bool.noConfusion (hok.rest _ (by simp) : (Statement.save item entity).isSave = false)
    have htail : ∀ st ∈ rest.tail, st.isSave = false := fun st hst =>
      hok.rest st (List.mem_of_mem_tail hst)
    cases st with
    | find item =>
      obtain ⟨entity,he,rfl⟩ := map_eq_ok h
      refine ⟨hok.total,hok.distinct,hok.keys,hok.known,?_,hok.rest⟩
      rintro item' entity' rest' hp
      cases hp
      exact SqlUtil.singleOrDefault_eq_ok he
    | save item entity =>
      cases h
      have hf := hok.found item entity rest rfl
      obtain ⟨hd,hk⟩ := saveEntity_keys hf hok.distinct
      refine ⟨fun key => ?_,hd,fun key hm => hk key (hok.keys key hm),hok.known,?_,htail⟩
      · have ht := hok.total key
        rw [show Transaction.items ⟨t,deleted,.save item entity::rest⟩ =
          item::Transaction.items ⟨t,deleted,rest⟩ from rfl,itemTally,sumOf_cons] at ht
        rw [tallyOf_saveEntity hf (hr item entity rest rfl),← ht,add_assoc (tallyOf key t.rows)]
        rfl
      · exact fun item' entity' rest' hp => (hrest _ _ _ hp).elim
    | delete batch =>
      cases h
      have hb : Transaction.batch ⟨t,deleted ++ batch,rest⟩ =
          Transaction.batch ⟨t,deleted,.delete batch::rest⟩ := by
        simp [Transaction.batch,Statement.ids]
      refine ⟨fun key => ?_,hok.distinct,hok.keys,hb ▸ hok.known,?_,htail⟩
      · rw [Transaction.untouched,hb]
        exact hok.total key
      · exact fun item' entity' rest' hp => (hrest _ _ _ hp).elim

end Statements

section Runs

variable {ser : SerializationHelper} {τ : String → Tally} {s : AggregationState}

/-- Once every statement has run, the commit makes the account of the pass that of the tables. -/
theorem commitPass_ok {t : Table CounterRow} {deleted : List ℤ}
    (hok : PassOk τ s.db ⟨t,deleted,[]⟩) : RunOk τ ⟨Transaction.commit ⟨t,deleted,[]⟩ s.db,none⟩ := by
  refine ⟨fun key => ?_,hok.distinct,by simp⟩
  have ht := hok.total key
  rw [show Transaction.items ⟨t,deleted,[]⟩ = [] from rfl,itemTally,sumOf_nil,add_zero,
    Transaction.untouched,Transaction.batch,List.flatMap_nil,List.append_nil] at ht
  exact ht

/-- Commits of other clients add to the account of the tables and of the pass alike. -/
theorem commit_ok {cmds : List (ℤ × WriteCommand)} {db : Db} (hok : RunOk τ s)
    (h : WriteOnlyTransaction.commit ser cmds s.db = .ok db) :
    RunOk (fun key => τ key + tallyOf key (cmds.filterMap counted)) { s with db := db } := by
  obtain ⟨rows,hrows,hids,hn,ht⟩ := commit_counter h
  have hagg := (commit_untouched h).1
  refine ⟨fun key => ?_,hagg ▸ hok.distinct,fun w hw => ?_⟩
  · rw [hagg,hrows,tallyOf_append,← ht key,← hok.total key,add_assoc]
  · have hp := hok.pass w hw
    have hu : w.untouched db = w.untouched s.db ++ rows := by
      have hnew : rows.filter (fun r => !w.batch.contains (Row.id r)) = rows := by
        refine List.filter_eq_self.mpr fun r hr => ?_
        have := hids r hr
        rw [Bool.not_eq_true',List.contains_eq_mem,decide_eq_false_iff_not]
        intro hb
        have := hp.known _ hb
        omega
      rw [Transaction.untouched,hrows,List.filter_append,hnew]
      rfl
    refine ⟨fun key => ?_,hp.distinct,hagg ▸ hp.keys,fun i hi => (hp.known i hi).trans_le hn,
      hp.found,hp.rest⟩
    rw [hu,tallyOf_append,← ht key,← hp.total key,add_assoc _ _ (tallyOf key rows)]

theorem runOk_step (hok : RunOk τ s) {a : Action} (hr : SumsInRange s a) :
    RunOk (fun key => τ key + tallyOf key ((committed [(step ser s a).2]).filterMap counted))
      (step ser s a).1 := by
  have hsame : RunOk (fun key => τ key + tallyOf key []) s := by simpa using hok
  have hnone : RunOk (fun key => τ key + tallyOf key []) { s with pass := none } :=
    ⟨hsame.total,hsame.distinct,by simp⟩
  obtain ⟨db,pass⟩ := s
  cases a with
  | commit cmds =>
    simp only [step]
    cases h : WriteOnlyTransaction.commit ser cmds db with
    | error f => exact hsame
    | ok db' =>
      have := commit_ok hok h
      simpa [committed] using this
  | beginPass o =>
    cases pass with
    | some w => exact hsame
    | none =>
      simp only [step]
      cases h : begin o db with
      | error f => exact hsame
      | ok w =>
        refine ⟨hsame.total,hsame.distinct,fun w' hw => ?_⟩
        cases hw
        exact begin_ok h hsame.total hsame.distinct
  | nextStatement =>
    cases pass with
    | none => exact hsame
    | some w =>
      simp only [step,Option.elim_some,nextStatement]
      cases h : w.next with
      | error f => exact hnone
      | ok w' =>
        refine ⟨hsame.total,hsame.distinct,fun w'' hw => ?_⟩
        cases hw
        refine next_ok h (hsame.pass w rfl) ?_
        obtain ⟨t,deleted,pending⟩ := w
        rintro item entity rest rfl
        exact hr
  | commitPass =>
    cases pass with
    | none => exact hsame
    | some w =>
      obtain ⟨t,deleted,pending⟩ := w
      cases pending with
      | nil => exact commitPass_ok (hsame.pass _ rfl)
      | cons st rest => exact hsame
  | abortPass => exact hnone

theorem runOk_exec (hok : RunOk τ s) {as : List Action} (hC : Along (step ser) SumsInRange s as) :
    RunOk (fun key => τ key + tallyOf key ((committed (trace (step ser) s as)).filterMap counted))
      (exec (step ser) s as) := by
  have h₀ : RunOk (fun key => τ key + tallyOf key ((committed []).filterMap counted)) s := by
    simpa using hok
  refine exec_trace_invariant
    (I := fun s es => RunOk (fun key => τ key + tallyOf key ((committed es).filterMap counted)) s)
    (fun s a es hI hC => ?_) hC h₀
  have hstep : RunOk _ (step ser s a).1 := runOk_step hI hC
  simpa [add_assoc] using hstep

end Runs

section Histories

def increments (key : String) (cmds : List (ℤ × WriteCommand)) : ℕ :=
  cmds.countP fun c => match c.2 with
    | .incrementCounter k _ => k = key
    | _ => false

def decrements (key : String) (cmds : List (ℤ × WriteCommand)) : ℕ :=
  cmds.countP fun c => match c.2 with
    | .decrementCounter k _ => k = key
    | _ => false

/-- The expiries given for a key, each counted from the time of its command. -/
def expiries (key : String) (cmds : List (ℤ × WriteCommand)) : List ℤ :=
  cmds.filterMap fun c => match c.2 with
    | .incrementCounter k span => if k = key then span.map (c.1 + ·) else none
    | .decrementCounter k span => if k = key then span.map (c.1 + ·) else none
    | _ => none

variable (key : String) (cmds : List (ℤ × WriteCommand))

theorem history_value : (tallyOf key (cmds.filterMap counted)).value =
    increments key cmds - decrements key cmds := by
  rw [tallyOf_value]
  induction cmds with
  | nil => rfl
  | cons c cmds ih =>
    obtain ⟨now,c⟩ := c
    cases c with
    | incrementCounter k span =>
      by_cases hk : k = key <;> simp_all [counted,increments,decrements]
      ring
    | decrementCounter k span =>
      by_cases hk : k = key <;> simp_all [counted,increments,decrements]
      ring
    | _ => exact ih

theorem history_expireAt :
    (tallyOf key (cmds.filterMap counted)).expireAt = (expiries key cmds).max? := by
  rw [tallyOf_expireAt]
  congr 1
  induction cmds with
  | nil => rfl
  | cons c cmds ih =>
    obtain ⟨now,c⟩ := c
    cases c with
    | incrementCounter k span | decrementCounter k span =>
      by_cases hk : k = key <;> simp_all [counted,expiries,List.filterMap_cons]
    | _ => exact ih

theorem history_present : (tallyOf key (cmds.filterMap counted)).present = true ↔
    0 < increments key cmds + decrements key cmds := by
  rw [tallyOf_present]
  induction cmds with
  | nil => simp [increments,decrements]
  | cons c cmds ih =>
    obtain ⟨now,c⟩ := c
    cases c with
    | incrementCounter k span | decrementCounter k span =>
      by_cases hk : k = key <;> simp_all [counted,increments,decrements]
    | _ => exact ih

end Histories

/-- What the counter tables owe to the commands committed so far. -/
structure Conserved (db : Db) (cmds : List (ℤ × WriteCommand)) : Prop where
  total : ∀ key, (valuesOf key db.counter).sum + (valuesOf key db.aggregatedCounter).sum =
    increments key cmds - decrements key cmds
  unique : (db.aggregatedCounter.rows.map CounterRow.key).Nodup
  expiry : ∀ key, valuesOf key db.counter = [] → ∀ r ∈ db.aggregatedCounter.rows, r.key = key →
    r.expireAt = (expiries key cmds).max?
  present : ∀ key, valuesOf key db.counter = [] → 0 < increments key cmds + decrements key cmds →
    ∃ r ∈ db.aggregatedCounter.rows, r.key = key

theorem tallyOf_of_valuesOf {key : String} {t : Table CounterRow} (h : valuesOf key t = []) :
    tallyOf key t.rows = 0 := by
  refine tallyOf_eq_zero fun r hr he => ?_
  have hmem : r.value ∈ valuesOf key t :=
    List.mem_map.mpr ⟨r,List.mem_filter.mpr ⟨hr,by simpa using he⟩,rfl⟩
  rw [h] at hmem
  simp at hmem

theorem RunOk.conserved {s : AggregationState} {cmds : List (ℤ × WriteCommand)}
    (h : RunOk (fun key => tallyOf key (cmds.filterMap counted)) s) : Conserved s.db cmds where
  total key := by
    rw [← history_value,← h.total key,Tally.value_add,tallyOf_value,tallyOf_value,add_comm]
    rfl
  unique := h.distinct
  expiry key hk r hr he := by
    subst he
    have ht := h.total r.key
    rw [tallyOf_of_valuesOf hk,add_zero,tallyOf_of_mem h.distinct hr] at ht
    rw [← history_expireAt,← ht]
    rfl
  present key hk hpos := by
    have ht := h.total key
    rw [tallyOf_of_valuesOf hk,add_zero] at ht
    rw [← tallyOf_present,ht,history_present]
    exact hpos

/-- From empty counter tables, every state of every run accounts for all commands committed
before it. -/
theorem counters_conserved {ser : SerializationHelper} {s : AggregationState} {as : List Action}
    (hs : s.pass = none) (hc : s.db.counter.rows = []) (ha : s.db.aggregatedCounter.rows = [])
    (hC : Along (step ser) SumsInRange s as) : ∀ pre, pre <+: as →
      Conserved (exec (step ser) s pre).db (committed (trace (step ser) s pre)) := by
  rintro pre ⟨post,rfl⟩
  have h₀ : RunOk (fun _ => 0) s := ⟨by simp [hc,ha],by simp [ha],by simp [hs]⟩
  have h := runOk_exec h₀ ((along_append pre post).mp hC).1
  simp only [zero_add] at h
  exact h.conserved

/-- A pass over two rows of a key, with a third row committed inside it. -/
def interleavedPass : List Action :=
  [.commit [(7,.incrementCounter "k" (some 5)),(8,.decrementCounter "k" none)],.beginPass .stored,
    .nextStatement,.commit [(9,.incrementCounter "k" (some 3))],.nextStatement,.nextStatement,
    .commitPass]

theorem counters_conserved_interleaved :
    Conserved (exec (step Json.helper) ⟨.empty,none⟩ interleavedPass).db
      (committed (trace (step Json.helper) ⟨.empty,none⟩ interleavedPass)) :=
  counters_conserved rfl rfl rfl (by decide) interleavedPass (List.prefix_refl _)

end AggregationSystem
end HangfireStorage
