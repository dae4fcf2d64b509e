import HangfireStorage.CounterTally
import HangfireStorage.Loops
import Mathlib.Algebra.Order.BigOperators.Group.List

/-!
# The loop of the counters aggregator

`removedCount` lives outside the loop, and a pass that finds no counters leaves it alone. So
the loop ends unless its last full pass happens to empty the table.
-/

namespace HangfireStorage
namespace CountersAggregator

open Loop

def countedPass (o : RowOrder CounterRow) (removedCount : ℕ) (db : Db) : Except Fault (ℕ × Db) :=
  let counters := o.take numberOfRecordsInSinglePass db.counter.rows
  (pass o db).map fun db' =>
    (if counters.isEmpty then removedCount
      else (SqlUtil.deleteByInt32Id (counters.map Row.id) db.counter).2,db')

/-- One round of the do/while loop; cancellation is not requested. -/
def round (o : RowOrder CounterRow) (s : ℕ × Db) : (ℕ × Db) × Option (Except Fault Unit) :=
  match countedPass o s.1 s.2 with
  | .error f => (s,some (.error f))
  | .ok s' => (s',if numberOfRecordsInSinglePass ≤ s'.1 then none else some (.ok ()))

/-- `Execute`, cut after `n` rounds. -/
def execute (n : ℕ) (os : ℕ → RowOrder CounterRow) (db : Db) :
    (ℕ × Db) × Option (Except Fault Unit) :=
  run round n os (0,db)

def SumsFit (os : ℕ → RowOrder CounterRow) (s : ℕ × Db) : Prop :=
  ∀ n s', run round n os s = (s',none) →
    ∃ items, countersByName ((os n).take numberOfRecordsInSinglePass s'.2.counter.rows) = .ok items

def Drains (os : ℕ → RowOrder CounterRow) (db : Db) : Prop :=
  ∃ n s, execute n os db = (s,some (.ok ())) ∧ s.2.counter.rows = []

section Passes

variable {o : RowOrder CounterRow} {os : ℕ → RowOrder CounterRow} {db : Db} {t : Table CounterRow}

theorem upsertItems_ok (items : List Item) (h : (t.rows.map CounterRow.key).Nodup) :
    ∃ t', items.foldlM upsertItem t = .ok t' ∧ (t'.rows.map CounterRow.key).Nodup := by
  induction items generalizing t with
  | nil => exact ⟨t,rfl,h⟩
  | cons item items ih =>
    have hs := SqlUtil.singleOrDefault_of_distinct (List.pairwise_map.mp h) item.key
    have hkeys := (saveEntity_keys (SqlUtil.singleOrDefault_eq_ok hs) h).1
    obtain ⟨t',ht,hd⟩ := ih hkeys
    refine ⟨t',?_,hd⟩
    rw [List.foldlM_cons,upsertItem,SqlUtil.upsertEntity,hs]
    exact ht

theorem length_take (o : RowOrder CounterRow) (n : ℕ) (l : List CounterRow) :
    (o.take n l).length = min n l.length := by
  rw [RowOrder.take,List.length_take,(o.perm l).length_eq]

/-- A pass takes as many rows as it can and deletes those it took. -/
theorem countedPass_ok (hk : (db.aggregatedCounter.rows.map CounterRow.key).Nodup)
    {items : List Item} (hi : countersByName (o.take numberOfRecordsInSinglePass db.counter.rows) =
      .ok items) (c : ℕ) :
    ∃ db', countedPass o c db = .ok
        (if db.counter.rows.length = 0 then c
          else min numberOfRecordsInSinglePass db.counter.rows.length,db') ∧
      db'.counter.rows.length = db.counter.rows.length - numberOfRecordsInSinglePass ∧
      (db'.aggregatedCounter.rows.map CounterRow.key).Nodup := by
  obtain ⟨t,ht,hd⟩ := upsertItems_ok items hk
  have hlen := length_take o numberOfRecordsInSinglePass db.counter.rows
  have hcount := (Table.filter_ids_perm (o.take_nodup numberOfRecordsInSinglePass db.counter.nodup)
    fun _ => RowOrder.mem_of_mem_take).length_eq
  have hsplit := List.length_eq_length_filter_add (l := db.counter.rows) fun r =>
    ((o.take numberOfRecordsInSinglePass db.counter.rows).map Row.id).contains (Row.id r)
  have hempty : (o.take numberOfRecordsInSinglePass db.counter.rows).isEmpty = true ↔
      db.counter.rows.length = 0 := by
    rw [List.isEmpty_iff,← List.length_eq_zero_iff,hlen]
    simp [numberOfRecordsInSinglePass]
  refine ⟨{ db with
      aggregatedCounter := t
      counter := db.counter.delete fun r =>
        ((o.take numberOfRecordsInSinglePass db.counter.rows).map Row.id).contains (Row.id r) },
    ?_,?_,hd⟩
  · simp only [countedPass,pass,hi,ht,SqlUtil.deleteByInt32Id_eq,Except.map]
    rw [List.countP_eq_length_filter,hcount,hlen]
    simp only [hempty]
  · rw [Table.rows_delete]
    omega

end Passes

section Rounds

variable {os : ℕ → RowOrder CounterRow} {s s' : ℕ × Db}

def countAfter (s : ℕ × Db) : ℕ :=
  if s.2.counter.rows.length = 0 then s.1
  else min numberOfRecordsInSinglePass s.2.counter.rows.length

/-- What a loop needs to go from round to round without an exception. -/
structure Running (os : ℕ → RowOrder CounterRow) (s : ℕ × Db) : Prop where
  distinct : (s.2.aggregatedCounter.rows.map CounterRow.key).Nodup
  fit : SumsFit os s

theorem Running.round_eq (h : Running os s) :
    ∃ db', round (os 0) s = ((countAfter s,db'),
      if numberOfRecordsInSinglePass ≤ countAfter s then none else some (.ok ())) ∧
      db'.counter.rows.length = s.2.counter.rows.length - numberOfRecordsInSinglePass ∧
      (db'.aggregatedCounter.rows.map CounterRow.key).Nodup := by
  obtain ⟨items,hi⟩ := h.fit 0 s rfl
  obtain ⟨db',hp,hlen,hd⟩ := countedPass_ok h.distinct hi s.1
  exact ⟨db',by simp [round,hp,countAfter],hlen,hd⟩

theorem Running.go (h : Running os s) (hr : round (os 0) s = (s',none)) :
    Running (later os) s' ∧ numberOfRecordsInSinglePass ≤ countAfter s ∧
      s'.2.counter.rows.length = s.2.counter.rows.length - numberOfRecordsInSinglePass := by
  obtain ⟨db',he,hlen,hd⟩ := h.round_eq
  by_cases hle : numberOfRecordsInSinglePass ≤ countAfter s
  · rw [he,if_pos hle] at hr
    cases hr
    refine ⟨⟨hd,fun n s'' hn => h.fit (n+1) s'' ?_⟩,hle,hlen⟩
    rw [← hn]
    exact run_of_go (by rw [he,if_pos hle]) n
  · rw [he,if_neg hle] at hr
    cases hr

theorem Running.stop (h : Running os s) {r : Except Fault Unit}
    (hr : round (os 0) s = (s',some r)) : r = .ok () ∧ countAfter s < numberOfRecordsInSinglePass ∧
      s'.2.counter.rows.length = s.2.counter.rows.length - numberOfRecordsInSinglePass := by
  obtain ⟨db',he,hlen,-⟩ := h.round_eq
  by_cases hle : numberOfRecordsInSinglePass ≤ countAfter s
  · rw [he,if_pos hle] at hr
    cases hr
  · rw [he,if_neg hle] at hr
    cases hr
    exact ⟨rfl,not_le.mp hle,hlen⟩

/-- The last round will find a part of a pass. -/
def Uneven (s : ℕ × Db) : Prop :=
  (s.2.counter.rows.length = 0 ∧ s.1 < numberOfRecordsInSinglePass) ∨
    ¬ numberOfRecordsInSinglePass ∣ s.2.counter.rows.length

theorem Running.go_uneven (h : Running os s) (hu : Uneven s) (hr : round (os 0) s = (s',none)) :
    (Running (later os) s' ∧ Uneven s') ∧ s'.2.counter.rows.length < s.2.counter.rows.length := by
  obtain ⟨h',hle,hlen⟩ := h.go hr
  unfold Uneven countAfter at *
  unfold numberOfRecordsInSinglePass at *
  split_ifs at hle <;> refine ⟨⟨h',?_⟩,?_⟩ <;> omega

/-- Full passes shrink an uneven table until the rest is taken. -/
theorem Running.drains (h : Running os s) (hu : Uneven s) :
    ∃ n s', run round n os s = (s',some (.ok ())) ∧ s'.2.counter.rows = [] := by
  obtain ⟨n,s',r,hn⟩ := run_ends (I := fun os s => Running os s ∧ Uneven s)
    (fun (_ : ℕ → RowOrder CounterRow) (s : ℕ × Db) => s.2.counter.rows.length)
    (fun os s s' hI hr => hI.1.go_uneven hI.2 hr) ⟨h,hu⟩
  obtain ⟨os',s₀,⟨h₀,hu₀⟩,hr⟩ := run_exit (I := fun os s => Running os s ∧ Uneven s)
    (fun os s s' hI hr => (hI.1.go_uneven hI.2 hr).1) ⟨h,hu⟩ hn
  obtain ⟨rfl,hlt,hlen⟩ := h₀.stop hr
  refine ⟨n,s',hn,List.length_eq_zero_iff.mp ?_⟩
  unfold Uneven countAfter at *
  unfold numberOfRecordsInSinglePass at *
  split_ifs at hlt <;> omega

/-- A number of full passes ends with a full one, after which the count never changes. -/
theorem Running.goesOn (h : Running os s)
    (hd : numberOfRecordsInSinglePass ∣ s.2.counter.rows.length)
    (hc : s.2.counter.rows.length = 0 → numberOfRecordsInSinglePass ≤ s.1) (n : ℕ) :
    (run round n os s).2 = none := by
  refine run_diverges (I := fun os s => Running os s ∧
    numberOfRecordsInSinglePass ∣ s.2.counter.rows.length ∧
      (s.2.counter.rows.length = 0 → numberOfRecordsInSinglePass ≤ s.1)) ?_ ⟨h,hd,hc⟩ n
  rintro os s ⟨h,hd,hc⟩
  have hle : numberOfRecordsInSinglePass ≤ countAfter s := by
    unfold countAfter
    unfold numberOfRecordsInSinglePass at *
    split_ifs <;> omega
  obtain ⟨db',he,-⟩ := h.round_eq
  rw [if_pos hle] at he
  obtain ⟨h',-,hlen⟩ := h.go he
  refine ⟨_,he,h',?_,fun _ => hle⟩
  rw [hlen]
  exact Nat.dvd_sub hd (dvd_refl _)

end Rounds

section Sums

theorem checkedSum_of_bounded {acc : ℤ} {xs : List ℤ}
    (h : acc.natAbs + (xs.map Int.natAbs).sum ≤ 2147483647) :
    Int32.checkedSum acc xs = .ok (acc + xs.sum) := by
  induction xs generalizing acc with
  | nil => simp [Int32.checkedSum]
  | cons x xs ih =>
    rw [List.map_cons,List.sum_cons] at h
    have hr : Int32.InRange (acc+x) := by
      constructor <;> omega
    rw [Int32.checkedSum,if_pos hr,ih (by omega),List.sum_cons,add_assoc]

theorem countersByName_of_bounded {rows : List CounterRow}
    (h : (rows.map fun r => r.value.natAbs).sum ≤ 2147483647) :
    ∃ items, countersByName rows = .ok items := by
  refine ⟨_,mapM_eq_ok (g := fun i => ⟨i.1,0 + (i.2.map CounterRow.value).sum,maxExpireAt i.2⟩)
    fun g hg => ?_⟩
  obtain ⟨key,-,rfl⟩ := List.mem_map.mp hg
  have hle : ((rows.filter fun r => r.key = key).map fun r => r.value.natAbs).sum ≤
      (rows.map fun r => r.value.natAbs).sum :=
    (List.filter_sublist.map _).sum_le_sum fun _ _ => Nat.zero_le _
  rw [checkedSum_of_bounded]
  · rfl
  · rw [List.map_map]
    exact (Nat.zero_add _).trans_le (hle.trans h)

theorem round_sublist {o : RowOrder CounterRow} {s s' : ℕ × Db} (h : round o s = (s',none)) :
    s'.2.counter.rows.Sublist s.2.counter.rows := by
  unfold round at h
  cases hp : countedPass o s.1 s.2 with
  | error f => simp [hp] at h
  | ok s₁ =>
    rw [hp] at h
    obtain rfl : s₁ = s' := (Prod.mk.inj h).1
    obtain ⟨db',hdb,rfl⟩ := map_eq_ok hp
    obtain ⟨-,-,-,-,rfl⟩ := pass_eq_ok hdb
    exact List.filter_sublist

/-- Rounds only delete counters, so sums fit if even all the absolute values do. -/
theorem sumsFit_of_bounded (os : ℕ → RowOrder CounterRow) {s : ℕ × Db}
    (h : (s.2.counter.rows.map fun r => r.value.natAbs).sum ≤ 2147483647) : SumsFit os s := by
  intro n s' hn
  have hsub : s'.2.counter.rows.Sublist s.2.counter.rows :=
    (run_invariant (I := fun _ s' => s'.2.counter.rows.Sublist s.2.counter.rows)
      (fun _ _ _ hI hr => (round_sublist hr).trans hI) (List.Sublist.refl _) hn).choose_spec
  refine countersByName_of_bounded (le_trans ?_ h)
  calc (((os n).take numberOfRecordsInSinglePass s'.2.counter.rows).map fun r =>
        r.value.natAbs).sum
      ≤ (((os n).arrange s'.2.counter.rows).map fun r => r.value.natAbs).sum :=
        ((List.take_sublist _ _).map _).sum_le_sum fun _ _ => Nat.zero_le _
    _ = (s'.2.counter.rows.map fun r => r.value.natAbs).sum :=
        (((os n).perm _).map _).sum_eq
    _ ≤ (s.2.counter.rows.map fun r => r.value.natAbs).sum :=
        (hsub.map _).sum_le_sum fun _ _ => Nat.zero_le _

end Sums

/-- With unique keys in AggregatedCounter and sums that fit, the loop ends with an empty Counter
table exactly if the table was empty or its size is no multiple of a pass. -/
theorem execute_drains_iff {os : ℕ → RowOrder CounterRow} {db : Db}
    (hk : (db.aggregatedCounter.rows.map CounterRow.key).Nodup) (hf : SumsFit os (0,db)) :
    Drains os db ↔
      db.counter.rows = [] ∨ ¬ numberOfRecordsInSinglePass ∣ db.counter.rows.length := by
  have h : Running os (0,db) := ⟨hk,hf⟩
  rw [← List.length_eq_zero_iff]
  constructor
  · rintro ⟨n,s,hn,-⟩
    by_contra hne
    rw [not_or,not_not] at hne
    have := h.goesOn hne.2 (fun he => absurd he hne.1) n
    rw [execute] at hn
    simp [hn] at this
  · exact fun hc => h.drains (hc.imp_left fun he => ⟨he,Nat.zero_lt_succ 999⟩)

def incremented : ℕ → Db
  | 0 => .empty
  | n+1 => { incremented n with
      counter := (incremented n).counter.insert ⟨0,"stats:succeeded",1,none⟩ }

@[simp] theorem aggregatedCounter_incremented (n : ℕ) :
    (incremented n).aggregatedCounter = .empty := by
  induction n with
  | zero => rfl
  | succ n ih => exact ih

@[simp] theorem length_incremented (n : ℕ) : (incremented n).counter.rows.length = n := by
  induction n with
  | zero => rfl
  | succ n ih => simp [incremented,ih]

theorem sum_incremented (n : ℕ) :
    ((incremented n).counter.rows.map fun r => r.value.natAbs).sum = n := by
  induction n with
  | zero => rfl
  | succ n ih => simpa [incremented,Row.withId] using ih

theorem sumsFit_incremented {n : ℕ} (hn : n ≤ 2147483647) :
    SumsFit (fun _ => .stored) (0,incremented n) :=
  sumsFit_of_bounded _ ((sum_incremented n).trans_le hn)

theorem execute_drains_2001 : Drains (fun _ => .stored) (incremented 2001) :=
  (execute_drains_iff (by simp) (sumsFit_incremented (by omega))).mpr
    (.inr (by rw [length_incremented,numberOfRecordsInSinglePass]; omega))

/-- The thousandth of a thousand counters goes with the first pass, whose count then keeps the
loop running over an empty table. -/
theorem execute_spins : ((incremented 1000).aggregatedCounter.rows.map CounterRow.key).Nodup ∧
    SumsFit (fun _ => .stored) (0,incremented 1000) ∧
    ∀ n, (execute n (fun _ => .stored) (incremented 1000)).2 = none := by
  have hk : ((incremented 1000).aggregatedCounter.rows.map CounterRow.key).Nodup := by simp
  have hf := sumsFit_incremented (n := 1000) (by omega)
  have h : Running (fun _ => .stored) (0,incremented 1000) := ⟨hk,hf⟩
  have hlen := length_incremented 1000
  refine ⟨hk,hf,h.goesOn (by rw [hlen,numberOfRecordsInSinglePass]) fun h₀ => ?_⟩
  rw [hlen] at h₀
  omega

end CountersAggregator
end HangfireStorage
