import HangfireStorage.CountersAggregator
import Mathlib.Tactic.Abel

/-!
# Tallies

What counter rows amount to, in a commutative monoid: their sum, their latest expiry, and
whether there are any. Commands, items and upserts are described by the tallies they add.
-/

namespace HangfireStorage

open CountersAggregator

@[ext] structure Tally where
  value : ℤ
  expireAt : Option ℤ
  present : Bool
  deriving DecidableEq, Repr

namespace Tally

instance : Zero Tally := ⟨0,none,false⟩

instance : Add Tally :=
  ⟨fun a b => ⟨a.value+b.value,maxOfDateTimes a.expireAt b.expireAt,a.present || b.present⟩⟩

instance : AddCommMonoid Tally where
  nsmul := nsmulRec
  add_assoc a b c :=
    Tally.ext (add_assoc _ _ _) (maxOfDateTimes_assoc _ _ _) (Bool.or_assoc _ _ _)
  zero_add a := Tally.ext (zero_add _) rfl rfl
  add_zero a := Tally.ext (add_zero _) (maxOfDateTimes_none_right _) (Bool.or_false _)
  add_comm a b := Tally.ext (add_comm _ _) (maxOfDateTimes_comm _ _) (Bool.or_comm _ _)

@[simp] theorem value_zero : (0 : Tally).value = 0 := rfl
@[simp] theorem expireAt_zero : (0 : Tally).expireAt = none := rfl
@[simp] theorem present_zero : (0 : Tally).present = false := rfl
@[simp] theorem value_add (a b : Tally) : (a+b).value = a.value+b.value := rfl
@[simp] theorem expireAt_add (a b : Tally) :
    (a+b).expireAt = maxOfDateTimes a.expireAt b.expireAt := rfl
@[simp] theorem present_add (a b : Tally) : (a+b).present = (a.present || b.present) := rfl

theorem value_sum (l : List Tally) : l.sum.value = (l.map value).sum := by
  induction l with
  | nil => rfl
  | cons a l ih => simp [ih]

theorem expireAt_sum (l : List Tally) : l.sum.expireAt = (l.filterMap expireAt).max? := by
  induction l with
  | nil => rfl
  | cons a l ih =>
    rw [List.sum_cons,expireAt_add,ih]
    cases ha : a.expireAt with
    | none => simp [ha,maxOfDateTimes]
    | some e =>
      rw [List.filterMap_cons_some ha,List.max?_cons]
      cases (l.filterMap expireAt).max? with
      | none => rfl
      | some m => exact maxOfDateTimes_some e m

theorem present_sum (l : List Tally) : l.sum.present = l.any present := by
  induction l with
  | nil => rfl
  | cons a l ih => simp [ih]

end Tally

def CounterRow.tally (r : CounterRow) : Tally := ⟨r.value,r.expireAt,true⟩

def CountersAggregator.Item.tally (i : Item) : Tally := ⟨i.value,i.expireAt,true⟩

/-- The tally of a key in counter rows. -/
def tallyOf (key : String) (rows : List CounterRow) : Tally :=
  sumOf CounterRow.key CounterRow.tally key rows

def itemTally (key : String) (items : List Item) : Tally := sumOf Item.key Item.tally key items

section Readings

variable {key : String} {rows : List CounterRow}

theorem tallyOf_value : (tallyOf key rows).value =
    ((rows.filter fun i => i.key = key).map CounterRow.value).sum := by
  rw [tallyOf,sumOf,Tally.value_sum,List.map_map]
  rfl

theorem tallyOf_expireAt : (tallyOf key rows).expireAt =
    ((rows.filter fun i => i.key = key).filterMap CounterRow.expireAt).max? := by
  rw [tallyOf,sumOf,Tally.expireAt_sum,List.filterMap_map]
  rfl

theorem tallyOf_present : (tallyOf key rows).present = true ↔ ∃ r ∈ rows, r.key = key := by
  simp [tallyOf,sumOf,Tally.present_sum,CounterRow.tally]

@[simp] theorem tallyOf_nil : tallyOf key [] = 0 := rfl
@[simp] theorem tallyOf_append (rows rows' : List CounterRow) :
    tallyOf key (rows ++ rows') = tallyOf key rows + tallyOf key rows' := sumOf_append _ _

theorem tallyOf_eq_zero (h : ∀ r ∈ rows, r.key ≠ key) : tallyOf key rows = 0 := sumOf_eq_zero h

theorem tallyOf_of_mem (h : (rows.map CounterRow.key).Nodup) {r : CounterRow} (hr : r ∈ rows) :
    tallyOf r.key rows = r.tally :=
  sumOf_of_pairwise (List.pairwise_map.mp h) hr

end Readings

section Grouping

theorem maxExpireAt_eq (rows : List CounterRow) :
    maxExpireAt rows = (rows.map CounterRow.tally).sum.expireAt := by
  have hfold : ∀ m, rows.foldl (fun m counter => maxOfDateTimes m counter.expireAt) m =
      maxOfDateTimes m (rows.map CounterRow.tally).sum.expireAt := by
    induction rows with
    | nil => exact fun m => (maxOfDateTimes_none_right m).symm
    | cons r rows ih =>
      intro m
      rw [List.foldl_cons,ih,maxOfDateTimes_assoc]
      rfl
  exact hfold none

/-- An item carries the tally of its group. -/
theorem item_tally {rows : List CounterRow} {value : ℤ} (h : rows ≠ [])
    (hv : Int32.checkedSum 0 (rows.map CounterRow.value) = .ok value) (key : String) :
    (Item.mk key value (maxExpireAt rows)).tally = (rows.map CounterRow.tally).sum := by
  refine Tally.ext ?_ (maxExpireAt_eq rows) ?_
  · rw [Tally.value_sum,List.map_map]
    exact (Int32.checkedSum_eq_ok hv).trans (zero_add _)
  · rw [Tally.present_sum,List.any_map]
    obtain ⟨r,hr⟩ := List.exists_mem_of_ne_nil _ h
    exact (List.any_eq_true.mpr ⟨r,hr,rfl⟩).symm

theorem itemTally_groups {groups : List (String × List CounterRow)} {items : List Item}
    (hne : ∀ g ∈ groups, g.2 ≠ [])
    (h : (groups.mapM fun i => (Int32.checkedSum 0 (i.2.map CounterRow.value)).map fun value =>
      Item.mk i.1 value (maxExpireAt i.2)) = .ok items) (key : String) :
    itemTally key items = sumOf Prod.fst (fun g => (g.2.map CounterRow.tally).sum) key groups := by
  induction groups generalizing items with
  | nil =>
    cases h
    rfl
  | cons g groups ih =>
    obtain ⟨item,items',hitem,hitems,rfl⟩ := mapM_cons_eq_ok.mp h
    obtain ⟨value,hv,rfl⟩ := map_eq_ok hitem
    rw [itemTally,sumOf_cons,sumOf_cons,item_tally (hne g (by simp)) hv]
    exact congrArg _ (ih (fun g hg => hne g (by simp [hg])) hitems)

/-- Grouping loses nothing. -/
theorem itemTally_countersByName {rows : List CounterRow} {items : List Item}
    (h : countersByName rows = .ok items) (key : String) : itemTally key items = tallyOf key rows := by
  rw [itemTally_groups (fun g hg => ?_) h,sumOf_groupBy]
  · rfl
  · obtain ⟨k,hk,rfl⟩ := List.mem_map.mp hg
    obtain ⟨r,hr,he⟩ := List.mem_map.mp (List.mem_eraseDups.mp hk)
    exact List.ne_nil_of_mem (List.mem_filter.mpr ⟨hr,by simpa using he⟩)

end Grouping

section Saving

variable {t : Table CounterRow} {item : Item} {entity : Option CounterRow}

/-- The value that the upsert of an item adds to. -/
def savedValue (item : Item) (entity : Option CounterRow) : ℤ :=
  (entity.elim 0 CounterRow.value) + item.value

theorem changeAction_tally (hr : Int32.InRange (savedValue item entity)) {e : CounterRow}
    (he : e.value = entity.elim 0 CounterRow.value) :
    (changeAction item e).tally = e.tally + item.tally := by
  refine Tally.ext ?_ rfl rfl
  simp only [CounterRow.tally,changeAction,Item.tally,Tally.value_add]
  rw [he]
  exact Int32.wrap_of_inRange hr

/-- The rows after an upsert: one more, or one of them changed in place. -/
theorem saveEntity_rows (h : t.rows.filter (fun i => i.key = item.key) = entity.toList) :
    (entity = none ∧ (∀ r ∈ t.rows, r.key ≠ item.key) ∧
      (SqlUtil.saveEntity (changeAction item) (keysetAction item) newEntity t entity).rows =
        t.rows ++ [Row.withId t.nextId (changeAction item (keysetAction item newEntity))]) ∨
    ∃ e l₁ l₂, entity = some e ∧ e.key = item.key ∧ t.rows = l₁ ++ e::l₂ ∧
      (SqlUtil.saveEntity (changeAction item) (keysetAction item) newEntity t entity).rows =
        l₁ ++ changeAction item e::l₂ := by
  cases entity with
  | none =>
    refine .inl ⟨rfl,fun r hr he => ?_,rfl⟩
    exact List.filter_eq_nil_iff.mp h r hr (by simpa using he)
  | some e =>
    have he : e ∈ t.rows.filter fun i => i.key = item.key := by simp [h]
    obtain ⟨hmem,hkey⟩ := List.mem_filter.mp he
    obtain ⟨l₁,l₂,hl,hput⟩ := Table.rows_put_of_mem (changeAction item e) hmem rfl
    exact .inr ⟨e,l₁,l₂,rfl,by simpa using hkey,hl,hput⟩

/-- An upsert adds the tally of its item. -/
theorem tallyOf_saveEntity (h : t.rows.filter (fun i => i.key = item.key) = entity.toList)
    (hr : Int32.InRange (savedValue item entity)) (key : String) :
    tallyOf key (SqlUtil.saveEntity (changeAction item) (keysetAction item) newEntity t entity).rows =
      tallyOf key t.rows + if item.key = key then item.tally else 0 := by
  obtain ⟨rfl,-,hrows⟩ | ⟨e,l₁,l₂,rfl,hkey,hl,hrows⟩ := saveEntity_rows h
  · have hnew : (Row.withId t.nextId (changeAction item (keysetAction item newEntity))).tally =
        item.tally := by
      have := changeAction_tally hr (e := keysetAction item newEntity) rfl
      rw [show (keysetAction item newEntity).tally = ⟨0,none,true⟩ from rfl] at this
      refine this.trans (Tally.ext (zero_add _) rfl rfl)
    rw [hrows,tallyOf,sumOf_append,sumOf_cons,hnew]
    simp [tallyOf,Row.withId,changeAction,keysetAction]
    rfl
  · rw [hrows,hl,tallyOf,tallyOf,sumOf_append,sumOf_append,sumOf_cons,sumOf_cons,
      changeAction_tally hr rfl,show (changeAction item e).key = e.key from rfl,hkey]
    split_ifs <;> abel

/-- An upsert keeps keys distinct and removes none. -/
theorem saveEntity_keys (h : t.rows.filter (fun i => i.key = item.key) = entity.toList)
    (hd : (t.rows.map CounterRow.key).Nodup) :
    ((SqlUtil.saveEntity (changeAction item) (keysetAction item) newEntity t entity).rows.map
      CounterRow.key).Nodup ∧
    ∀ key ∈ t.rows.map CounterRow.key, key ∈ (SqlUtil.saveEntity (changeAction item)
      (keysetAction item) newEntity t entity).rows.map CounterRow.key := by
  obtain ⟨rfl,hne,hrows⟩ | ⟨e,l₁,l₂,rfl,hkey,hl,hrows⟩ := saveEntity_rows h
  · rw [hrows,List.map_append,List.nodup_append]
    refine ⟨⟨hd,by simp,?_⟩,fun key hk => List.mem_append_left _ hk⟩
    intro a ha b hb
    obtain ⟨r,hr,rfl⟩ := List.mem_map.mp ha
    obtain rfl : b = item.key := by simpa [Row.withId,changeAction,keysetAction] using hb
    exact hne r hr
  · have hkeys : (l₁ ++ changeAction item e::l₂).map CounterRow.key = t.rows.map CounterRow.key := by
      rw [hl]
      simp [changeAction]
    rw [hrows,hkeys]
    exact ⟨hd,fun key hk => hk⟩

end Saving

end HangfireStorage
