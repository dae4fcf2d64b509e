import HangfireStorage.CollectionEffects

/-!
# The connection's reads of one collection

Every read is a function of the content of one place, up to the order in which the
database returns rows that the query does not order.
-/

namespace HangfireStorage

open JobStorageConnection Shelved WriteOnlyTransaction

/-- The lifetime that a collection with the given entries reports. -/
def Collections.ttl {ι : Type} (utcNow : ℤ) (l : List (Entry ι)) : ℤ :=
  match (l.filterMap Entry.expireAt).min? with
  | none => minusOneSecond
  | some e => e - utcNow

section Entries

variable (key : String) (db : Db)

theorem getTtl_eq {ρ ι : Type} [Row ρ] [ExpirableWithKey ρ] [CollectionRow ρ ι] (utcNow : ℤ)
    (t : Table ρ) : getTtl key utcNow t = Collections.ttl utcNow (t.entries key) := by
  have hcomp : (fun r : ρ => (entry r).expireAt) = Expirable.expireAt := by
    funext r
    exact CollectionRow.expireAt_entry r
  have hexp : (t.entries key).filterMap Entry.expireAt =
      (t.rows.filter fun r => ExpirableWithKey.key r = key).filterMap Expirable.expireAt := by
    rw [Table.entries,List.filterMap_map,Function.comp_def,hcomp]
    simp only [Table.onShelf,CollectionRow.shelf_eq]
  rewrite [Collections.ttl,hexp]
  rfl

theorem getSetCount_eq : getSetCount key db = (db.set.entries key).length := by
  rw [getSetCount,List.countP_eq_length_filter,Table.entries,List.length_map]
  rfl

theorem getRangeFromSet_eq (a b : ℤ) :
    getRangeFromSet key a b db = (slice a b (db.set.entries key)).map fun e => e.item.1 := by
  rw [getRangeFromSet,orderById_rows,slice,slice,Table.entries,← List.map_drop,← List.map_take,
    List.map_map]
  rfl

theorem orderById_filter {ρ : Type} [Row ρ] (t : Table ρ) (p : ρ → Bool) :
    orderById (t.rows.filter p) = t.rows.filter p :=
  List.Pairwise.insertionSort_eq ((t.sorted.filter p).imp fun h => h.le)

theorem getAllItemsFromSet_eq :
    getAllItemsFromSet key db = ((db.set.entries key).map fun e => e.item.1).eraseDups := by
  rw [getAllItemsFromSet,orderById_filter,Table.entries,List.map_map]
  rfl

theorem getHashCount_eq : getHashCount key db = (db.hash.entries key).length := by
  rw [getHashCount,List.countP_eq_length_filter,Table.entries,List.length_map]
  rfl

theorem getValueFromHash_eq (name : String) :
    getValueFromHash key name db = (SqlUtil.singleOrDefault
      (((db.hash.entries key).filter fun e => e.item.1 = name).map fun e => e.item.2)).map
        Option.join := by
  rw [getValueFromHash,Table.entries,Table.onShelf,List.filter_map,List.map_map,List.filter_filter]
  simp only [Bool.and_comm]
  rfl

theorem getListCount_eq : getListCount key db = (db.list.entries key).length := by
  rw [getListCount,List.countP_eq_length_filter,Table.entries,List.length_map]
  rfl

theorem getAllItemsFromList_entries :
    getAllItemsFromList key db = ((db.list.entries key).map Entry.item).reverse := by
  rw [getAllItemsFromList,orderByDescendingId_rows,List.filter_reverse,List.map_reverse,Table.entries,
    List.map_map]
  rfl

theorem getRangeFromList_eq (a b : ℤ) :
    getRangeFromList key a b db = slice a b (getAllItemsFromList key db) := rfl

/-- What the query that orders by score makes of the rows it is given. -/
theorem map_orderByScore (rows : List SetRow) :
    (orderByScore SetRow.score rows).map SetRow.value =
      (orderByScore (fun e : Entry (String × ℚ) => e.item.2) (rows.map entry)).map fun e => e.item.1 := by
  have hsort : (orderByScore SetRow.score rows).map entry =
      orderByScore (fun e : Entry (String × ℚ) => e.item.2) (rows.map entry) :=
    List.map_insertionSort _ _ _ _ fun _ _ _ _ => Iff.rfl
  rw [← hsort,List.map_map]
  rfl

end Entries
end HangfireStorage
