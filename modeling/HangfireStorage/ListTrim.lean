import HangfireStorage.JobStorageConnection

/-!
# Trimming and reading lists

Trimming counts positions from the oldest item, reading from the newest.
-/

namespace HangfireStorage
namespace ListTrim

open WriteOnlyTransaction JobStorageConnection

def rowsOf (key : String) (t : Table ListRow) : List ListRow := t.rows.filter fun i => i.key = key

theorem getAllItemsFromList_eq (key : String) (db : Db) :
    getAllItemsFromList key db = ((rowsOf key db.list).map ListRow.value).reverse := by
  rw [getAllItemsFromList,orderByDescendingId_rows,List.filter_reverse,List.map_reverse]
  rfl

theorem mem_trimmedIds {key : String} {a b k : ℤ} {t : Table ListRow}
    (h : k ∈ trimmedIds key a b t) : ∃ r ∈ rowsOf key t, r.id = k := by
  obtain ⟨i,hi,rfl⟩ := List.mem_map.mp h
  have hmem := List.fst_mem_of_mem_zipIdx (List.mem_of_mem_filter hi)
  rw [orderById_rows] at hmem
  exact ⟨i.1,hmem,rfl⟩

theorem rowsOf_delete (key : String) (p : ListRow → Bool) (t : Table ListRow) :
    rowsOf key (t.delete p) = (rowsOf key t).filter fun r => !p r := by
  simp only [rowsOf,Table.rows_delete,List.filter_filter,Bool.and_comm]

theorem trimList_list (key : String) (a b : ℤ) (db : Db) :
    (trimList key a b db).list =
      db.list.delete fun r => (trimmedIds key a b db.list).contains (Row.id r) := by
  rw [trimList,SqlUtil.deleteByInt32Id_eq]

theorem rowsOf_trimList {key : String} {a b : ℕ} (hab : a ≤ b) (db : Db) :
    rowsOf key (trimList key a b db).list = positions a b (rowsOf key db.list) := by
  have hids : (rowsOf key db.list).Pairwise fun r r' => Row.id r ≠ Row.id r' :=
    (db.list.sorted.filter _).imp fun h => h.ne
  rw [trimList_list,rowsOf_delete,← filter_zipIdx_positions hab,← filter_not_mem_zipIdx hids]
  simp only [trimmedIds,orderById_rows,List.contains_eq_mem,Nat.cast_lt]
  rfl

theorem rowsOf_trimList_of_ne {key k : String} (hk : k ≠ key) (a b : ℤ) (db : Db) :
    rowsOf k (trimList key a b db).list = rowsOf k db.list := by
  rw [trimList_list,rowsOf_delete,List.filter_eq_self]
  intro r hr
  rw [Bool.not_eq_true',List.contains_eq_mem,decide_eq_false_iff_not]
  intro hmem
  obtain ⟨r',hr',hid⟩ := mem_trimmedIds hmem
  simp only [rowsOf,List.mem_filter,decide_eq_true_eq] at hr hr'
  rw [Table.eq_of_id hr.1 hr'.1 hid.symm,hr'.2] at hr
  exact hk hr.2.symm

/-- What a committed trim owes to the readers of the lists. -/
def TrimAgrees (ser : SerializationHelper) (now : ℤ) (key : String) (a b : ℕ) (db : Db) : Prop :=
  ∃ db', commit ser [(now,.trimList key a b)] db = .ok db' ∧
    getAllItemsFromList key db' = positions a b (getAllItemsFromList key db) ∧
    ∀ k, k ≠ key → getAllItemsFromList k db' = getAllItemsFromList k db

/-- The kept positions, read from the other end, hold the same items. -/
def SymmetricAt (a b : ℕ) (items : List (Option String)) : Prop :=
  ∀ i, a+i ≤ b → a+i < items.length → items[a+i]? = items[items.length-(b+1)+i]?

section Agreement

variable {ser : SerializationHelper} {now : ℤ} {key : String} {a b : ℕ} {db : Db}

theorem getAllItemsFromList_trimList (hab : a ≤ b) :
    getAllItemsFromList key (trimList key a b db) =
      (positions a b (getAllItemsFromList key db).reverse).reverse := by
  rw [getAllItemsFromList_eq,getAllItemsFromList_eq,rowsOf_trimList hab,List.reverse_reverse,
    positions,positions,List.map_drop,List.map_take]

theorem positions_reverse_iff (items : List (Option String)) :
    (positions a b items.reverse).reverse = positions a b items ↔ SymmetricAt a b items := by
  rw [positions_reverse,List.ext_getElem?_iff]
  constructor
  · intro h i hb hn
    have hi := h i
    rw [getElem?_positions _ hb,List.getElem?_take_of_lt (by omega),List.getElem?_drop] at hi
    exact hi.symm
  · intro h i
    by_cases hi : a+i ≤ b ∧ a+i < items.length
    · rw [getElem?_positions _ hi.1,List.getElem?_take_of_lt (by omega),List.getElem?_drop]
      exact (h i hi.1 hi.2).symm
    · rw [List.getElem?_eq_none (by simp; omega),List.getElem?_eq_none (by simp; omega)]

/-- Trimming agrees with reading exactly on the lists that look the same from both ends. -/
theorem trimList_agrees_iff (hab : a ≤ b) :
    TrimAgrees ser now key a b db ↔ SymmetricAt a b (getAllItemsFromList key db) := by
  have hcommit : commit ser [(now,.trimList key a b)] db = .ok (trimList key a b db) := rfl
  rw [← positions_reverse_iff,← getAllItemsFromList_trimList hab]
  constructor
  · rintro ⟨db',h,hkey,-⟩
    rw [hcommit] at h
    cases h
    exact hkey
  · intro h
    refine ⟨_,hcommit,h,fun k hk => ?_⟩
    rw [getAllItemsFromList_eq,getAllItemsFromList_eq,rowsOf_trimList_of_ne hk]

/-- Where no item repeats, the kept range must sit in the middle or beyond the end. -/
theorem symmetricAt_of_nodup {items : List (Option String)} (hn : items.Nodup) (hab : a ≤ b) :
    SymmetricAt a b items ↔ items.length ≤ a ∨ items.length-(b+1) = a := by
  constructor
  · intro h
    rcases Nat.lt_or_ge a items.length with hlt | hge
    · right
      exact ((List.getElem?_inj hlt hn).mp (h 0 hab hlt)).symm
    · exact .inl hge
  · rintro (hle | heq) i hb hlt
    · omega
    · rw [heq]

end Agreement

section Runs

def listOf (items : List String) : Db :=
  items.foldl (fun db i => insertToList "list" (some i) db) .empty

theorem trimList_agrees_middle : TrimAgrees Json.helper 0 "list" 1 2 (listOf ["0","1","2","3"]) :=
  (trimList_agrees_iff (by decide)).mpr ((symmetricAt_of_nodup (by decide) (by decide)).mpr (by decide))

/-- Keeping the newest of two items keeps the oldest. -/
theorem trimList_keeps_oldest : ¬ TrimAgrees Json.helper 0 "list" 0 0 (listOf ["old","new"]) := by
  rintro ⟨db',h,hkey,-⟩
  cases h
  exact absurd hkey (by decide)

end Runs

end ListTrim
end HangfireStorage
