import HangfireStorage.KeyIsolation

/-!
# Adding a range to a set

`AddRangeToSet` inserts where `AddToSet` upserts, so the two agree exactly on items that
are distinct and not in the set yet.
-/

namespace HangfireStorage
namespace SetRange

open JobStorageConnection Shelved WriteOnlyTransaction

/-- The unique key over Key and Value. -/
def UniqueItems (t : Table SetRow) : Prop :=
  t.rows.Pairwise fun a b => a.key = b.key → a.value ≠ b.value

instance (t : Table SetRow) : Decidable (UniqueItems t) :=
  inferInstanceAs (Decidable (t.rows.Pairwise _))

/-- The row that either command inserts for a new item. -/
def itemRow (key item : String) : SetRow := ⟨0,key,item,0,none⟩

def insertAll (key : String) (items : List String) (t : Table SetRow) : Table SetRow :=
  items.foldl (fun t i => t.insert (itemRow key i)) t

def Contains (key item : String) (t : Table SetRow) : Prop :=
  ∃ r ∈ t.rows, r.key = key ∧ r.value = item

section Inserts

variable {key : String} {t t' : Table SetRow} {items : List String}

theorem contains_insert {i j : String} :
    Contains key j (t.insert (itemRow key i)) ↔ Contains key j t ∨ i = j := by
  simp only [Contains,Table.rows_insert,List.mem_append,List.mem_singleton]
  constructor
  · rintro ⟨r,hr | rfl,hk,hv⟩
    · exact .inl ⟨r,hr,hk,hv⟩
    · exact .inr hv
  · rintro (⟨r,hr,hk,hv⟩ | rfl)
    · exact ⟨r,.inl hr,hk,hv⟩
    · exact ⟨_,.inr rfl,rfl,rfl⟩

theorem insertSet_eq {i : String} : insertSet (itemRow key i) t =
    if t.rows.any fun r => r.key = key && r.value = i then .error .uniqueKey
    else .ok (t.insert (itemRow key i)) := rfl

theorem any_eq_true {i : String} :
    (t.rows.any fun r => r.key = key && r.value = i) = true ↔ Contains key i t := by
  simp [Contains]

/-- Inserting the items one after the other succeeds only if none is there when it comes. -/
theorem foldlM_insertSet_eq_ok :
    items.foldlM (fun t i => insertSet (itemRow key i) t) t = .ok t' ↔
      items.Nodup ∧ (∀ i ∈ items, ¬ Contains key i t) ∧ t' = insertAll key items t := by
  induction items generalizing t with
  | nil => simp [insertAll,pure,Except.pure,eq_comm]
  | cons i items ih =>
    rw [List.foldlM_cons,insertSet_eq]
    by_cases hi : Contains key i t
    · rw [if_pos (any_eq_true.mpr hi)]
      constructor
      · intro h
        cases h
      · rintro ⟨-,hfresh,-⟩
        exact absurd hi (hfresh i (by simp))
    · rw [if_neg (mt any_eq_true.mp hi)]
      refine ih.trans ?_
      simp only [contains_insert,not_or,List.nodup_cons,List.mem_cons,forall_eq_or_imp,hi,
        not_false_eq_true,true_and,insertAll,List.foldl_cons]
      constructor
      · rintro ⟨hnd,hfresh,rfl⟩
        exact ⟨⟨fun hmem => (hfresh i hmem).2 rfl,hnd⟩,fun j hj => (hfresh j hj).1,rfl⟩
      · rintro ⟨⟨hnot,hnd⟩,hfresh,rfl⟩
        exact ⟨hnd,fun j hj => ⟨hfresh j hj,fun he => hnot (he ▸ hj)⟩,rfl⟩

theorem addToSet_of_not_contains {i : String} {db : Db} (h : ¬ Contains key i db.set) :
    addToSet key i 0 db = .ok { db with set := db.set.insert (itemRow key i) } := by
  have hnil : (db.set.rows.filter fun r => r.key = key && r.value = i) = [] := by
    refine List.filter_eq_nil_iff.mpr fun r hr hm => h ⟨r,hr,?_⟩
    simpa using hm
  rw [addToSet,SqlUtil.upsertEntity,hnil]
  rfl

/-- New items are inserted by `AddToSet` as well. -/
theorem commit_addToSet {ser : SerializationHelper} {now : ℤ} {db : Db} (hnd : items.Nodup)
    (hfresh : ∀ i ∈ items, ¬ Contains key i db.set) :
    commit ser (items.map fun i => (now,.addToSet key i 0)) db =
      .ok { db with set := insertAll key items db.set } := by
  induction items generalizing db with
  | nil => rfl
  | cons i items ih =>
    rw [List.nodup_cons] at hnd
    have hrun : run ser now db (.addToSet key i 0) =
        .ok { db with set := db.set.insert (itemRow key i) } :=
      addToSet_of_not_contains (hfresh i (by simp))
    rw [List.map_cons,commit,hrun]
    refine ih hnd.2 fun j hj => ?_
    rw [contains_insert,not_or]
    exact ⟨hfresh j (by simp [hj]),fun he => hnd.1 (he ▸ hj)⟩

theorem mem_insertAll {r : SetRow} (h : r ∈ (insertAll key items t).rows) :
    r ∈ t.rows ∨ r.key = key ∧ r.value ∈ items ∧ r.score = 0 := by
  induction items generalizing t with
  | nil => exact .inl h
  | cons i items ih =>
    rcases ih h with hr | ⟨hk,hv,hs⟩
    · rcases List.mem_append.mp hr with hr | hr
      · exact .inl hr
      · rw [List.mem_singleton.mp hr]
        exact .inr ⟨rfl,by simp [itemRow,Row.withId],rfl⟩
    · exact .inr ⟨hk,by simp [hv],hs⟩

theorem contains_insertAll {j : String} :
    Contains key j (insertAll key items t) ↔ Contains key j t ∨ j ∈ items := by
  induction items generalizing t with
  | nil => simp [insertAll]
  | cons i items ih =>
    refine (ih (t := t.insert (itemRow key i))).trans ?_
    rw [contains_insert,List.mem_cons,or_assoc,eq_comm (a := j)]

theorem uniqueItems_insertAll (hnd : items.Nodup) (hfresh : ∀ i ∈ items, ¬ Contains key i t)
    (h : UniqueItems t) : UniqueItems (insertAll key items t) := by
  induction items generalizing t with
  | nil => exact h
  | cons i items ih =>
    rw [List.nodup_cons] at hnd
    refine ih hnd.2 (fun j hj => ?_) ?_
    · rw [contains_insert,not_or]
      exact ⟨hfresh j (by simp [hj]),fun he => hnd.1 (he ▸ hj)⟩
    · refine List.pairwise_append.mpr ⟨h,by simp,fun a ha b hb hk hv => ?_⟩
      rw [List.mem_singleton.mp hb] at hk hv
      exact hfresh i (by simp) ⟨a,ha,hk,hv⟩

end Inserts

theorem mem_getAllItemsFromSet {key item : String} {db : Db} :
    item ∈ getAllItemsFromSet key db ↔ Contains key item db.set := by
  rw [getAllItemsFromSet_eq,List.mem_eraseDups]
  simp [Table.mem_entries,Contains,shelf,entry,and_assoc]

/-- What a committed `AddRangeToSet` owes to the readers of the set. -/
def BulkAgrees (ser : SerializationHelper) (now : ℤ) (key : String) (items : List String) (db : Db) :
    Prop :=
  ∃ db₁ db₂, commit ser [(now,.addRangeToSet key items)] db = .ok db₁ ∧
    commit ser (items.map fun i => (now,.addToSet key i 0)) db = .ok db₂ ∧
    (∀ (q : Query) o utcNow, q.read o utcNow db₁ = q.read o utcNow db₂) ∧
    (∀ item, item ∈ getAllItemsFromSet key db₁ ↔ item ∈ getAllItemsFromSet key db ∨ item ∈ items) ∧
    UniqueItems db₁.set ∧
    ∀ r ∈ db₁.set.rows, r.key = key → r.value ∈ items → r.score = 0

/-- The bulk form agrees exactly when the items are distinct and none is in the set. -/
theorem addRangeToSet_agrees_iff {ser : SerializationHelper} {now : ℤ} {key : String}
    {items : List String} {db : Db} (hdb : UniqueItems db.set) :
    BulkAgrees ser now key items db ↔
      items.Nodup ∧ ∀ item ∈ items, item ∉ getAllItemsFromSet key db := by
  have hrange (db₁ : Db) : commit ser [(now,.addRangeToSet key items)] db = .ok db₁ ↔
      ∃ t, items.foldlM (fun t i => insertSet (itemRow key i) t) db.set = .ok t ∧
        { db with set := t } = db₁ := by
    rw [commit_cons_eq_ok]
    constructor
    · rintro ⟨d,hrun,hd⟩
      cases hd
      exact map_eq_ok hrun
    · rintro ⟨t,ht,rfl⟩
      exact ⟨_,congrArg (Except.map fun t => ({ db with set := t } : Db)) ht,rfl⟩
  simp only [mem_getAllItemsFromSet]
  constructor
  · rintro ⟨db₁,-,h₁,-⟩
    obtain ⟨t,ht,-⟩ := (hrange db₁).mp h₁
    obtain ⟨hnd,hfresh,-⟩ := foldlM_insertSet_eq_ok.mp ht
    exact ⟨hnd,hfresh⟩
  · rintro ⟨hnd,hfresh⟩
    refine ⟨_,_,(hrange _).mpr ⟨_,foldlM_insertSet_eq_ok.mpr ⟨hnd,hfresh,rfl⟩,rfl⟩,
      commit_addToSet hnd hfresh,fun _ _ _ => rfl,fun item => ?_,uniqueItems_insertAll hnd hfresh hdb,
      fun r hr hk hv => ?_⟩
    · rw [mem_getAllItemsFromSet,mem_getAllItemsFromSet,contains_insertAll]
    · rcases mem_insertAll hr with hold | hnew
      · exact absurd ⟨r,hold,hk,rfl⟩ (hfresh _ hv)
      · exact hnew.2.2

section Runs

/-- A set with two members and another one. -/
def threeMembers : Db := { Db.empty with
  set := ((Table.empty.insert ⟨0,"s","a",1,none⟩).insert ⟨0,"s","b",2,none⟩).insert ⟨0,"t","c",0,none⟩ }

theorem addRangeToSet_agrees_two : BulkAgrees Json.helper 0 "s" ["c","d"] threeMembers ∧
    ¬ BulkAgrees Json.helper 0 "s" ["d","b"] threeMembers := by
  have hdb : UniqueItems threeMembers.set := by decide
  refine ⟨(addRangeToSet_agrees_iff hdb).mpr (by decide),fun h => ?_⟩
  exact ((addRangeToSet_agrees_iff hdb).mp h).2 "b" (by decide) (by decide)

/-- An item given twice aborts the transaction, and `AddToSet` would have taken it. -/
theorem addRangeToSet_repeated : ¬ BulkAgrees Json.helper 0 "s" ["a","a"] .empty ∧
    ∃ db, commit Json.helper [(0,.addToSet "s" "a" 0),(0,.addToSet "s" "a" 0)] .empty = .ok db ∧
      getAllItemsFromSet "s" db = ["a"] := by
  refine ⟨?_,_,rfl,by decide⟩
  rintro ⟨db₁,-,h,-⟩
  cases h

end Runs

end SetRange
end HangfireStorage
