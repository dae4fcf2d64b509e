import HangfireStorage.Collections
import HangfireStorage.JobEffects

/-!
# The write commands refine the commands on collections

One lemma for each table operation, then one square for each command.
-/

namespace HangfireStorage

open Shelved WriteOnlyTransaction

section Operations

variable {ρ κ ε : Type} [Row ρ] [Shelved ρ κ ε] [DecidableEq κ] {k : κ}

theorem actsOn_insert {r : ρ} (hr : shelf r = k) :
    ActsOn k (fun t => .ok (t.insert r)) fun l => .ok (l ++ [entry r]) := by
  refine actsOn_pure (fun t => ?_) fun t k' hk => ?_
  · rw [Table.entries_insert,if_pos hr]
  · rw [Table.onShelf_insert,if_neg fun h => hk (h.symm.trans hr),List.append_nil]

theorem actsOn_delete {p : ρ → Bool} {q : ε → Bool}
    (h : ∀ r, p r = (decide (shelf r = k) && q (entry r))) :
    ActsOn k (fun t => .ok (t.delete p)) fun l => .ok (l.filter fun e => !q e) := by
  refine actsOn_pure (fun t => ?_) fun t k' hk => ?_
  · refine Table.entries_delete fun r hr => ?_
    rw [h,decide_eq_true (Table.mem_onShelf.mp hr).2,Bool.true_and]
  · refine Table.onShelf_delete_of_ne fun r hr => ?_
    rw [h,decide_eq_false fun h => hk ((Table.mem_onShelf.mp hr).2.symm.trans h),Bool.false_and]

end Operations

section Keyed

variable {ρ ι : Type} [Row ρ] [ExpirableWithKey ρ] [CollectionRow ρ ι] (key : String)

theorem actsOn_setExpireAt (e : Option ℤ) :
    ActsOn (ρ := ρ) key (fun t => .ok (setExpireAt key e t)) fun l => .ok (Collections.expire e l) := by
  have hs (r : ρ) : shelf (if ExpirableWithKey.key r = key then
      (Expirable.withExpireAt e).apply r else r) = shelf r := by
    split_ifs <;> simp [CollectionRow.shelf_eq]
  refine actsOn_pure (fun t => ?_) fun t k' hk => ?_
  · rw [setExpireAt,Table.modify]
    refine Table.entries_mapRows (fun r _ => by simpa using hs r) fun r hr => ?_
    have hkey := (Table.mem_onShelf.mp hr).2
    rw [CollectionRow.shelf_eq] at hkey
    simp [hkey,CollectionRow.entry_withExpireAt]
  · rw [setExpireAt,Table.modify]
    refine Table.onShelf_mapRows_of_ne (fun r _ => by simpa using hs r) fun r hr => ?_
    have hkey := (Table.mem_onShelf.mp hr).2
    rw [CollectionRow.shelf_eq] at hkey
    simp [hkey,hk]

theorem actsOn_expireIn (span now : ℤ) :
    ActsOn (ρ := ρ) key (expireIn key span now) (Collections.expireIn span now) :=
  ActsOn.map_ok fun e => actsOn_setExpireAt key (some e)

theorem actsOn_deleteByKey :
    ActsOn (ρ := ρ) key (fun t => .ok (deleteByKey key t)) fun _ => .ok [] := by
  have h := actsOn_delete (ρ := ρ) (k := key) (p := fun i => ExpirableWithKey.key i = key)
    (q := fun _ => true) fun r => by simp [CollectionRow.shelf_eq]
  simpa [deleteByKey] using h

end Keyed

theorem actsOn_insertSet (key i : String) :
    ActsOn key (insertSet ⟨0,key,i,0,none⟩) fun l => Collections.addNewItem l i where
  entries t := by
    have hany : (t.rows.any fun r => r.key = key && r.value = i) =
        (t.entries key).any fun e => e.item.1 = i := by
      rw [Table.entries,List.any_map,Table.onShelf,List.any_filter]
      rfl
    simp only [insertSet,Collections.addNewItem,hany]
    split_ifs
    · rfl
    · exact (actsOn_insert (k := key) rfl).entries t
  frame t t' ht := by
    simp only [insertSet] at ht
    split_ifs at ht
    exact (actsOn_insert (k := key) rfl).frame t t' ht

theorem actsOn_setInHash (key : String) (kv : String × Option String) :
    ActsOn key (fun t => setInHash key t kv) fun l => Collections.setField l kv :=
  actsOn_upsertEntity (fun _ => rfl) (fun _ => rfl) (fun _ => rfl) (fun _ => rfl) rfl rfl

theorem actsOn_addItem (key value : String) (score : ℚ) :
    ActsOn key (SqlUtil.upsertEntity (fun i : SetRow => i.key = key && i.value = value)
      (fun i => { i with score := score }) (fun i => { i with key := key, value := value })
      ⟨0,"","",0,none⟩) (Collections.addItem value score) :=
  actsOn_upsertEntity (fun _ => rfl) (fun _ => rfl) (fun _ => rfl) (fun _ => rfl) rfl rfl

theorem actsOn_trimList (key : String) (a b : ℤ) :
    ActsOn key (fun t => .ok (SqlUtil.deleteByInt32Id (trimmedIds key a b t) t).1) fun l =>
      .ok (Collections.keep a b l) := by
  have hids (t : Table ListRow) : trimmedIds key a b t = (((t.onShelf key).zipIdx).filter fun i =>
      (i.2 : ℤ) < a || b < (i.2 : ℤ)).map fun i => i.1.id := by
    rw [trimmedIds,orderById_rows]
    rfl
  refine actsOn_pure (fun t => ?_) fun t k' hk => ?_
  · have hdistinct : (t.onShelf key).Pairwise fun r r' => Row.id r ≠ Row.id r' :=
      (t.sorted.filter _).imp fun h => h.ne
    have hrows : (t.delete fun r => (trimmedIds key a b t).contains (Row.id r)).onShelf key =
        (((t.onShelf key).zipIdx).filter fun i =>
          !((i.2 : ℤ) < a || b < (i.2 : ℤ))).map Prod.fst := by
      rw [← filter_not_mem_zipIdx hdistinct,hids]
      simp only [Table.onShelf,Table.rows_delete,List.filter_filter,List.contains_eq_mem,Bool.and_comm]
      rfl
    rw [SqlUtil.deleteByInt32Id_eq,Table.entries,hrows,Collections.keep,Table.entries,List.zipIdx_map,
      List.filter_map,List.map_map,List.map_map]
    rfl
  · rw [SqlUtil.deleteByInt32Id_eq]
    refine Table.onShelf_delete_of_ne fun r hr => ?_
    rw [List.contains_eq_mem,decide_eq_false_iff_not,hids]
    intro hmem
    obtain ⟨i,hi,hid⟩ := List.mem_map.mp hmem
    have hi' := Table.mem_onShelf.mp (List.fst_mem_of_mem_zipIdx (List.mem_of_mem_filter hi))
    obtain ⟨hr,hrk⟩ := Table.mem_onShelf.mp hr
    have heq : i.1 = r := Table.eq_of_id hi'.1 hr hid
    exact hk (hrk.symm.trans (heq ▸ hi'.2))

/-- A step that may fail, seen at its place and at all others. -/
structure Square (p : Place) (db : Db) (x : Except Fault Db) (y : Except Fault p.Content) : Prop where
  content : x.map (fun db' => collections db' p) = y
  frame : ∀ db', x = .ok db' → ∀ q, q ≠ p → rowsAt db' q = rowsAt db q

section Places

variable {key : String} (db : Db)

theorem ActsOn.square_set {f : Table SetRow → Except Fault (Table SetRow)}
    {g : List (Entry (String × ℚ)) → Except Fault (List (Entry (String × ℚ)))} (h : ActsOn key f g) :
    Square (.set key) db ((f db.set).map fun t => { db with set := t }) (g (db.set.entries key)) where
  content := by
    rw [← h.entries]
    cases f db.set <;> rfl
  frame db' hx q hq := by
    obtain ⟨t,ht,rfl⟩ := map_eq_ok hx
    cases q with
    | set k => exact h.frame _ t ht k fun hk => hq (hk ▸ rfl)
    | _ => rfl

theorem ActsOn.square_hash {f : Table HashRow → Except Fault (Table HashRow)}
    {g : List (Entry (String × Option String)) → Except Fault (List (Entry (String × Option String)))}
    (h : ActsOn key f g) :
    Square (.hash key) db ((f db.hash).map fun t => { db with hash := t }) (g (db.hash.entries key)) where
  content := by
    rw [← h.entries]
    cases f db.hash <;> rfl
  frame db' hx q hq := by
    obtain ⟨t,ht,rfl⟩ := map_eq_ok hx
    cases q with
    | hash k => exact h.frame _ t ht k fun hk => hq (hk ▸ rfl)
    | _ => rfl

theorem ActsOn.square_list {f : Table ListRow → Except Fault (Table ListRow)}
    {g : List (Entry (Option String)) → Except Fault (List (Entry (Option String)))}
    (h : ActsOn key f g) :
    Square (.list key) db ((f db.list).map fun t => { db with list := t }) (g (db.list.entries key)) where
  content := by
    rw [← h.entries]
    cases f db.list <;> rfl
  frame db' hx q hq := by
    obtain ⟨t,ht,rfl⟩ := map_eq_ok hx
    cases q with
    | list k => exact h.frame _ t ht k fun hk => hq (hk ▸ rfl)
    | _ => rfl

theorem ActsOn.square_counter {f : Table CounterRow → Except Fault (Table CounterRow)}
    {g : List ℤ → Except Fault (List ℤ)} (h : ActsOn key f g) :
    Square (.counter key) db ((f db.counter).map fun t => { db with counter := t })
      (g (db.counter.entries key)) where
  content := by
    rw [← h.entries]
    cases f db.counter <;> rfl
  frame db' hx q hq := by
    obtain ⟨t,ht,rfl⟩ := map_eq_ok hx
    cases q with
    | counter k => exact h.frame _ t ht k fun hk => hq (hk ▸ rfl)
    | _ => rfl

end Places

theorem square_insertCounter (key : String) (value : ℤ) (span : Option ℤ) (now : ℤ) (db : Db) :
    Square (.counter key) db (insertCounter key value span now db)
      (Collections.count value span now (db.counter.entries key)) := by
  cases span with
  | none => exact (actsOn_insert (r := ⟨0,key,value,none⟩) rfl).square_counter db
  | some s =>
    simp only [insertCounter,Collections.count]
    cases DateTime.add now s with
    | error f => exact ⟨rfl,by simp [Except.map]⟩
    | ok e => exact (actsOn_insert (r := ⟨0,key,value,some e⟩) rfl).square_counter db

/-- What a command does to its place, and that it does nothing elsewhere. -/
theorem run_square {c : WriteCommand} {p : Place} (hp : c.place = some p) (ser : SerializationHelper)
    (now : ℤ) (db : Db) :
    Square p db (run ser now db c) (Collections.effect now c p (collections db p)) := by
  cases c with
  | expireJob | persistJob | setJobState | addJobState | addToQueue => cases hp
  | incrementCounter | decrementCounter =>
    cases hp
    exact square_insertCounter _ _ _ now db
  | addToSet k v score =>
    cases hp
    exact (actsOn_addItem k v score).square_set db
  | addRangeToSet k items =>
    cases hp
    exact (ActsOn.foldlM (actsOn_insertSet k) items).square_set db
  | removeFromSet k v =>
    cases hp
    exact (actsOn_delete (ρ := SetRow) (k := k) (q := fun e => e.item.1 = v) fun _ => rfl).square_set db
  | expireSet k span =>
    cases hp
    exact (actsOn_expireIn k span now).square_set db
  | persistSet k =>
    cases hp
    exact (actsOn_setExpireAt k none).square_set db
  | removeSet k =>
    cases hp
    exact (actsOn_deleteByKey k).square_set db
  | setRangeInHash k kvs =>
    cases hp
    exact (ActsOn.foldlM (actsOn_setInHash k) kvs).square_hash db
  | expireHash k span =>
    cases hp
    exact (actsOn_expireIn k span now).square_hash db
  | persistHash k =>
    cases hp
    exact (actsOn_setExpireAt k none).square_hash db
  | removeHash k =>
    cases hp
    exact (actsOn_deleteByKey k).square_hash db
  | insertToList k v =>
    cases hp
    exact (actsOn_insert (r := ⟨0,k,v,none⟩) rfl).square_list db
  | removeFromList k v =>
    cases hp
    exact (actsOn_delete (ρ := ListRow) (k := k) (q := fun e => e.item = v) fun _ => rfl).square_list db
  | trimList k a b =>
    cases hp
    exact (actsOn_trimList k a b).square_list db
  | expireList k span =>
    cases hp
    exact (actsOn_expireIn k span now).square_list db
  | persistList k =>
    cases hp
    exact (actsOn_setExpireAt k none).square_list db

theorem rowsAt_congr {db db' : Db} (hset : db'.set = db.set) (hhash : db'.hash = db.hash)
    (hlist : db'.list = db.list) (hcounter : db'.counter = db.counter) : rowsAt db' = rowsAt db := by
  funext p
  cases p <;> simp only [rowsAt,hset,hhash,hlist,hcounter]

/-- Commands on jobs and queues leave the collections alone. -/
theorem rowsAt_of_place_none {c : WriteCommand} {ser : SerializationHelper} {now : ℤ} {db db' : Db}
    (hp : c.place = none) (h : run ser now db c = .ok db') : rowsAt db' = rowsAt db := by
  cases c with
  | expireJob j span =>
    obtain ⟨-,rfl⟩ | ⟨v,-,rfl⟩ := expireJob_eq_ok h <;> exact rowsAt_congr rfl rfl rfl rfl
  | persistJob j =>
    cases h
    obtain ⟨-,h⟩ | ⟨v,-,h⟩ := persistJob_eq j db
    · rw [h]
    · rw [h]
      exact rowsAt_congr rfl rfl rfl rfl
  | setJobState j state =>
    obtain ⟨-,rfl⟩ | ⟨v,job,-,-,rfl⟩ := setJobState_eq_ok h <;> exact rowsAt_congr rfl rfl rfl rfl
  | addJobState j state =>
    obtain ⟨-,rfl⟩ | ⟨v,-,-,rfl⟩ := addJobState_eq_ok h <;> exact rowsAt_congr rfl rfl rfl rfl
  | addToQueue q j =>
    obtain ⟨-,rfl⟩ | ⟨v,-,rfl⟩ := JobQueue.enqueue_eq_ok h <;> exact rowsAt_congr rfl rfl rfl rfl
  | _ => cases hp

section Commits

variable {ser : SerializationHelper} {now : ℤ} {c : WriteCommand} {db db' : Db}

/-- A command leaves every place alone but its own. -/
theorem rowsAt_run {p : Place} (hp : c.place ≠ some p) (h : run ser now db c = .ok db') :
    rowsAt db' p = rowsAt db p := by
  cases hc : c.place with
  | none => rw [rowsAt_of_place_none hc h]
  | some q => exact (run_square hc ser now db).frame db' h p fun hq => hp (hq ▸ hc)

/-- The write commands refine the commands on collections. -/
theorem run_refines (h : run ser now db c = .ok db') :
    Collections.apply now c (collections db) = .ok (collections db') := by
  cases hc : c.place with
  | none =>
    have hrows := rowsAt_of_place_none hc h
    have hsame : collections db' = collections db := by
      funext p
      exact collections_eq_of_rowsAt (congrFun hrows p)
    rw [Collections.apply,hc,hsame]
  | some p =>
    have hsq := run_square hc ser now db
    rw [Collections.apply,hc]
    simp only [← hsq.content,h,Except.map,Except.ok.injEq]
    funext q
    by_cases hq : q = p
    · subst hq
      simp
    · rw [Function.update_of_ne hq,collections_eq_of_rowsAt (hsq.frame db' h q hq)]

end Commits
end HangfireStorage
