import HangfireStorage.Shelves
import HangfireStorage.JobStorageConnection
import Mathlib.Logic.Function.Basic

/-!
# Sets, hashes, lists and counters as clients see them

A place is one collection, its content the entries in the order of insertion. Every
command on a collection acts on the content of one place, whatever else the tables hold.
-/

namespace HangfireStorage

/-- An item with the expiry that is stored beside it. -/
structure Entry (ι : Type) where
  item : ι
  expireAt : Option ℤ
  deriving DecidableEq

/-- The rows of sets, hashes and lists: an item under a key. -/
class CollectionRow (ρ : Type) (ι : outParam Type) [Row ρ] [ExpirableWithKey ρ] extends
    Shelved ρ String (Entry ι) where
  shelf_eq : ∀ r, shelf r = ExpirableWithKey.key r
  expireAt_entry : ∀ r, (entry r).expireAt = Expirable.expireAt r
  entry_withExpireAt : ∀ e r, entry ((Expirable.withExpireAt e).apply r) = ⟨(entry r).item,e⟩

instance : CollectionRow SetRow (String × ℚ) where
  shelf := SetRow.key
  entry r := ⟨(r.value,r.score),r.expireAt⟩
  shelf_withId _ _ := rfl
  entry_withId _ _ := rfl
  shelf_eq _ := rfl
  expireAt_entry _ := rfl
  entry_withExpireAt _ _ := rfl
instance : CollectionRow HashRow (String × Option String) where
  shelf := HashRow.key
  entry r := ⟨(r.field,r.value),r.expireAt⟩
  shelf_withId _ _ := rfl
  entry_withId _ _ := rfl
  shelf_eq _ := rfl
  expireAt_entry _ := rfl
  entry_withExpireAt _ _ := rfl
instance : CollectionRow ListRow (Option String) where
  shelf := ListRow.key
  entry r := ⟨r.value,r.expireAt⟩
  shelf_withId _ _ := rfl
  entry_withId _ _ := rfl
  shelf_eq _ := rfl
  expireAt_entry _ := rfl
  entry_withExpireAt _ _ := rfl
/-- Nothing reads the expiry of a single counter row. -/
instance : Shelved CounterRow String ℤ where
  shelf := CounterRow.key
  entry := CounterRow.value
  shelf_withId _ _ := rfl
  entry_withId _ _ := rfl

inductive Place
  | set (key : String)
  | hash (key : String)
  | list (key : String)
  | counter (key : String)
  deriving DecidableEq

abbrev Place.Content : Place → Type
  | .set _ => List (Entry (String × ℚ))
  | .hash _ => List (Entry (String × Option String))
  | .list _ => List (Entry (Option String))
  | .counter _ => List ℤ

abbrev Collections := (p : Place) → p.Content

/-- The collections in the tables that write commands change. -/
def collections (db : Db) : Collections
  | .set key => db.set.entries key
  | .hash key => db.hash.entries key
  | .list key => db.list.entries key
  | .counter key => db.counter.entries key

abbrev Place.Row : Place → Type
  | .set _ => SetRow
  | .hash _ => HashRow
  | .list _ => ListRow
  | .counter _ => CounterRow

/-- The rows themselves. -/
def rowsAt (db : Db) : (p : Place) → List p.Row
  | .set key => db.set.onShelf key
  | .hash key => db.hash.onShelf key
  | .list key => db.list.onShelf key
  | .counter key => db.counter.onShelf key

theorem collections_eq_of_rowsAt {db db' : Db} {p : Place} (h : rowsAt db' p = rowsAt db p) :
    collections db' p = collections db p := by
  cases p <;> exact congrArg (List.map Shelved.entry) h

/-- The collection that a command is addressed to. -/
def WriteCommand.place : WriteCommand → Option Place
  | .addToSet key _ _ | .addRangeToSet key _ | .removeFromSet key _ | .expireSet key _
  | .persistSet key | .removeSet key => some (.set key)
  | .setRangeInHash key _ | .expireHash key _ | .persistHash key | .removeHash key =>
    some (.hash key)
  | .insertToList key _ | .removeFromList key _ | .trimList key _ _ | .expireList key _
  | .persistList key => some (.list key)
  | .incrementCounter key _ | .decrementCounter key _ => some (.counter key)
  | .expireJob _ _ | .persistJob _ | .setJobState _ _ | .addJobState _ _ | .addToQueue _ _ => none

namespace Collections

variable {ε ι : Type}

def upsert (m : ε → Bool) (change : ε → ε) (new : ε) (l : List ε) : Except Fault (List ε) :=
  (SqlUtil.singleOrDefault (l.filter m)).map fun found =>
    if found.isNone then l ++ [new] else l.map fun e => if m e then change e else e

/-- Every entry gets the same expiry. -/
def expire (e : Option ℤ) (l : List (Entry ι)) : List (Entry ι) := l.map fun i => { i with expireAt := e }

def expireIn (span now : ℤ) (l : List (Entry ι)) : Except Fault (List (Entry ι)) :=
  (DateTime.add now span).map fun e => expire (some e) l

def addItem (value : String) (score : ℚ) :
    List (Entry (String × ℚ)) → Except Fault (List (Entry (String × ℚ))) :=
  upsert (fun e => e.item.1 = value) (fun e => { e with item := (e.item.1,score) })
    ⟨(value,score),none⟩

def addNewItem (l : List (Entry (String × ℚ))) (value : String) :
    Except Fault (List (Entry (String × ℚ))) :=
  if l.any fun e => e.item.1 = value then .error .uniqueKey else .ok (l ++ [⟨(value,0),none⟩])

def setField (l : List (Entry (String × Option String))) (kv : String × Option String) :
    Except Fault (List (Entry (String × Option String))) :=
  upsert (fun e => e.item.1 = kv.1) (fun e => { e with item := (e.item.1,kv.2) }) ⟨kv,none⟩ l

/-- Keep the positions in the given range. -/
def keep (keepStartingFrom keepEndingAt : ℤ) (l : List ε) : List ε :=
  (l.zipIdx.filter fun i =>
    !((i.2 : ℤ) < keepStartingFrom || keepEndingAt < (i.2 : ℤ))).map Prod.fst

def count (value : ℤ) (span : Option ℤ) (now : ℤ) (l : List ℤ) : Except Fault (List ℤ) :=
  match span with
  | none => .ok (l ++ [value])
  | some s => (DateTime.add now s).map fun _ => l ++ [value]

/-- What a command does to the content of its place. -/
def effect (now : ℤ) : WriteCommand → (p : Place) → p.Content → Except Fault p.Content
  | .addToSet _ value score, .set _, l => addItem value score l
  | .addRangeToSet _ items, .set _, l => items.foldlM addNewItem l
  | .removeFromSet _ value, .set _, l => .ok (l.filter fun e => !decide (e.item.1 = value))
  | .expireSet _ span, .set _, l => expireIn span now l
  | .persistSet _, .set _, l => .ok (expire none l)
  | .removeSet _, .set _, _ => .ok []
  | .setRangeInHash _ kvs, .hash _, l => kvs.foldlM setField l
  | .expireHash _ span, .hash _, l => expireIn span now l
  | .persistHash _, .hash _, l => .ok (expire none l)
  | .removeHash _, .hash _, _ => .ok []
  | .insertToList _ value, .list _, l => .ok (l ++ [⟨value,none⟩])
  | .removeFromList _ value, .list _, l => .ok (l.filter fun e => !decide (e.item = value))
  | .trimList _ a b, .list _, l => .ok (keep a b l)
  | .expireList _ span, .list _, l => expireIn span now l
  | .persistList _, .list _, l => .ok (expire none l)
  | .incrementCounter _ span, .counter _, l => count 1 span now l
  | .decrementCounter _ span, .counter _, l => count (-1) span now l
  | _, _, l => .ok l

/-- A command on the collections. Commands on jobs leave them alone. -/
def apply (now : ℤ) (c : WriteCommand) (s : Collections) : Except Fault Collections :=
  match c.place with
  | none => .ok s
  | some p => (effect now c p (s p)).map (Function.update s p)

end Collections

section Shelf

open Shelved

variable {ρ κ ε : Type} [Row ρ] [Shelved ρ κ ε] [DecidableEq κ] {k : κ}

/-- The table operation does to one shelf what the list operation does to its entries, and
nothing to the others. -/
structure ActsOn (k : κ) (f : Table ρ → Except Fault (Table ρ)) (g : List ε → Except Fault (List ε)) :
    Prop where
  entries : ∀ t, (f t).map (fun t' => t'.entries k) = g (t.entries k)
  frame : ∀ t t', f t = .ok t' → ∀ k', k' ≠ k → t'.onShelf k' = t.onShelf k'

theorem actsOn_pure {f : Table ρ → Table ρ} {g : List ε → List ε}
    (h : ∀ t, (f t).entries k = g (t.entries k))
    (hne : ∀ t k', k' ≠ k → (f t).onShelf k' = t.onShelf k') :
    ActsOn k (fun t => .ok (f t)) fun l => .ok (g l) where
  entries t := by simp [Except.map,h t]
  frame t t' ht := by
    cases ht
    exact hne t

theorem ActsOn.map_ok {α : Type} {x : Except Fault α} {f : α → Table ρ → Table ρ}
    {g : α → List ε → List ε} (h : ∀ a, ActsOn k (fun t => .ok (f a t)) fun l => .ok (g a l)) :
    ActsOn k (fun t => x.map fun a => f a t) fun l => x.map fun a => g a l where
  entries t := by
    cases x with
    | error e => rfl
    | ok a => exact (h a).entries t
  frame t t' ht := by
    obtain ⟨a,-,rfl⟩ := map_eq_ok ht
    exact (h a).frame t _ rfl

theorem ActsOn.foldlM {α : Type} {f : Table ρ → α → Except Fault (Table ρ)}
    {g : List ε → α → Except Fault (List ε)}
    (h : ∀ a, ActsOn k (fun t => f t a) fun l => g l a) (as : List α) :
    ActsOn k (fun t => as.foldlM f t) fun l => as.foldlM g l where
  entries t := by
    induction as generalizing t with
    | nil => rfl
    | cons a as ih =>
      have ha := (h a).entries t
      simp only [List.foldlM_cons] at ha ⊢
      rw [← ha]
      cases f t a with
      | error e => rfl
      | ok t' => exact ih t'
  frame t t' ht := by
    induction as generalizing t with
    | nil =>
      cases ht
      exact fun _ _ => rfl
    | cons a as ih =>
      obtain ⟨t₁,hf,hrest⟩ := foldlM_cons_eq_ok.mp ht
      intro k' hk
      exact (ih t₁ hrest k' hk).trans ((h a).frame t t₁ hf k' hk)

theorem singleOrDefault_map {α β : Type} (f : α → β) (l : List α) :
    SqlUtil.singleOrDefault (l.map f) = (SqlUtil.singleOrDefault l).map (Option.map f) := by
  match l with
  | [] => rfl
  | [_] => rfl
  | _::_::_ => rfl

section Upserts

variable {matchFunc : ρ → Bool} {changeAction keysetAction : ρ → ρ} {new : ρ} {m : ε → Bool}
  {change : ε → ε} {newEntry : ε}

/-- Writing the row that was found back is an update of the matching rows. -/
theorem put_singleOrDefault {t : Table ρ} {e : ρ}
    (hfound : SqlUtil.singleOrDefault (t.rows.filter matchFunc) = .ok (some e))
    (hid : ∀ r, Row.id (changeAction r) = Row.id r) {r : ρ} (hr : r ∈ t.rows) :
    (if Row.id r = Row.id (changeAction e) then changeAction e else r) =
      if matchFunc r then changeAction r else r := by
  have hmem (r : ρ) : r ∈ t.rows ∧ matchFunc r = true ↔ r = e := by
    rw [← List.mem_filter,SqlUtil.singleOrDefault_eq_ok hfound]
    simp
  obtain ⟨he,hme⟩ := (hmem e).mpr rfl
  by_cases hre : r = e
  · subst hre
    rw [hid,if_pos rfl,if_pos hme]
  · rw [if_neg fun h => hre (Table.eq_of_id hr he (h.trans (hid e))),
      if_neg fun h => hre ((hmem r).mp ⟨hr,h⟩)]

/-- An upsert on one shelf. -/
theorem actsOn_upsertEntity
    (hm : ∀ r, matchFunc r = (decide (shelf r = k) && m (entry r)))
    (hid : ∀ r, Row.id (changeAction r) = Row.id r) (hs : ∀ r, (shelf (changeAction r) : κ) = shelf r)
    (hc : ∀ r, entry (changeAction r) = change (entry r))
    (hk : shelf (changeAction (keysetAction new)) = k)
    (hn : entry (changeAction (keysetAction new)) = newEntry) :
    ActsOn k (SqlUtil.upsertEntity matchFunc changeAction keysetAction new)
      (Collections.upsert m change newEntry) := by
  have hshelf {t : Table ρ} {e : ρ}
      (hfound : SqlUtil.singleOrDefault (t.rows.filter matchFunc) = .ok (some e)) (r : ρ)
      (hr : r ∈ t.rows) :
      (shelf (if Row.id r = Row.id (changeAction e) then changeAction e else r) : κ) = shelf r := by
    rw [put_singleOrDefault hfound hid hr]
    split_ifs <;> simp [hs]
  constructor
  · intro t
    have hfilter : (t.rows.filter matchFunc).map entry = (t.entries k).filter m := by
      rw [Table.entries,Table.onShelf,List.filter_map,List.filter_filter]
      congr 1
      exact List.filter_congr fun r _ => by rw [hm,Bool.and_comm]; rfl
    rw [SqlUtil.upsertEntity,Collections.upsert,← hfilter,singleOrDefault_map]
    cases hfound : SqlUtil.singleOrDefault (t.rows.filter matchFunc) with
    | error e => rfl
    | ok found =>
      simp only [Except.map,Except.ok.injEq,Option.isNone_map]
      cases found with
      | none => simp [SqlUtil.saveEntity,Table.entries_insert,hk,hn]
      | some e =>
        rw [SqlUtil.saveEntity,Table.put,Table.entries_mapRows (hshelf hfound) fun r hr => ?_]
        · rfl
        · obtain ⟨hr,hrk⟩ := Table.mem_onShelf.mp hr
          rw [put_singleOrDefault hfound hid hr,hm,decide_eq_true hrk,Bool.true_and]
          split_ifs
          · rw [hc]
          · rfl
  · intro t t' ht k' hk'
    obtain ⟨found,hfound,rfl⟩ := map_eq_ok ht
    cases found with
    | none => simp [SqlUtil.saveEntity,Table.onShelf_insert,hk,Ne.symm hk']
    | some e =>
      rw [SqlUtil.saveEntity,Table.put,Table.onShelf_mapRows_of_ne (hshelf hfound) fun r hr => ?_]
      obtain ⟨hr,hrk⟩ := Table.mem_onShelf.mp hr
      rw [put_singleOrDefault hfound hid hr,hm,if_neg]
      simp [hrk,hk']

end Upserts

end Shelf
end HangfireStorage
