import HangfireStorage.Table

/-!
# Tables as families of shelves

The rows of a table that agree in one column, in the order of insertion and without
their ids. Ids depend on what else is inserted meanwhile, shelves do not.
-/

namespace HangfireStorage

class Shelved (ρ : Type) (κ ε : outParam Type) [Row ρ] where
  shelf : ρ → κ
  entry : ρ → ε
  shelf_withId : ∀ i r, shelf (Row.withId i r) = shelf r
  entry_withId : ∀ i r, entry (Row.withId i r) = entry r

attribute [simp] Shelved.shelf_withId Shelved.entry_withId

namespace Table

open Shelved

variable {ρ κ ε : Type} [Row ρ] [Shelved ρ κ ε] [DecidableEq κ] {t : Table ρ} {k : κ}

def onShelf (t : Table ρ) (k : κ) : List ρ := t.rows.filter fun r => shelf r = k

def entries (t : Table ρ) (k : κ) : List ε := (t.onShelf k).map entry

theorem mem_onShelf {r : ρ} : r ∈ t.onShelf k ↔ r ∈ t.rows ∧ shelf r = k := by
  simp [onShelf]

@[simp] theorem entries_empty (k : κ) : (empty : Table ρ).entries k = [] := rfl

theorem mem_entries {e : ε} : e ∈ t.entries k ↔ ∃ r ∈ t.rows, shelf r = k ∧ entry r = e := by
  simp [entries,mem_onShelf,and_assoc]

theorem onShelf_insert (r : ρ) (t : Table ρ) (k : κ) :
    (t.insert r).onShelf k = t.onShelf k ++ if shelf r = k then [Row.withId t.nextId r] else [] := by
  by_cases h : shelf r = k <;> simp [onShelf,List.filter_append,h]

theorem entries_insert (r : ρ) (t : Table ρ) (k : κ) :
    (t.insert r).entries k = t.entries k ++ if shelf r = k then [entry r] else [] := by
  by_cases h : shelf r = k <;> simp [entries,onShelf_insert,h]

theorem onShelf_delete (p : ρ → Bool) (t : Table ρ) (k : κ) :
    (t.delete p).onShelf k = (t.onShelf k).filter fun r => !p r := by
  simp only [onShelf,rows_delete,List.filter_filter,Bool.and_comm]

/-- A deletion that looks at the entry only. -/
theorem entries_delete {p : ρ → Bool} {q : ε → Bool}
    (h : ∀ r ∈ t.onShelf k, p r = q (entry r)) :
    (t.delete p).entries k = (t.entries k).filter fun e => !q e := by
  rw [entries,onShelf_delete,entries,List.filter_map]
  congr 1
  exact List.filter_congr fun r hr => by rw [h r hr]; rfl

theorem onShelf_delete_of_ne {p : ρ → Bool} (h : ∀ r ∈ t.onShelf k, p r = false) :
    (t.delete p).onShelf k = t.onShelf k := by
  rw [onShelf_delete]
  exact List.filter_eq_self.mpr fun r hr => by rw [h r hr]; rfl

theorem onShelf_mapRows {g : ρ → ρ} {hg} (hs : ∀ r ∈ t.rows, (shelf (g r) : κ) = shelf r) :
    (t.mapRows g hg).onShelf k = (t.onShelf k).map g := by
  simp only [onShelf,rows_mapRows,List.filter_map]
  congr 1
  exact List.filter_congr fun r hr => by simp [hs r hr]

theorem onShelf_mapRows_of_ne {g : ρ → ρ} {hg} (hs : ∀ r ∈ t.rows, (shelf (g r) : κ) = shelf r)
    (h : ∀ r ∈ t.onShelf k, g r = r) : (t.mapRows g hg).onShelf k = t.onShelf k := by
  rw [onShelf_mapRows hs,List.map_congr_left h,List.map_id']

/-- An update that works on the entries of a shelf. -/
theorem entries_mapRows {g : ρ → ρ} {f : ε → ε} {hg} (hs : ∀ r ∈ t.rows, (shelf (g r) : κ) = shelf r)
    (h : ∀ r ∈ t.onShelf k, entry (g r) = f (entry r)) :
    (t.mapRows g hg).entries k = (t.entries k).map f := by
  rw [entries,onShelf_mapRows hs,entries,List.map_map,List.map_map]
  exact List.map_congr_left h

end Table
end HangfireStorage
