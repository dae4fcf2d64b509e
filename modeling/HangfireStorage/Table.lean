import Mathlib.Data.List.Basic
import Mathlib.Data.List.Perm.Basic
import Mathlib.Data.List.Nodup
import Mathlib.Data.Int.Notation
import Mathlib.Tactic.Ext

/-!
# Tables with an identity column

Rows stand in insertion order and the identity column never hands an id out
twice, so a table is also a partial map from ids to rows. Columns give back exactly what was
stored in them: times such as FetchedAt to the tick, whatever the precision of the column type.
-/

namespace HangfireStorage

class Row (ρ : Type) where
  id : ρ → ℤ
  withId : ℤ → ρ → ρ
  id_withId : ∀ i r, id (withId i r) = i

attribute [simp] Row.id_withId

@[ext] structure Table (ρ : Type) [Row ρ] where
  rows : List ρ
  nextId : ℤ
  sorted : rows.Pairwise fun a b => Row.id a < Row.id b
  fresh : ∀ r ∈ rows, Row.id r < nextId

/-- A change of columns other than the id. -/
structure Update (ρ : Type) [Row ρ] where
  apply : ρ → ρ
  id_apply : ∀ r, Row.id (apply r) = Row.id r

namespace Table

variable {ρ : Type} [Row ρ]

instance [DecidableEq ρ] : DecidableEq (Table ρ) := fun t u =>
  decidable_of_iff (t.rows = u.rows ∧ t.nextId = u.nextId) Table.ext_iff.symm

def empty : Table ρ := ⟨[],1,.nil,by simp⟩

def insert (r : ρ) (t : Table ρ) : Table ρ where
  rows := t.rows ++ [Row.withId t.nextId r]
  nextId := t.nextId+1
  sorted := by
    refine List.pairwise_append.mpr ⟨t.sorted,by simp,?_⟩
    intro a ha b hb
    rw [List.mem_singleton.mp hb,Row.id_withId]
    exact t.fresh a ha
  fresh := by
    intro a ha
    rcases List.mem_append.mp ha with ha | ha
    · have := t.fresh a ha
      omega
    · rw [List.mem_singleton.mp ha,Row.id_withId]
      omega

def delete (p : ρ → Bool) (t : Table ρ) : Table ρ where
  rows := t.rows.filter fun r => !p r
  nextId := t.nextId
  sorted := t.sorted.filter _
  fresh r hr := t.fresh r (List.mem_of_mem_filter hr)

def mapRows (g : ρ → ρ) (hg : ∀ r, Row.id (g r) = Row.id r) (t : Table ρ) : Table ρ where
  rows := t.rows.map g
  nextId := t.nextId
  sorted := by
    rw [List.pairwise_map]
    exact t.sorted.imp fun h => by simpa only [hg] using h
  fresh := by
    intro r hr
    obtain ⟨a,ha,rfl⟩ := List.mem_map.mp hr
    simpa only [hg] using t.fresh a ha

/-- An update statement. -/
def modify (p : ρ → Bool) (u : Update ρ) (t : Table ρ) : Table ρ :=
  t.mapRows (fun r => if p r then u.apply r else r) (by intro r; split <;> simp [u.id_apply])

/-- Write a whole row over the one with its id. -/
def put (e : ρ) (t : Table ρ) : Table ρ :=
  t.mapRows (fun r => if Row.id r = Row.id e then e else r) (by intro r; split <;> simp_all)

def byId (i : ℤ) (t : Table ρ) : Option ρ := t.rows.find? fun r => Row.id r = i

@[simp] theorem rows_empty : (empty : Table ρ).rows = [] := rfl
@[simp] theorem rows_insert (r : ρ) (t : Table ρ) :
    (t.insert r).rows = t.rows ++ [Row.withId t.nextId r] := rfl
@[simp] theorem nextId_insert (r : ρ) (t : Table ρ) : (t.insert r).nextId = t.nextId+1 := rfl
@[simp] theorem rows_delete (p : ρ → Bool) (t : Table ρ) :
    (t.delete p).rows = t.rows.filter fun r => !p r := rfl
@[simp] theorem nextId_delete (p : ρ → Bool) (t : Table ρ) : (t.delete p).nextId = t.nextId := rfl
@[simp] theorem rows_mapRows (g : ρ → ρ) (hg) (t : Table ρ) :
    (t.mapRows g hg).rows = t.rows.map g := rfl
@[simp] theorem nextId_mapRows (g : ρ → ρ) (hg) (t : Table ρ) :
    (t.mapRows g hg).nextId = t.nextId := rfl
@[simp] theorem rows_modify (p : ρ → Bool) (u : Update ρ) (t : Table ρ) :
    (t.modify p u).rows = t.rows.map fun r => if p r then u.apply r else r := rfl
@[simp] theorem nextId_modify (p : ρ → Bool) (u : Update ρ) (t : Table ρ) :
    (t.modify p u).nextId = t.nextId := rfl
@[simp] theorem rows_put (e : ρ) (t : Table ρ) :
    (t.put e).rows = t.rows.map fun r => if Row.id r = Row.id e then e else r := rfl
@[simp] theorem nextId_put (e : ρ) (t : Table ρ) : (t.put e).nextId = t.nextId := rfl

theorem eq_of_id {t : Table ρ} {a b : ρ} (ha : a ∈ t.rows) (hb : b ∈ t.rows)
    (h : Row.id a = Row.id b) : a = b := by
  have hinj : (t.rows.map Row.id).Nodup := List.pairwise_map.mpr (t.sorted.imp Int.ne_of_lt)
  exact List.inj_on_of_nodup_map hinj ha hb h

theorem nodup (t : Table ρ) : t.rows.Nodup :=
  t.sorted.imp fun h he => by simp [he] at h

theorem nodup_ids (t : Table ρ) (p : ρ → Bool) : ((t.rows.filter p).map Row.id).Nodup :=
  List.pairwise_map.mpr ((t.sorted.filter p).imp Int.ne_of_lt)

theorem filter_id {t : Table ρ} {r : ρ} (hr : r ∈ t.rows) :
    t.rows.filter (fun a => Row.id a = Row.id r) = [r] := by
  have hall : ∀ a ∈ t.rows.filter (fun a => Row.id a = Row.id r), a = r := by
    intro a ha
    simp only [List.mem_filter,decide_eq_true_eq] at ha
    exact eq_of_id ha.1 hr ha.2
  have hmem : r ∈ t.rows.filter (fun a => Row.id a = Row.id r) :=
    List.mem_filter.mpr ⟨hr,by simp⟩
  have hnd := t.nodup.filter fun a => Row.id a = Row.id r
  rw [List.eq_replicate_of_mem hall] at hnd ⊢
  have hle := List.nodup_replicate.mp hnd
  have hpos := List.length_pos_of_mem hmem
  rw [show (t.rows.filter fun a => Row.id a = Row.id r).length = 1 by omega]
  rfl

theorem byId_eq_some {t : Table ρ} {i : ℤ} {r : ρ} :
    t.byId i = some r ↔ r ∈ t.rows ∧ Row.id r = i := by
  constructor
  · intro h
    exact ⟨List.mem_of_find?_eq_some h,by simpa using List.find?_some h⟩
  · rintro ⟨hr,rfl⟩
    cases h : t.byId (Row.id r) with
    | none =>
      have := List.find?_eq_none.mp h r hr
      simp at this
    | some a =>
      have hid : Row.id a = Row.id r := by simpa using List.find?_some h
      rw [eq_of_id (List.mem_of_find?_eq_some h) hr hid]

theorem byId_eq_none {t : Table ρ} {i : ℤ} : t.byId i = none ↔ ∀ r ∈ t.rows, Row.id r ≠ i := by
  simp [byId]

theorem byId_of_mem {t : Table ρ} {r : ρ} (h : r ∈ t.rows) : t.byId (Row.id r) = some r :=
  byId_eq_some.mpr ⟨h,rfl⟩

theorem id_of_byId {t : Table ρ} {i : ℤ} {r : ρ} (h : t.byId i = some r) : Row.id r = i :=
  (byId_eq_some.mp h).2

theorem mem_of_byId {t : Table ρ} {i : ℤ} {r : ρ} (h : t.byId i = some r) : r ∈ t.rows :=
  (byId_eq_some.mp h).1

theorem lt_of_byId {t : Table ρ} {i : ℤ} {r : ρ} (h : t.byId i = some r) : i < t.nextId :=
  id_of_byId h ▸ t.fresh r (mem_of_byId h)

theorem byId_nextId (t : Table ρ) {i : ℤ} (h : t.nextId ≤ i) : t.byId i = none :=
  byId_eq_none.mpr fun r hr => by have := t.fresh r hr; omega

theorem byId_insert (r : ρ) (t : Table ρ) (i : ℤ) :
    (t.insert r).byId i = if i = t.nextId then some (Row.withId t.nextId r) else t.byId i := by
  split_ifs with h
  · exact byId_eq_some.mpr ⟨by simp,by simp [h]⟩
  · simp [byId,List.find?_append,Ne.symm h]

theorem byId_delete (p : ρ → Bool) (t : Table ρ) (i : ℤ) :
    (t.delete p).byId i = (t.byId i).filter fun r => !p r := by
  apply Option.ext
  intro r
  rw [Option.filter_eq_some_iff,byId_eq_some,byId_eq_some,rows_delete,List.mem_filter]
  tauto

theorem delete_delete (p q : ρ → Bool) (t : Table ρ) :
    (t.delete p).delete q = t.delete fun r => p r || q r :=
  Table.ext (by simp [List.filter_filter,Bool.and_comm]) rfl

theorem delete_congr {p q : ρ → Bool} {t : Table ρ} (h : ∀ r ∈ t.rows, p r = q r) :
    t.delete p = t.delete q :=
  Table.ext (List.filter_congr fun r hr => by rw [h r hr]) rfl

theorem delete_of_forall {p : ρ → Bool} {t : Table ρ} (h : ∀ r ∈ t.rows, p r = false) :
    t.delete p = t :=
  Table.ext (List.filter_eq_self.mpr fun r hr => by rw [h r hr]; rfl) rfl

/-- Overwriting a row leaves its place and its neighbours. -/
theorem rows_put_of_mem {t : Table ρ} {e : ρ} (e' : ρ) (h : e ∈ t.rows) (hid : Row.id e' = Row.id e) :
    ∃ l₁ l₂, t.rows = l₁ ++ e::l₂ ∧ (t.put e').rows = l₁ ++ e'::l₂ := by
  obtain ⟨l₁,l₂,hl⟩ := List.append_of_mem h
  have hs := t.sorted
  rw [hl,List.pairwise_append,List.pairwise_cons] at hs
  have hkeep : ∀ l : List ρ, (∀ r ∈ l, Row.id r ≠ Row.id e') →
      l.map (fun r => if Row.id r = Row.id e' then e' else r) = l := fun l hne =>
    (List.map_congr_left fun r hr => if_neg (hne r hr)).trans (List.map_id l)
  refine ⟨l₁,l₂,hl,?_⟩
  rw [rows_put,hl,List.map_append,List.map_cons,if_pos hid.symm,hkeep l₁,hkeep l₂]
  · intro r hr
    have := hs.2.1.1 r hr
    omega
  · intro r hr
    have := hs.2.2 r hr e (by simp)
    omega

/-- The rows found by the ids of some rows are these rows. -/
theorem filter_ids_perm {t : Table ρ} {l : List ρ} (hl : l.Nodup) (hsub : ∀ r ∈ l, r ∈ t.rows) :
    (t.rows.filter fun r => (l.map Row.id).contains (Row.id r)).Perm l := by
  refine (List.perm_ext_iff_of_nodup (t.nodup.filter _) hl).mpr fun r => ?_
  simp only [List.mem_filter,List.contains_iff_mem,List.mem_map]
  constructor
  · rintro ⟨hr,a,ha,hid⟩
    exact eq_of_id (hsub a ha) hr hid ▸ ha
  · exact fun hr => ⟨hsub r hr,r,hr,rfl⟩

theorem byId_mapRows (g : ρ → ρ) (hg) (t : Table ρ) (i : ℤ) :
    (t.mapRows g hg).byId i = (t.byId i).map g := by
  simp only [byId,rows_mapRows,List.find?_map,Function.comp_def,hg]

theorem byId_modify (p : ρ → Bool) (u : Update ρ) (t : Table ρ) (i : ℤ) :
    (t.modify p u).byId i = (t.byId i).map fun r => if p r then u.apply r else r :=
  byId_mapRows _ _ _ _

theorem byId_put (e : ρ) (t : Table ρ) (i : ℤ) :
    (t.put e).byId i = (t.byId i).map fun r => if Row.id r = Row.id e then e else r :=
  byId_mapRows _ _ _ _

/-- An update of one row writes it whole. -/
theorem modify_eq_put {t : Table ρ} {r : ρ} (u : Update ρ) (hr : r ∈ t.rows) :
    t.modify (fun a => Row.id a = Row.id r) u = t.put (u.apply r) := by
  refine Table.ext (List.map_congr_left fun a ha => ?_) rfl
  rw [u.id_apply]
  by_cases hid : Row.id a = Row.id r
  · simp [eq_of_id ha hr hid]
  · simp [hid]

end Table
end HangfireStorage
