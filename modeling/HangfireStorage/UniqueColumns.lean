import HangfireStorage.SqlUtil

/-!
# Unique columns

A table in which no two rows agree on some columns, and what statements do to that. Looking up a
value of the columns finds one row or none.
-/

namespace HangfireStorage
namespace Table

variable {ρ κ : Type} [Row ρ] {f : ρ → κ} {t : Table ρ}

/-- No two rows agree on `f`. -/
def Unique (f : ρ → κ) (t : Table ρ) : Prop := (t.rows.map f).Nodup

namespace Unique

theorem empty : Unique f (Table.empty : Table ρ) := List.nodup_nil

theorem inj (h : Unique f t) {a b : ρ} (ha : a ∈ t.rows) (hb : b ∈ t.rows) (he : f a = f b) : a = b :=
  List.inj_on_of_nodup_map h ha hb he

theorem delete (h : Unique f t) (p : ρ → Bool) : Unique f (t.delete p) :=
  h.sublist (List.filter_sublist.map f)

theorem mapRows (h : Unique f t) {g : ρ → ρ} {hg : ∀ r, Row.id (g r) = Row.id r}
    (hf : ∀ r ∈ t.rows, f (g r) = f r) : Unique f (t.mapRows g hg) := by
  have hcols : (t.mapRows g hg).rows.map f = t.rows.map f := by
    rw [rows_mapRows,List.map_map]
    exact List.map_congr_left hf
  rw [Unique,hcols]
  exact h

theorem modify (h : Unique f t) {p : ρ → Bool} {u : Update ρ} (hf : ∀ r, f (u.apply r) = f r) :
    Unique f (t.modify p u) :=
  h.mapRows fun r _ => by split_ifs <;> simp [hf]

/-- Writing a row over the one it was made from. -/
theorem put (h : Unique f t) {e e' : ρ} (he : e ∈ t.rows) (hid : Row.id e' = Row.id e)
    (hf : f e' = f e) : Unique f (t.put e') := by
  refine h.mapRows fun r hr => ?_
  split_ifs with hr'
  · rw [hf,eq_of_id hr he (hr'.trans hid)]
  · rfl

theorem insert (h : Unique f t) {r : ρ} (hid : ∀ i, f (Row.withId i r) = f r)
    (hr : ∀ a ∈ t.rows, f a ≠ f r) : Unique f (t.insert r) := by
  rw [Unique,rows_insert,List.map_append,List.nodup_append]
  refine ⟨h,by simp,?_⟩
  intro a ha b hb hab
  obtain ⟨c,hc,rfl⟩ := List.mem_map.mp ha
  obtain rfl : b = f r := by simpa [hid] using hb
  exact hr c hc hab

theorem singleOrDefault [DecidableEq κ] (h : Unique f t) {p : ρ → Bool} {k : κ}
    (hp : ∀ r, p r = true ↔ f r = k) :
    SqlUtil.singleOrDefault (t.rows.filter p) = .ok (t.rows.find? p) := by
  have hdec : p = fun r => decide (f r = k) := funext fun r => by
    rw [Bool.eq_iff_iff,hp,decide_eq_true_eq]
  rw [hdec]
  exact SqlUtil.singleOrDefault_of_distinct (List.pairwise_map.mp h) k

theorem singleOrDefault_map {α β : Type} (g : α → β) (l : List α) :
    SqlUtil.singleOrDefault (l.map g) = (SqlUtil.singleOrDefault l).map (Option.map g) := by
  match l with
  | [] => rfl
  | [a] => rfl
  | a::b::l => rfl

/-- Reading a column of the row with given unique columns. -/
theorem singleOrDefault_column [DecidableEq κ] (h : Unique f t) {p : ρ → Bool} {k : κ}
    (hp : ∀ r, p r = true ↔ f r = k) {β : Type} (g : ρ → β) :
    SqlUtil.singleOrDefault ((t.rows.filter p).map g) = .ok ((t.rows.find? p).map g) := by
  rw [singleOrDefault_map,h.singleOrDefault hp]
  rfl

section Upserts

variable {matchFunc : ρ → Bool} {changeAction keysetAction : ρ → ρ} {new : ρ} {k : κ}
  (hmatch : ∀ r, matchFunc r = true ↔ f r = k) (hchange : ∀ r, f (changeAction r) = f r)
  (hchangeId : ∀ r, Row.id (changeAction r) = Row.id r) (hnew : f (keysetAction new) = k)
  (hwithId : ∀ i r, f (Row.withId i r) = f r)

include hmatch hchange hchangeId hnew hwithId

/-- An upsert by the columns keeps them unique. -/
theorem upsertEntity {t' : Table ρ} (h : Unique f t)
    (hu : SqlUtil.upsertEntity matchFunc changeAction keysetAction new t = .ok t') : Unique f t' := by
  obtain ⟨entity,hs,rfl⟩ := map_eq_ok hu
  have hrows := SqlUtil.singleOrDefault_eq_ok hs
  cases entity with
  | none =>
    refine h.insert (fun i => hwithId i _) fun a ha he => ?_
    rw [hchange,hnew] at he
    have hmem : a ∈ t.rows.filter matchFunc := List.mem_filter.mpr ⟨ha,(hmatch a).mpr he⟩
    rw [hrows] at hmem
    cases hmem
  | some entity =>
    have hmem : entity ∈ t.rows.filter matchFunc := by simp [hrows]
    exact h.put (List.mem_of_mem_filter hmem) (hchangeId entity) (hchange entity)

/-- An upsert by unique columns succeeds. -/
theorem upsertEntity_ok [DecidableEq κ] (h : Unique f t) :
    ∃ t', SqlUtil.upsertEntity matchFunc changeAction keysetAction new t = .ok t' ∧ Unique f t' := by
  have hs : SqlUtil.upsertEntity matchFunc changeAction keysetAction new t =
      .ok (SqlUtil.saveEntity changeAction keysetAction new t (t.rows.find? matchFunc)) := by
    rw [SqlUtil.upsertEntity,h.singleOrDefault hmatch]
    rfl
  exact ⟨_,hs,h.upsertEntity hmatch hchange hchangeId hnew hwithId hs⟩

end Upserts

end Unique
end Table
end HangfireStorage
