import HangfireStorage.Entities
import HangfireStorage.Query

/-!
# Upserts and deletions in batches
-/

namespace HangfireStorage
namespace SqlUtil

variable {ρ : Type} [Row ρ]

def singleOrDefault {α : Type} : List α → Except Fault (Option α)
  | [] => .ok none
  | [a] => .ok (some a)
  | _ => .error .invalidOperation

theorem singleOrDefault_eq_ok {α : Type} {l : List α} {o : Option α}
    (h : singleOrDefault l = .ok o) : l = o.toList := by
  unfold singleOrDefault at h
  split at h <;> cases h <;> rfl

@[simp] theorem singleOrDefault_toList {α : Type} (o : Option α) :
    singleOrDefault o.toList = .ok o := by
  cases o <;> rfl

/-- A unique column never makes a lookup throw. -/
theorem singleOrDefault_of_distinct {α κ : Type} [DecidableEq κ] {f : α → κ} {l : List α}
    (h : l.Pairwise fun a b => f a ≠ f b) (k : κ) :
    singleOrDefault (l.filter fun a => f a = k) = .ok (l.find? fun a => f a = k) := by
  induction l with
  | nil => rfl
  | cons a l ih =>
    rw [List.pairwise_cons] at h
    by_cases ha : f a = k
    · have hrest : l.filter (fun b => f b = k) = [] :=
        List.filter_eq_nil_iff.mpr fun b hb he => h.1 b hb (ha.trans (of_decide_eq_true he).symm)
      simp [ha,hrest,singleOrDefault]
    · simpa [ha] using ih h.2

/-- The insert or update that ends an upsert. -/
def saveEntity (changeAction keysetAction : ρ → ρ) (new : ρ) (t : Table ρ) : Option ρ → Table ρ
  | none => t.insert (changeAction (keysetAction new))
  | some entity => t.put (changeAction entity)

def upsertEntity (matchFunc : ρ → Bool) (changeAction keysetAction : ρ → ρ) (new : ρ)
    (t : Table ρ) : Except Fault (Table ρ) :=
  (singleOrDefault (t.rows.filter matchFunc)).map (saveEntity changeAction keysetAction new t)

/-- Looking a row up by its id finds at most one. -/
@[simp] theorem singleOrDefault_id (t : Table ρ) (i : ℤ) :
    singleOrDefault (t.rows.filter fun r => Row.id r = i) = .ok (t.byId i) := by
  cases h : t.byId i with
  | none =>
    have hn : t.rows.filter (fun r => Row.id r = i) = [] :=
      List.filter_eq_nil_iff.mpr fun r hr => by simpa using Table.byId_eq_none.mp h r hr
    rw [hn,singleOrDefault]
  | some r =>
    obtain ⟨hr,rfl⟩ := Table.byId_eq_some.mp h
    rw [Table.filter_id hr,singleOrDefault]

def deleteBatchSize : ℕ := 250

/-- One delete statement and the number of rows it reports. -/
def deleteBatch (batch : List ℤ) (t : Table ρ) : Table ρ × ℕ :=
  (t.delete fun r => batch.contains (Row.id r),t.rows.countP fun r => batch.contains (Row.id r))

def deleteBatches : List (List ℤ) → Table ρ → ℕ → Table ρ × ℕ
  | [], t, count => (t,count)
  | b::bs, t, count => deleteBatches bs (deleteBatch b t).1 (count + (deleteBatch b t).2)

def deleteByInt32Id (ids : List ℤ) (t : Table ρ) : Table ρ × ℕ :=
  deleteBatches (batches deleteBatchSize ids) t 0

theorem deleteBatches_eq (bs : List (List ℤ)) (t : Table ρ) (count : ℕ) :
    deleteBatches bs t count =
      (t.delete fun r => bs.flatten.contains (Row.id r),
        count + t.rows.countP fun r => bs.flatten.contains (Row.id r)) := by
  induction bs generalizing t count with
  | nil => simp [deleteBatches,Table.ext_iff]
  | cons b bs ih =>
    rw [deleteBatches,ih]
    refine Prod.ext (Table.ext ?_ rfl) ?_
    · simp [deleteBatch,List.filter_filter,Bool.and_comm]
    · simp only [deleteBatch,Table.rows_delete,List.countP_filter,List.flatten_cons,
        List.contains_append,Nat.add_assoc]
      rw [countP_or_eq]

/-- Deleting in batches is one deletion of all the ids. -/
theorem deleteByInt32Id_eq (ids : List ℤ) (t : Table ρ) :
    deleteByInt32Id ids t = (t.delete fun r => ids.contains (Row.id r),
      t.rows.countP fun r => ids.contains (Row.id r)) := by
  rw [deleteByInt32Id,deleteBatches_eq,flatten_batches (by decide),Nat.zero_add]

end SqlUtil
end HangfireStorage
