import HangfireStorage.Table
import Mathlib.Algebra.BigOperators.Group.List.Basic

/-!
# Sums by key

The rows of one key are summed in any commutative monoid, so that order,
grouping and batching cannot show in the result.
-/

namespace HangfireStorage

variable {α κ M : Type*} [DecidableEq κ] [AddCommMonoid M] (key : α → κ) (weight : α → M)

def sumOf (k : κ) (l : List α) : M := ((l.filter fun a => key a = k).map weight).sum

/-- LINQ's `GroupBy`: the keys in the order of their first appearance. -/
def groupBy (l : List α) : List (κ × List α) :=
  (l.map key).eraseDups.map fun k => (k,l.filter fun a => key a = k)

variable {key weight} {k : κ}

@[simp] theorem sumOf_nil : sumOf key weight k [] = 0 := rfl

theorem sumOf_cons (a : α) (l : List α) :
    sumOf key weight k (a::l) = (if key a = k then weight a else 0) + sumOf key weight k l := by
  by_cases h : key a = k <;> simp [sumOf,h]

@[simp] theorem sumOf_append (l m : List α) :
    sumOf key weight k (l ++ m) = sumOf key weight k l + sumOf key weight k m := by
  simp [sumOf]

theorem sumOf_perm {l m : List α} (h : l.Perm m) : sumOf key weight k l = sumOf key weight k m :=
  ((h.filter _).map weight).sum_eq

/-- Split the rows of a key by any other property. -/
theorem sumOf_filter_add (p : α → Bool) (l : List α) :
    sumOf key weight k (l.filter p) + sumOf key weight k (l.filter fun a => !p a) =
      sumOf key weight k l := by
  rw [← sumOf_append]
  exact sumOf_perm (List.filter_append_perm p l)

theorem sumOf_eq_zero {l : List α} (h : ∀ a ∈ l, key a ≠ k) : sumOf key weight k l = 0 := by
  rw [sumOf,List.filter_eq_nil_iff.mpr (by simpa using h)]
  rfl

/-- A key that occurs at most once is summed by its row, if there is one. -/
theorem sumOf_of_pairwise {l : List α} (h : l.Pairwise fun a b => key a ≠ key b) {a : α}
    (ha : a ∈ l) : sumOf key weight (key a) l = weight a := by
  induction l with
  | nil => simp at ha
  | cons b l ih =>
    rw [List.pairwise_cons] at h
    rw [sumOf_cons]
    rcases List.mem_cons.mp ha with rfl | ha
    · rw [if_pos rfl,sumOf_eq_zero fun c hc => (h.1 c hc).symm,add_zero]
    · rw [if_neg (h.1 a ha),ih h.2 ha,zero_add]

omit [AddCommMonoid M] in
theorem keys_groupBy (l : List α) : (groupBy key l).map Prod.fst = (l.map key).eraseDups := by
  simp [groupBy,Function.comp_def]

theorem nodup_eraseDups : (l : List κ) → l.eraseDups.Nodup
  | [] => by simp
  | a::l => by
    rw [List.eraseDups_cons,List.nodup_cons]
    exact ⟨by simp [List.mem_eraseDups],nodup_eraseDups (l.filter fun b => !b == a)⟩
termination_by l => l.length
decreasing_by exact Nat.lt_succ_of_le (List.length_filter_le _ _)

/-- Grouping first and summing the groups loses nothing. -/
theorem sumOf_groupBy (l : List α) :
    sumOf Prod.fst (fun g : κ × List α => (g.2.map weight).sum) k (groupBy key l) =
      sumOf key weight k l := by
  have hnd : (groupBy key l).Pairwise fun a b => a.1 ≠ b.1 := by
    rw [← List.pairwise_map (f := Prod.fst),keys_groupBy]
    exact nodup_eraseDups _
  by_cases hk : k ∈ l.map key
  · have hg : (k,l.filter fun a => key a = k) ∈ groupBy key l :=
      List.mem_map.mpr ⟨k,List.mem_eraseDups.mpr hk,rfl⟩
    exact sumOf_of_pairwise hnd hg
  · have hl : ∀ a ∈ l, key a ≠ k := fun a ha he => hk (List.mem_map.mpr ⟨a,ha,he⟩)
    have hg : ∀ g ∈ groupBy key l, g.1 ≠ k := by
      intro g hg he
      obtain ⟨k',hk',rfl⟩ := List.mem_map.mp hg
      exact hk (he ▸ List.mem_eraseDups.mp hk')
    rw [sumOf_eq_zero hl,sumOf_eq_zero hg]

end HangfireStorage
