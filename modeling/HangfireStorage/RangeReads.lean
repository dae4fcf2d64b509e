import HangfireStorage.CollectionReads

/-!
# Range reads

The length of a range is computed in 32 bits. It fits for all ranges of Int32 positions but
the one that has them all.
-/

namespace HangfireStorage
namespace RangeReads

open JobStorageConnection WriteOnlyTransaction

/-- `int.MaxValue`. -/
def maxPosition : ℤ := 2147483647

structure ValidRange (r : ℤ × ℤ) : Prop where
  nonneg : 0 ≤ r.1
  le : r.1 ≤ r.2
  max : r.2 ≤ maxPosition

/-- Consecutive ranges from position `a` to position `n`. -/
inductive Tiles (n : ℤ) : ℤ → List (ℤ × ℤ) → Prop
  | last {a : ℤ} : a ≤ n → Tiles n a [(a,n)]
  | cons {a b : ℤ} {ranges : List (ℤ × ℤ)} :
      a ≤ b → b < n → Tiles n (b+1) ranges → Tiles n a ((a,b)::ranges)

/-- Ranges that tile the positions from 0 are read without loss or repeats; with `read` a read
of one range of `items`. -/
structure SlicesExact {α : Type} (read : ℤ → ℤ → List α) (items : List α)
    (ranges : List (ℤ × ℤ)) : Prop where
  slice : ∀ r ∈ ranges, read r.1 r.2 = positions r.1.toNat r.2.toNat items
  tiled : ∀ n, Tiles n 0 ranges →
    ranges.flatMap (fun r => read r.1 r.2) = positions 0 n.toNat items
  whole : ∀ n, Tiles n 0 ranges → items.length ≤ n+1 →
    ranges.flatMap (fun r => read r.1 r.2) = items

def setItems (key : String) (db : Db) : List String :=
  (orderById (db.set.rows.filter fun i => i.key = key)).map SetRow.value

structure RangesExact (key : String) (ranges : List (ℤ × ℤ)) (db : Db) : Prop where
  set : SlicesExact (fun a b => getRangeFromSet key a b db) (setItems key db) ranges
  list : SlicesExact (fun a b => getRangeFromList key a b db) (getAllItemsFromList key db) ranges

section Slices

variable {α : Type} {items : List α} {ranges : List (ℤ × ℤ)} {n a : ℤ}

/-- The number of positions of the full range wraps around to a negative one. -/
theorem slice_full (items : List α) : slice 0 maxPosition items = [] := by
  have hwrap : Int32.wrap (maxPosition-0+1) = -2147483648 := by decide
  rw [slice,hwrap]
  simp

theorem slice_eq_positions {r : ℤ × ℤ} (hr : ValidRange r) (hfull : r ≠ (0,maxPosition)) :
    slice r.1 r.2 items = positions r.1.toNat r.2.toNat items := by
  obtain ⟨a,b⟩ := r
  obtain ⟨h₀,hle,hmax⟩ := hr
  simp only [maxPosition,ne_eq,Prod.mk.injEq] at h₀ hle hmax hfull
  have hfits : Int32.InRange (b-a+1) := ⟨by omega,by omega⟩
  rw [slice,Int32.wrap_of_inRange hfits,positions,List.drop_take]
  congr 1
  omega

theorem flatMap_positions (h : Tiles n a ranges) (ha : 0 ≤ a) (items : List α) :
    ranges.flatMap (fun r => positions r.1.toNat r.2.toNat items) =
      positions a.toNat n.toNat items := by
  induction h with
  | last _ => simp
  | @cons a b ranges hab hbn _ ih =>
    rw [List.flatMap_cons,ih (by omega),show (b+1).toNat = b.toNat+1 by omega]
    exact positions_append (by omega) (by omega) items

theorem slicesExact_of_each {read : ℤ → ℤ → List α}
    (h : ∀ r ∈ ranges, read r.1 r.2 = positions r.1.toNat r.2.toNat items) :
    SlicesExact read items ranges := by
  have hall {n : ℤ} (ht : Tiles n 0 ranges) :
      ranges.flatMap (fun r => read r.1 r.2) = positions 0 n.toNat items := by
    rw [List.flatMap_congr h]
    exact flatMap_positions ht le_rfl items
  refine ⟨h,fun n => hall,fun n ht hlen => ?_⟩
  rw [hall ht]
  exact positions_of_length_le (by omega)

theorem slicesExact_iff (hr : ∀ r ∈ ranges, ValidRange r) :
    SlicesExact (fun a b => slice a b items) items ranges ↔
      ((0,maxPosition) ∈ ranges → items = []) := by
  constructor
  · intro h hfull
    have hslice := h.slice _ hfull
    simp only [slice_full] at hslice
    have hlen := congrArg List.length hslice
    simp only [List.length_nil,length_positions,Int.toNat_zero] at hlen
    exact List.length_eq_zero_iff.mp (by omega)
  · intro h
    refine slicesExact_of_each fun r hmem => ?_
    by_cases hfull : r = (0,maxPosition)
    · subst hfull
      rw [h hmem]
      simp [slice,positions]
    · exact slice_eq_positions (hr r hmem) hfull

end Slices

section Collections

variable {key : String} {db : Db}

theorem getRangeFromSet_slice (a b : ℤ) :
    getRangeFromSet key a b db = slice a b (setItems key db) := by
  rw [getRangeFromSet,orderById_rows,setItems,orderById_filter,slice,slice,List.map_take,List.map_drop]

theorem setItems_eq_nil : setItems key db = [] ↔ getSetCount key db = 0 := by
  rw [setItems,orderById_filter,getSetCount,List.countP_eq_length_filter,List.map_eq_nil_iff,
    List.length_eq_zero_iff]

theorem getAllItemsFromList_eq_nil : getAllItemsFromList key db = [] ↔ getListCount key db = 0 := by
  rw [getAllItemsFromList,orderByDescendingId_rows,getListCount,List.countP_eq_length_filter,
    List.map_eq_nil_iff,List.filter_reverse,List.reverse_eq_nil_iff,List.length_eq_zero_iff]

end Collections

/-- Range reads are exact except for the range of all positions of a collection that is not empty. -/
theorem ranges_exact_iff (ranges : List (ℤ × ℤ)) (hr : ∀ r ∈ ranges, ValidRange r) (key : String)
    (db : Db) : RangesExact key ranges db ↔
      ((0,maxPosition) ∈ ranges → getSetCount key db = 0 ∧ getListCount key db = 0) := by
  have hset : SlicesExact (fun a b => getRangeFromSet key a b db) (setItems key db) ranges ↔
      ((0,maxPosition) ∈ ranges → getSetCount key db = 0) := by
    simp only [getRangeFromSet_slice]
    rw [slicesExact_iff hr,setItems_eq_nil]
  have hlist : SlicesExact (fun a b => getRangeFromList key a b db) (getAllItemsFromList key db)
      ranges ↔ ((0,maxPosition) ∈ ranges → getListCount key db = 0) := by
    simp only [getRangeFromList_eq]
    rw [slicesExact_iff hr,getAllItemsFromList_eq_nil]
  constructor
  · exact fun h hfull => ⟨hset.mp h.set hfull,hlist.mp h.list hfull⟩
  · exact fun h => ⟨hset.mpr fun hfull => (h hfull).1,hlist.mpr fun hfull => (h hfull).2⟩

def paired : Db := { Db.empty with
  set := (Table.empty.insert ⟨0,"k","a",0,none⟩).insert ⟨0,"k","b",0,none⟩
  list := (Table.empty.insert ⟨0,"k",some "x",none⟩).insert ⟨0,"k",some "y",none⟩ }

def firstAndRest : List (ℤ × ℤ) := [(0,0),(1,maxPosition)]

theorem ranges_exact_two : RangesExact "k" firstAndRest paired ↔
    ((0,maxPosition) ∈ firstAndRest → getSetCount "k" paired = 0 ∧ getListCount "k" paired = 0) :=
  ranges_exact_iff firstAndRest (by
    intro r hr
    obtain rfl | rfl : r = (0,0) ∨ r = (1,maxPosition) := by simpa [firstAndRest] using hr
    · exact ⟨by decide,by decide,by decide⟩
    · exact ⟨by decide,by decide,by decide⟩) "k" paired

/-- The range of all positions comes back empty. -/
theorem full_range_empty :
    getAllItemsFromSet "k" paired = ["a","b"] ∧
    getRangeFromSet "k" 0 maxPosition paired = [] ∧
    getAllItemsFromList "k" paired = [some "y",some "x"] ∧
    getRangeFromList "k" 0 maxPosition paired = [] ∧
    ValidRange (0,maxPosition) ∧ ¬ RangesExact "k" [(0,maxPosition)] paired :=
  ⟨by decide,by decide,by decide,by decide,⟨by decide,by decide,by decide⟩,
    fun h => absurd (h.set.slice _ (List.mem_singleton_self _)) (by decide)⟩

end RangeReads
end HangfireStorage
