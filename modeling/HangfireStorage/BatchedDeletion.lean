import HangfireStorage.Loops
import HangfireStorage.SqlUtil

/-!
# The loop of DeleteByInt32Id

The index of the loop is an Int32. Past the last multiple of the batch size it turns negative,
and the batches are visited again.
-/

namespace HangfireStorage
namespace BatchedDeletion

open Loop
open SqlUtil (deleteBatch deleteBatches deleteBatches_eq deleteBatchSize)

variable {ρ : Type} [Row ρ]

/-- The variables of the loop, and a record of its batches with the positions they come from. -/
structure State (ρ : Type) [Row ρ] where
  i : ℤ
  table : Table ρ
  count : ℤ
  visited : List (List (ℤ × ℕ))

/-- `Skip` and `Take`; a negative number of ids to skip is none. -/
def slice (ids : List ℤ) (i : ℤ) : List (ℤ × ℕ) := (ids.zipIdx.drop i.toNat).take deleteBatchSize

def body (ids : List ℤ) (_ : Unit) (s : State ρ) : State ρ × Option ℤ :=
  if s.i < ids.length then
    let batch := slice ids s.i
    let deleted := deleteBatch (batch.map Prod.fst) s.table
    (⟨Int32.wrap (s.i+deleteBatchSize),deleted.1,Int32.wrap (s.count+deleted.2),s.visited ++ [batch]⟩,
      none)
  else (s,some s.count)

/-- The call, cut after `n` rounds of the loop. -/
def deleteByInt32Id (ids : List ℤ) (t : Table ρ) (n : ℕ) : State ρ × Option ℤ :=
  if ids = [] then (⟨0,t,0,[]⟩,some 0) else run (body ids) n (fun _ => ()) ⟨0,t,0,[]⟩

/-- The rows of the ids are gone, the others as they were, and the count is right. -/
structure Deleted (ids : List ℤ) (t : Table ρ) (s : State ρ) (count : ℤ) : Prop where
  rows : s.table.rows = t.rows.filter fun r => !ids.contains (Row.id r)
  count : count + s.table.rows.length = t.rows.length

/-- Every position of the collection was in one batch, and no batch was too long. -/
structure VisitedOnce (ids : List ℤ) (s : State ρ) : Prop where
  once : ∀ p < ids.length, (s.visited.flatten.map Prod.snd).count p = 1
  short : ∀ batch ∈ s.visited, batch.length ≤ deleteBatchSize

def EqualsOneDeletion (ids : List ℤ) (t : Table ρ) : Prop :=
  ∃ n s count, deleteByInt32Id ids t n = (s,some count) ∧ Deleted ids t s count ∧ VisitedOnce ids s

def after (ids : List ℤ) (t : Table ρ) (k : ℕ) : State ρ where
  i := (k*deleteBatchSize : ℕ)
  table := t.delete fun r => (ids.take (k*deleteBatchSize)).contains (Row.id r)
  count := t.rows.countP fun r => (ids.take (k*deleteBatchSize)).contains (Row.id r)
  visited := (List.range k).map fun j => (ids.zipIdx.drop (j*deleteBatchSize)).take deleteBatchSize

section Rounds

variable {ids : List ℤ} {t : Table ρ} {s : State ρ} {count : ℤ} {k n : ℕ}

theorem countP_le (t : Table ρ) (ids : List ℤ) :
    (t.rows.countP fun r => ids.contains (Row.id r)) ≤ ids.length := by
  rw [List.countP_eq_length_filter,← List.length_map (f := Row.id)]
  refine (List.subperm_of_subset (t.nodup_ids _) fun i hi => ?_).length_le
  obtain ⟨r,hr,rfl⟩ := List.mem_map.mp hi
  simpa using (List.mem_filter.mp hr).2

theorem deleteBatch_append (a b : List ℤ) (t : Table ρ) :
    (deleteBatch b (t.delete fun r => a.contains (Row.id r))).1 =
      t.delete (fun r => (a ++ b).contains (Row.id r)) ∧
    (t.rows.countP fun r => a.contains (Row.id r)) +
      (deleteBatch b (t.delete fun r => a.contains (Row.id r))).2 =
        t.rows.countP fun r => (a ++ b).contains (Row.id r) := by
  have h := deleteBatches_eq [a,b] t 0
  simp only [deleteBatches,List.flatten_cons,List.flatten_nil,List.append_nil,Nat.zero_add] at h
  exact Prod.ext_iff.mp h

theorem map_slice (ids : List ℤ) (i : ℤ) :
    (slice ids i).map Prod.fst = (ids.drop i.toNat).take deleteBatchSize := by
  rw [slice,List.map_take,List.map_drop,List.zipIdx_map_fst]

theorem after_zero (ids : List ℤ) (t : Table ρ) : after ids t 0 = ⟨0,t,0,[]⟩ := by
  simp [after,Table.ext_iff]

theorem inRange_countP (hcount : ids.length ≤ 2147483647) (m : ℕ) :
    Int32.InRange (t.rows.countP fun r => (ids.take m).contains (Row.id r)) := by
  have hle := countP_le t (ids.take m)
  have htake := List.length_take_le' m ids
  unfold Int32.InRange
  omega

/-- A round visits the next batch; only the index may not be what it should be. -/
theorem body_after (hcount : ids.length ≤ 2147483647) (hk : k*deleteBatchSize < ids.length) :
    body ids () (after ids t k) =
      ({ after ids t (k+1) with i := Int32.wrap ((k+1)*deleteBatchSize : ℕ) },none) := by
  have hlt : (after ids t k).i < ids.length := by
    simp only [after]
    exact_mod_cast hk
  obtain ⟨htable,hdeleted⟩ := deleteBatch_append (ids.take (k*deleteBatchSize))
    ((ids.drop (k*deleteBatchSize)).take deleteBatchSize) t
  rw [← List.take_add,← Nat.succ_mul] at htable hdeleted
  have hindex : (after ids t k).i + deleteBatchSize = ((k+1)*deleteBatchSize : ℕ) := by
    simp only [after,Nat.succ_mul]
    push_cast
    rfl
  have hsum : (after ids t k).count +
      (deleteBatch ((slice ids (after ids t k).i).map Prod.fst) (after ids t k).table).2 =
        (after ids t (k+1)).count := by
    simp only [after,map_slice,Int.toNat_natCast]
    exact_mod_cast hdeleted
  have hvisited : (after ids t k).visited ++ [slice ids (after ids t k).i] =
      (after ids t (k+1)).visited := by
    simp only [after,slice,List.range_succ,List.map_append,List.map_cons,List.map_nil,
      Int.toNat_natCast]
  have hrows : (deleteBatch ((slice ids (after ids t k).i).map Prod.fst) (after ids t k).table).1 =
      (after ids t (k+1)).table := by
    simp only [after,map_slice,Int.toNat_natCast]
    exact htable
  have hin : Int32.InRange (after ids t (k+1)).count := inRange_countP hcount _
  rw [body,if_pos hlt]
  dsimp only
  rw [hindex,hsum,hvisited,hrows,Int32.wrap_of_inRange hin]

theorem body_after_of_inRange (hcount : ids.length ≤ 2147483647)
    (hk : k*deleteBatchSize < ids.length) (hin : (k+1)*deleteBatchSize ≤ 2147483647) :
    body ids () (after ids t k) = (after ids t (k+1),none) := by
  have hrange : Int32.InRange ((k+1)*deleteBatchSize : ℕ) := by
    unfold Int32.InRange
    omega
  rw [body_after hcount hk,Int32.wrap_of_inRange hrange]
  rfl

theorem positions_after (ids : List ℤ) (t : Table ρ) (k : ℕ) :
    (after ids t k).visited.flatten.map Prod.snd = (List.range ids.length).take (k*deleteBatchSize) := by
  simp only [after]
  rw [flatten_slices,List.map_take,List.zipIdx_map_snd,List.range_eq_range']

theorem deleted_after (h : ids.length ≤ k*deleteBatchSize) :
    Deleted ids t (after ids t k) (after ids t k).count := by
  have htake : ids.take (k*deleteBatchSize) = ids := List.take_of_length_le h
  constructor
  · simp only [after,htake,Table.rows_delete]
  · simp only [after,htake,Table.rows_delete]
    exact_mod_cast countP_add_length_filter (fun r => ids.contains (Row.id r)) t.rows

theorem visitedOnce_after (h : ids.length ≤ k*deleteBatchSize) : VisitedOnce ids (after ids t k) where
  once p hp := by
    rw [positions_after,List.take_of_length_le (by simpa using h)]
    exact List.count_eq_one_of_mem List.nodup_range (List.mem_range.mpr hp)
  short batch hbatch := by
    simp only [after] at hbatch
    obtain ⟨j,-,rfl⟩ := List.mem_map.mp hbatch
    exact List.length_take_le _ _

/-- Up to the last multiple of the batch size the loop runs through the batches and stops. -/
theorem equalsOneDeletion_of_le (h : ids.length ≤ 2147483500) (t : Table ρ) :
    EqualsOneDeletion ids t := by
  by_cases hids : ids = []
  · subst hids
    refine ⟨0,after [] t 0,_,?_,deleted_after (Nat.zero_le _),visitedOnce_after (Nat.zero_le _)⟩
    rw [deleteByInt32Id,if_pos rfl,after_zero]
  · let m := (ids.length+249)/250
    have hm : ids.length ≤ m*deleteBatchSize := by
      show ids.length ≤ (ids.length+249)/250*250
      omega
    have hgo : ∀ k < m, body ids () (after ids t k) = (after ids t (k+1),none) := by
      intro k (hk : k < (ids.length+249)/250)
      refine body_after_of_inRange (by omega) ?_ ?_ <;> unfold deleteBatchSize <;> omega
    have hstop : body ids () (after ids t m) = (after ids t m,some (after ids t m).count) := by
      have hover : ¬ (after ids t m).i < ids.length := by
        simp only [after]
        exact_mod_cast not_lt.mpr hm
      rw [body,if_neg hover]
    refine ⟨m+1,after ids t m,_,?_,deleted_after hm,visitedOnce_after hm⟩
    rw [deleteByInt32Id,if_neg hids,← after_zero ids t]
    exact run_of_states_stop (after ids t) hgo hstop

theorem body_visited (ids : List ℤ) (s : State ρ) :
    ∃ bs, (body ids () s).1.visited = s.visited ++ bs := by
  unfold body
  split_ifs
  · exact ⟨_,rfl⟩
  · exact ⟨[],by simp⟩

theorem body_stop {s s' : State ρ} (h : body ids () s = (s',some count)) :
    s' = s ∧ count = s.count ∧ (ids.length : ℤ) ≤ s.i := by
  unfold body at h
  split_ifs at h with hi <;> obtain ⟨hs,hr⟩ := Prod.mk.inj h
  · cases hr
  · exact ⟨hs.symm,(Option.some.inj hr).symm,not_lt.mp hi⟩

theorem body_go {s s' : State ρ} (h : body ids () s = (s',none)) : s.i < ids.length ∧
    s'.table = (deleteBatch ((slice ids s.i).map Prod.fst) s.table).1 ∧
    s'.count = Int32.wrap (s.count + (deleteBatch ((slice ids s.i).map Prod.fst) s.table).2) := by
  unfold body at h
  split_ifs at h with hi <;> obtain ⟨hs,hr⟩ := Prod.mk.inj h
  · rw [← hs]
    exact ⟨hi,rfl,rfl⟩
  · cases hr

/-- The first id was in two batches, or twice in one. -/
def Revisited (s : State ρ) : Prop := 2 ≤ (s.visited.flatten.map Prod.snd).count 0

theorem body_revisited {s s' : State ρ} {r : Option ℤ} (hs : Revisited s)
    (h : body ids () s = (s',r)) : Revisited s' := by
  obtain ⟨bs,hbs⟩ := body_visited ids s
  rw [h] at hbs
  rw [Revisited,show s'.visited = s.visited ++ bs from hbs,List.flatten_append,List.map_append,
    List.count_append]
  exact Nat.le_add_right_of_le hs

theorem slice_of_nonpos {i : ℤ} (hi : i ≤ 0) : slice ids i = ids.zipIdx.take deleteBatchSize := by
  rw [slice,Int.toNat_of_nonpos hi,List.drop_zero]

theorem revisited_after {i : ℤ} (hi : i ≤ 0) (hids : 0 < ids.length)
    (h : ids.length ≤ k*deleteBatchSize) :
    ∃ v, body ids () { after ids t k with i := i } = (v,none) ∧ Revisited v := by
  have hlt : i < ids.length := by omega
  refine ⟨_,if_pos hlt,?_⟩
  have hfirst : ((after ids t k).visited.flatten.map Prod.snd).count 0 = 1 :=
    (visitedOnce_after h).once 0 hids
  have hsecond : 0 < ((slice ids i).map Prod.snd).count 0 := by
    rw [List.count_pos_iff,slice_of_nonpos hi,List.map_take,List.zipIdx_map_snd,
      ← List.range_eq_range',List.take_range,List.mem_range]
    exact Nat.lt_min.mpr ⟨by decide,hids⟩
  rw [Revisited,List.flatten_append,List.map_append,List.count_append,List.flatten_singleton]
  exact Nat.add_le_add hfirst.ge hsecond

/-- Beyond the last multiple of the batch size the first batch is visited again. -/
theorem not_equalsOneDeletion (hcount : ids.length ≤ 2147483647) (h : 2147483500 < ids.length)
    (t : Table ρ) : ¬ EqualsOneDeletion ids t := by
  rintro ⟨n,s,count,hrun,-,hvisited⟩
  have hids : ids ≠ [] := by
    rintro rfl
    simp at h
  obtain ⟨k,hk⟩ : ∃ k, k = 8589934 := ⟨_,rfl⟩
  have hbatch (j : ℕ) : j*deleteBatchSize = j*250 := rfl
  -- the state after the first lap, with the index that has wrapped
  let u : State ρ := { after ids t (k+1) with i := -2147483546 }
  have hlap : run (body ids) k (fun _ => ()) (after ids t 0) = (after ids t k,none) := by
    refine run_of_states (after ids t) fun j hj => body_after_of_inRange hcount ?_ ?_ <;>
      rw [hbatch] <;> omega
  have hwrap : body ids () (after ids t k) = (u,none) := by
    have hindex : Int32.wrap ((k+1)*deleteBatchSize : ℕ) = -2147483546 := by
      rw [hk]
      decide
    rw [body_after hcount (by rw [hbatch]; omega),hindex]
  have hagain : ∃ v, body ids () u = (v,none) ∧ Revisited v :=
    revisited_after (by decide) (by omega) (by rw [hbatch]; omega)
  rw [deleteByInt32Id,if_neg hids,← after_zero ids t] at hrun
  obtain ⟨j,hend⟩ := ends_from hlap hrun
  let I := fun (_ : ℕ → Unit) s => s = after ids t k ∨ s = u ∨ Revisited s
  have hgo : ∀ is s s', I is s → body ids (is 0) s = (s',none) → I (later is) s' := by
    rintro is s s' (hs | hs | hs) hb
    · rw [hs] at hb
      exact .inr (.inl (Prod.mk.inj (hb.symm.trans hwrap)).1)
    · rw [hs] at hb
      obtain ⟨v,hv,hrev⟩ := hagain
      exact .inr (.inr ((Prod.mk.inj (hb.symm.trans hv)).1 ▸ hrev))
    · exact .inr (.inr (body_revisited hs hb))
  obtain ⟨is,s₀,hs₀,hlast⟩ := run_exit hgo (.inl rfl) hend
  obtain ⟨rfl,-,-⟩ := body_stop hlast
  rcases hs₀ with hs | hs | hrev
  · rw [hs] at hlast
    cases (Prod.mk.inj (hlast.symm.trans hwrap)).2
  · rw [hs] at hlast
    obtain ⟨v,hv,-⟩ := hagain
    cases (Prod.mk.inj (hlast.symm.trans hv)).2
  · have hone := hvisited.once 0 (by omega)
    unfold Revisited at hrev
    omega

theorem deleteBatch_of_deleted {batch : List ℤ} (hbatch : ∀ id ∈ batch, id ∈ ids) {u : Table ρ}
    (hu : u.rows = t.rows.filter fun r => !ids.contains (Row.id r)) :
    (deleteBatch batch u).1.rows = u.rows ∧ (deleteBatch batch u).2 = 0 := by
  have hgone : ∀ r ∈ u.rows, Row.id r ∉ batch := by
    intro r hr hmem
    rw [hu,List.mem_filter] at hr
    simpa [hbatch _ hmem] using hr.2
  constructor
  · exact List.filter_eq_self.mpr fun r hr => by simpa using hgone r hr
  · exact List.countP_eq_zero.mpr fun r hr => by simpa using hgone r hr

/-- A call that returns has deleted what it should and counted it, however often it visits a
batch. -/
theorem deleted_of_ends (hcount : ids.length ≤ 2147483647)
    (h : deleteByInt32Id ids t n = (s,some count)) : Deleted ids t s count := by
  by_cases hids : ids = []
  · subst hids
    rw [deleteByInt32Id,if_pos rfl] at h
    cases h
    exact ⟨by simp,by simp⟩
  · rw [deleteByInt32Id,if_neg hids,← after_zero ids t] at h
    -- the first lap is under way, or over and with it the deletion
    let I := fun (_ : ℕ → Unit) s =>
      (∃ k, s = after ids t k) ∨ Deleted ids t s s.count ∧ Int32.InRange s.count
    have hgo : ∀ is s s', I is s → body ids (is 0) s = (s',none) → I (later is) s' := by
      rintro is s s' (⟨k,rfl⟩ | ⟨hs,hin⟩) hb
      · have hk : k*deleteBatchSize < ids.length := by
          have := (body_go hb).1
          simp only [after] at this
          exact_mod_cast this
        obtain hnext | hwrap := Nat.lt_or_ge 2147483647 ((k+1)*deleteBatchSize)
        · have hdone := deleted_after (t := t) (k := k+1) (by omega : ids.length ≤ _)
          rw [(Prod.mk.inj (hb.symm.trans (body_after hcount hk))).1]
          exact .inr ⟨⟨hdone.rows,hdone.count⟩,inRange_countP hcount _⟩
        · rw [(Prod.mk.inj (hb.symm.trans (body_after_of_inRange hcount hk hwrap))).1]
          exact .inl ⟨k+1,rfl⟩
      · obtain ⟨-,htable,hdeleted⟩ := body_go hb
        have hbatch : ∀ id ∈ (slice ids s.i).map Prod.fst, id ∈ ids := by
          intro id hid
          rw [map_slice] at hid
          exact List.mem_of_mem_drop (List.mem_of_mem_take hid)
        obtain ⟨hrows,hzero⟩ := deleteBatch_of_deleted hbatch hs.rows
        have hsame : s'.count = s.count := by
          rw [hdeleted,hzero,Nat.cast_zero,add_zero,Int32.wrap_of_inRange hin]
        have hrows' : s'.table.rows = s.table.rows := by rw [htable,hrows]
        exact .inr ⟨⟨hrows'.trans hs.rows,by rw [hsame,hrows',hs.count]⟩,hsame ▸ hin⟩
    obtain ⟨is,s₀,hs₀,hlast⟩ := run_exit hgo (.inl ⟨0,rfl⟩) h
    obtain ⟨rfl,rfl,hover⟩ := body_stop hlast
    obtain ⟨k,rfl⟩ | hs₀ := hs₀
    · exact deleted_after (by simp only [after] at hover; exact_mod_cast hover)
    · exact hs₀.1

/-- What the call does where the other modules take the loop to visit the batches. -/
theorem deleted_eq (h : Deleted ids t s count) :
    s.table.rows = (SqlUtil.deleteByInt32Id ids t).1.rows ∧ count = (SqlUtil.deleteByInt32Id ids t).2 := by
  obtain ⟨hrows,hcount⟩ := h
  have hlen := countP_add_length_filter (fun r => ids.contains (Row.id r)) t.rows
  rw [hrows] at hcount
  rw [SqlUtil.deleteByInt32Id_eq]
  refine ⟨hrows,?_⟩
  dsimp only
  omega

theorem wrap_even {x : ℤ} (h : x % 2 = 0) : Int32.wrap x % 2 = 0 := by
  rw [Int32.wrap,Int.bmod_def]
  split_ifs <;> omega

/-- The index is even and never gets as far as the largest Int32. -/
theorem never_ends (hmax : ids.length = 2147483647) (t : Table ρ) (n : ℕ) :
    (deleteByInt32Id ids t n).2 = none := by
  have hids : ids ≠ [] := by
    rintro rfl
    cases hmax
  rw [deleteByInt32Id,if_neg hids]
  let I := fun (_ : ℕ → Unit) (s : State ρ) => s.i % 2 = 0 ∧ Int32.InRange s.i
  refine run_diverges (I := I) ?_ ⟨rfl,(by decide : Int32.InRange 0)⟩ n
  rintro is s ⟨heven,hin⟩
  have hlt : s.i < ids.length := by
    have := hin.2
    omega
  refine ⟨_,if_pos hlt,wrap_even ?_,Int32.wrap_inRange _⟩
  show (s.i+250) % 2 = 0
  omega

end Rounds

/-- For a collection with as many ids as an Int32 can count, the call equals one deletion exactly
if the last multiple of the batch size is not exceeded. -/
theorem deleteByInt32Id_exact_iff (ids : List ℤ) (hcount : ids.length ≤ 2147483647) (t : Table ρ) :
    EqualsOneDeletion ids t ↔ ids.length ≤ 2147483500 := by
  constructor
  · intro h
    by_contra hlong
    exact not_equalsOneDeletion hcount (by omega) t h
  · exact fun h => equalsOneDeletion_of_le h t

/-- The first id of the first batch comes again at the end of the second. -/
def repeatedIds : List ℤ := 1 :: ((List.range 300).map fun i : ℕ => (i:ℤ)+2) ++ [1]

theorem deleteByInt32Id_exact_repeated : deleteBatchSize < repeatedIds.length ∧
    EqualsOneDeletion repeatedIds ((Table.empty.insert (⟨0,"k",5,none⟩ : CounterRow)).insert
      ⟨0,"k",6,none⟩) := by
  have hlength : repeatedIds.length = 302 := by simp [repeatedIds]
  rw [hlength]
  exact ⟨by decide,(deleteByInt32Id_exact_iff _ (by rw [hlength]; decide) _).mpr (by rw [hlength]; decide)⟩

/-- One id too many, and as many as can be counted. -/
theorem deleteByInt32Id_revisits :
    ¬ EqualsOneDeletion (List.replicate 2147483501 1) (Table.empty : Table CounterRow) ∧
    ∀ n, (deleteByInt32Id (List.replicate 2147483647 1) (Table.empty : Table CounterRow) n).2 = none :=
  ⟨not_equalsOneDeletion (List.length_replicate.trans_le (by decide))
    ((by decide : 2147483500 < 2147483501).trans_eq List.length_replicate.symm) _,
    never_ends List.length_replicate _⟩

end BatchedDeletion
end HangfireStorage
