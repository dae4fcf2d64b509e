import Mathlib.Data.List.Basic
import Mathlib.Data.List.Perm.Basic
import Mathlib.Data.List.Sort

/-!
# Queries without an order, and Skip/Take loops

A query with no ORDER BY comes back in an order of the database's choosing. Its conditions
compare texts character by character, as C# does; a collation that takes two texts for one is
not modelled.
-/

namespace HangfireStorage

variable {α β : Type*}

/-- The order in which the database happens to return a result. -/
structure RowOrder (α : Type*) where
  arrange : List α → List α
  perm : ∀ l, (arrange l).Perm l

namespace RowOrder

def stored : RowOrder α := ⟨id,fun l => .refl l⟩

/-- Rows satisfying `p` come back before all others. -/
def prefer (p : α → Bool) : RowOrder α where
  arrange l := l.filter p ++ l.filter fun a => !p a
  perm l := List.filter_append_perm p l

def firstOrDefault (o : RowOrder α) (l : List α) : Option α := (o.arrange l).head?

def take (o : RowOrder α) (n : ℕ) (l : List α) : List α := (o.arrange l).take n

theorem mem_arrange (o : RowOrder α) {l : List α} {a : α} : a ∈ o.arrange l ↔ a ∈ l :=
  (o.perm l).mem_iff

theorem firstOrDefault_mem {o : RowOrder α} {l : List α} {a : α}
    (h : o.firstOrDefault l = some a) : a ∈ l :=
  o.mem_arrange.mp (List.mem_of_mem_head? h)

theorem firstOrDefault_eq_none {o : RowOrder α} {l : List α} :
    o.firstOrDefault l = none ↔ l = [] := by
  rw [firstOrDefault,List.head?_eq_none_iff]
  constructor
  · intro h
    have hp := o.perm l
    rw [h] at hp
    exact hp.nil_eq.symm
  · rintro rfl
    exact (o.perm []).eq_nil

/-- The database may well return any row of the result first. -/
theorem firstOrDefault_prefer [DecidableEq α] {l : List α} {a : α} (h : a ∈ l) :
    (prefer fun b => b = a).firstOrDefault l = some a := by
  obtain ⟨m,hm⟩ := Nat.exists_eq_succ_of_ne_zero (List.count_pos_iff.mpr h).ne'
  simp [firstOrDefault,prefer,List.filter_eq,hm,List.replicate_succ]

theorem mem_of_mem_take {o : RowOrder α} {n : ℕ} {l : List α} {a : α} (h : a ∈ o.take n l) :
    a ∈ l :=
  o.mem_arrange.mp (List.mem_of_mem_take h)

theorem take_perm_of_le (o : RowOrder α) {n : ℕ} {l : List α} (h : l.length ≤ n) :
    (o.take n l).Perm l := by
  rw [take,List.take_of_length_le (by rw [(o.perm l).length_eq]; exact h)]
  exact o.perm l

theorem take_nodup (o : RowOrder α) (n : ℕ) {l : List α} (h : l.Nodup) : (o.take n l).Nodup :=
  ((o.perm l).nodup_iff.mpr h).sublist (List.take_sublist n _)

/-- A preferred row is taken as soon as anything is. -/
theorem mem_take_prefer [DecidableEq α] {l : List α} {a : α} {n : ℕ} (h : a ∈ l) (hn : 0 < n) :
    a ∈ (prefer fun b => b = a).take n l := by
  obtain ⟨m,hm⟩ := Nat.exists_eq_succ_of_ne_zero (List.count_pos_iff.mpr h).ne'
  obtain ⟨k,rfl⟩ := Nat.exists_eq_succ_of_ne_zero hn.ne'
  simp [take,prefer,List.filter_eq,hm,List.replicate_succ]

/-- A row put last is left out as soon as anything is. -/
theorem not_mem_take_avoid [DecidableEq α] {l : List α} {a : α} {n : ℕ} (hl : l.Nodup)
    (hn : n < l.length) : a ∉ (prefer fun b => !decide (b = a)).take n l := by
  have hlen := List.length_eq_length_filter_add (l := l) (fun b => !decide (b = a))
  have hone : l.count a ≤ 1 := List.nodup_iff_count_le_one.mp hl a
  have hrep := congrArg List.length (List.filter_eq (l := l) a)
  simp only [Bool.not_not,List.length_replicate] at hlen hrep
  intro h
  rw [take,prefer,List.take_append_of_le_length (by omega)] at h
  have := List.of_mem_filter (List.mem_of_mem_take h)
  simp at this

/-- Lists with the same image can be arranged so that the images still agree. -/
theorem exists_perm_map_eq {f : α → β} {l m : List α} (hp : m.Perm l) :
    ∀ {l' : List α}, l'.map f = l.map f → ∃ m' : List α, m'.Perm l' ∧ m'.map f = m.map f := by
  induction hp with
  | nil =>
    intro l' h
    exact ⟨l',.refl l',h⟩
  | cons a _ ih =>
    intro l' h
    obtain ⟨a',t,rfl,ha,ht⟩ := List.map_eq_cons_iff.mp h
    obtain ⟨m',hm,he⟩ := ih ht
    exact ⟨a'::m',hm.cons a',by simp [ha,he]⟩
  | swap a b l =>
    intro l' h
    obtain ⟨b',t,rfl,hb,ht⟩ := List.map_eq_cons_iff.mp h
    obtain ⟨a',t',rfl,ha,ht'⟩ := List.map_eq_cons_iff.mp ht
    exact ⟨a'::b'::t',.swap b' a' t',by simp [ha,hb,ht']⟩
  | trans _ _ ih₁ ih₂ =>
    intro l' h
    obtain ⟨m₂,hm₂,he₂⟩ := ih₂ h
    obtain ⟨m₁,hm₁,he₁⟩ := ih₁ he₂
    exact ⟨m₁,hm₁.trans hm₂,he₁⟩

theorem exists_arrange_map_eq (o : RowOrder α) {f : α → β} {l l' : List α} (h : l'.map f = l.map f) :
    ∃ o' : RowOrder α, (o'.arrange l').map f = (o.arrange l).map f := by
  classical
  obtain ⟨m,hm,he⟩ := exists_perm_map_eq (o.perm l) h
  refine ⟨⟨fun x => if x = l' then m else x,fun x => ?_⟩,by simp [he]⟩
  split_ifs with hx
  · rw [hx]
    exact hm
  · exact .refl x

end RowOrder

/-- The slices visited by `for (i = 0; i < Count; i += n) Skip(i).Take(n)`. -/
def batches (n : ℕ) (l : List α) : List (List α) :=
  (List.range ((l.length+n-1)/n)).map fun k => (l.drop (k*n)).take n

theorem flatten_slices (n m : ℕ) (l : List α) :
    ((List.range m).map fun k => (l.drop (k*n)).take n).flatten = l.take (m*n) := by
  induction m with
  | zero => simp
  | succ m ih => simp [List.range_succ,ih,Nat.succ_mul,List.take_add]

/-- Each position is visited exactly once, in order. -/
theorem flatten_batches {n : ℕ} (hn : 0 < n) (l : List α) : (batches n l).flatten = l := by
  rw [batches,flatten_slices]
  apply List.take_of_length_le
  have h := Nat.div_add_mod (l.length+n-1) n
  have hm := Nat.mod_lt (l.length+n-1) hn
  rw [Nat.mul_comm]
  omega

/-- The elements at the positions `a..b`. -/
def positions (a b : ℕ) (l : List α) : List α := (l.take (b+1)).drop a

@[simp] theorem length_positions (a b : ℕ) (l : List α) :
    (positions a b l).length = min (b+1) l.length - a := by
  simp [positions]

theorem getElem?_positions {a b i : ℕ} (l : List α) (h : a+i ≤ b) :
    (positions a b l)[i]? = l[a+i]? := by
  rw [positions,List.getElem?_drop,List.getElem?_take_of_lt (by omega)]

/-- Consecutive ranges join without loss or repeats. -/
theorem positions_append {a b c : ℕ} (hab : a ≤ b+1) (hbc : b ≤ c) (l : List α) :
    positions a b l ++ positions (b+1) c l = positions a c l := by
  rw [positions,positions,positions]
  have hsplit : l.take (c+1) = l.take (b+1) ++ (l.take (c+1)).drop (b+1) := by
    have htake := (List.take_append_drop (b+1) (l.take (c+1))).symm
    rwa [List.take_take,Nat.min_eq_left (by omega)] at htake
  conv_rhs => rw [hsplit]
  by_cases ha : a ≤ (l.take (b+1)).length
  · rw [List.drop_append_of_le_length ha]
  · have hlen : l.length ≤ b+1 := by
      rw [List.length_take] at ha
      omega
    have hnil : (l.take (c+1)).drop (b+1) = [] := by
      rw [List.drop_eq_nil_iff,List.length_take]
      omega
    rw [hnil,List.append_nil,List.append_nil]

theorem positions_of_length_le {b : ℕ} {l : List α} (h : l.length ≤ b+1) : positions 0 b l = l := by
  rw [positions,List.drop_zero,List.take_of_length_le h]

/-- Positions counted from the other end. -/
theorem positions_reverse (a b : ℕ) (l : List α) :
    (positions a b l.reverse).reverse = (l.drop (l.length-(b+1))).take (min (b+1) l.length - a) := by
  rw [positions,List.take_reverse,List.drop_reverse,List.reverse_reverse,List.length_drop]
  congr 1
  omega

theorem filter_zipIdx_offset {a b : ℕ} (hab : a ≤ b) (l : List α) (k : ℕ) :
    ((l.zipIdx k).filter fun i => !(decide (i.2 < a) || decide (b < i.2))).map Prod.fst =
      (l.take (b+1-k)).drop (a-k) := by
  induction l generalizing k with
  | nil => simp
  | cons x l ih =>
    rw [List.zipIdx_cons,List.filter_cons]
    by_cases ha : k < a
    · rw [show b+1-k = b+1-(k+1)+1 by omega,show a-k = a-(k+1)+1 by omega]
      simpa [ha] using ih (k+1)
    · by_cases hb : b < k
      · rw [show b+1-k = 0 by omega]
        simpa [hb,show b+1-(k+1) = 0 by omega] using ih (k+1)
      · rw [show b+1-k = b+1-(k+1)+1 by omega,show a-k = 0 by omega]
        simpa [ha,hb,show a-(k+1) = 0 by omega] using ih (k+1)

/-- Keeping elements by their index keeps the elements at these positions. -/
theorem filter_zipIdx_positions {a b : ℕ} (hab : a ≤ b) (l : List α) :
    (l.zipIdx.filter fun i => !(decide (i.2 < a) || decide (b < i.2))).map Prod.fst =
      positions a b l :=
  filter_zipIdx_offset hab l 0

/-- Dropping rows by their ids drops the rows that were picked. -/
theorem filter_not_mem_zipIdx {κ : Type*} [DecidableEq κ] {f : α → κ} {l : List α}
    (h : l.Pairwise fun a b => f a ≠ f b) (p : α × ℕ → Bool) :
    (l.filter fun a => !decide (f a ∈ (l.zipIdx.filter p).map fun i => f i.1)) =
      (l.zipIdx.filter fun i => !p i).map Prod.fst := by
  have hfilter (q : α → Bool) : l.filter q = (l.zipIdx.filter (q ∘ Prod.fst)).map Prod.fst := by
    rw [← List.filter_map,List.zipIdx_map_fst]
  rw [hfilter]
  congr 1
  apply List.filter_congr
  rintro ⟨a,i⟩ hi
  have hnd : (l.map f).Nodup := List.pairwise_map.mpr h
  have hai : (l.map f)[i]? = some (f a) := by
    simp [List.mem_zipIdx_iff_getElem?.mp hi]
  rw [Function.comp_apply]
  congr 1
  rw [Bool.eq_iff_iff,decide_eq_true_iff,List.mem_map]
  constructor
  · rintro ⟨⟨b,j⟩,hb,hf⟩
    obtain ⟨hbj,hp⟩ := List.mem_filter.mp hb
    rw [List.mem_zipIdx_iff_getElem?] at hi hbj
    have hij : i = j := by
      refine (List.getElem?_inj (List.getElem?_eq_some_iff.mp hai).1 hnd).mp ?_
      simp [hi,hbj,hf]
    subst hij
    obtain rfl : a = b := by simpa [hi] using hbj
    exact hp
  · exact fun hp => ⟨(a,i),List.mem_filter.mpr ⟨hi,hp⟩,rfl⟩

/-- Looking up a column whose values are distinct. -/
theorem find?_eq_some_of_distinct {κ : Type*} [DecidableEq κ] {f : α → κ} {l : List α}
    (h : l.Pairwise fun a b => f a ≠ f b) {k : κ} {a : α} :
    l.find? (fun b => f b = k) = some a ↔ a ∈ l ∧ f a = k := by
  induction l with
  | nil => simp
  | cons b l ih =>
    rw [List.pairwise_cons] at h
    by_cases hb : f b = k
    · simp only [List.find?_cons,hb,decide_true,Option.some.injEq,List.mem_cons]
      constructor
      · rintro rfl
        exact ⟨.inl rfl,hb⟩
      · rintro ⟨rfl | ha,hk⟩
        · rfl
        · exact absurd (hb.trans hk.symm) (h.1 a ha)
    · simp only [List.find?_cons,hb,decide_false,ih h.2,List.mem_cons]
      constructor
      · exact fun ⟨ha,hk⟩ => ⟨.inr ha,hk⟩
      · rintro ⟨rfl | ha,hk⟩
        · exact absurd hk hb
        · exact ⟨ha,hk⟩

theorem countP_add_length_filter (p : α → Bool) (l : List α) :
    l.countP p + (l.filter fun a => !p a).length = l.length := by
  rw [← List.countP_eq_length_filter]
  have h := List.length_eq_countP_add_countP (l := l) p
  simp only [Bool.not_eq_true,Bool.decide_eq_false] at h
  exact h.symm

/-- Counting a union: the second part counts only what the first leaves. -/
theorem countP_or_eq (p q : α → Bool) (l : List α) :
    l.countP (fun a => p a || q a) = l.countP p + l.countP fun a => q a && !p a := by
  induction l with
  | nil => rfl
  | cons a l ih =>
    simp only [List.countP_cons,ih]
    cases p a <;> cases q a <;> simp <;> omega

end HangfireStorage
