import Mathlib.Data.List.Nodup
import Mathlib.Data.Set.Card
import Mathlib.Logic.Function.Basic

/-!
# Lists of pairs as finite maps

A list of pairs with distinct keys represents a partial function. Replacing the pair of a key
where it stands, or adding one at the end, updates the function.
-/

namespace HangfireStorage
namespace FiniteMap

variable {α β : Type*}

structure Represents (l : List (α × β)) (m : α → Option β) : Prop where
  distinct : (l.map Prod.fst).Nodup
  mem_iff : ∀ a b, (a,b) ∈ l ↔ m a = some b

namespace Represents

variable {l l' : List (α × β)} {m : α → Option β} {a : α} {b : β}

theorem nil : Represents ([] : List (α × β)) fun _ => none := ⟨.nil,by simp⟩

theorem perm (h : Represents l m) (hp : l'.Perm l) : Represents l' m where
  distinct := (hp.map Prod.fst).nodup_iff.mpr h.distinct
  mem_iff a b := hp.mem_iff.trans (h.mem_iff a b)

theorem mem_keys (h : Represents l m) : a ∈ l.map Prod.fst ↔ ∃ b, m a = some b := by
  simp only [List.mem_map,Prod.exists,exists_and_right,exists_eq_right,h.mem_iff]

theorem not_mem_keys (h : Represents l m) (ha : m a = none) : a ∉ l.map Prod.fst := by
  rw [h.mem_keys,ha]
  simp

theorem unique {m' : α → Option β} (h : Represents l m) (h' : Represents l m') : m = m' := by
  funext a
  exact Option.ext fun b => (h.mem_iff a b).symm.trans (h'.mem_iff a b)

/-- The list has as many pairs as the map has keys. -/
theorem encard (h : Represents l m) : {a | m a ≠ none}.encard = l.length := by
  classical
  have hset : {a | m a ≠ none} = ((l.map Prod.fst).toFinset : Set α) := by
    ext a
    simp only [Set.mem_ofPred_eq,List.coe_toFinset,h.mem_keys,Option.ne_none_iff_exists']
  rw [hset,Set.encard_coe_eq_coe_finsetCard,List.toFinset_card_of_nodup h.distinct,List.length_map]

variable [DecidableEq α]

/-- The map of a list with distinct keys is the search for the first pair. -/
theorem find (hd : (l.map Prod.fst).Nodup) :
    Represents l fun a => (l.find? fun e => e.1 = a).map Prod.snd where
  distinct := hd
  mem_iff a b := by
    rw [Option.map_eq_some_iff]
    constructor
    · intro hmem
      have hfound : (l.find? fun e => e.1 = a).isSome := List.find?_isSome.mpr ⟨(a,b),hmem,by simp⟩
      obtain ⟨e,he⟩ := Option.isSome_iff_exists.mp hfound
      have hkey : e.1 = a := by simpa using List.find?_some he
      have heq := List.inj_on_of_nodup_map hd (List.mem_of_find?_eq_some he) hmem hkey
      exact ⟨e,he,congrArg Prod.snd heq⟩
    · rintro ⟨e,he,rfl⟩
      have hkey : e.1 = a := by simpa using List.find?_some he
      exact hkey ▸ List.mem_of_find?_eq_some he

/-- A key that is looked up is found once or not at all. -/
theorem filter_key (h : Represents l m) (a : α) :
    (l.filter fun e => e.1 = a).map Prod.snd = (m a).toList := by
  have hnd : (l.filter fun e => e.1 = a).Nodup := (h.distinct.of_map _).filter _
  cases hm : m a with
  | none =>
    rw [List.filter_eq_nil_iff.mpr fun e he hea => ?_]
    · rfl
    · have : (a,e.2) ∈ l := of_decide_eq_true hea ▸ he
      simp [(h.mem_iff a e.2).mp this] at hm
  | some b =>
    have hall : ∀ e ∈ l.filter (fun e => e.1 = a), e = (a,b) := by
      rintro ⟨x,y⟩ he
      obtain ⟨hxy,hx⟩ := List.mem_filter.mp he
      have hxa : x = a := of_decide_eq_true hx
      have hy := (h.mem_iff x y).mp hxy
      rw [hxa,hm] at hy
      rw [Option.some.inj hy,hxa]
    have hmem : (a,b) ∈ l.filter fun e => e.1 = a :=
      List.mem_filter.mpr ⟨(h.mem_iff a b).mpr hm,by simp⟩
    rw [List.perm_singleton.mp ((List.perm_ext_iff_of_nodup hnd (List.nodup_singleton (a,b))).mpr
      fun e => ⟨fun he => by simp [hall e he],fun he => by rw [List.mem_singleton.mp he]; exact hmem⟩)]
    rfl

theorem length_filter_key_le (h : Represents l m) (a : α) :
    (l.filter fun e => e.1 = a).length ≤ 1 := by
  have := congrArg List.length (h.filter_key a)
  rw [List.length_map] at this
  rw [this]
  cases m a <;> simp

theorem append (h : Represents l m) (ha : m a = none) (b : β) :
    Represents (l ++ [(a,b)]) (Function.update m a (some b)) where
  distinct := by
    rw [List.map_append,List.nodup_append]
    refine ⟨h.distinct,by simp,?_⟩
    intro x hx y hy hxy
    obtain rfl : y = a := by simpa using hy
    exact h.not_mem_keys ha (hxy ▸ hx)
  mem_iff x y := by
    rw [List.mem_append,h.mem_iff,List.mem_singleton,Prod.mk.injEq]
    by_cases hx : x = a
    · subst hx
      simp [ha,eq_comm]
    · simp [hx]

theorem replace (h : Represents l m) {b₀ : β} (ha : m a = some b₀) (b : β) :
    Represents (l.map fun e => if e.1 = a then (e.1,b) else e) (Function.update m a (some b)) where
  distinct := by
    have hkeys : (l.map fun e => if e.1 = a then (e.1,b) else e).map Prod.fst = l.map Prod.fst := by
      rw [List.map_map]
      exact List.map_congr_left fun e _ => by rw [Function.comp_apply]; split_ifs <;> rfl
    rw [hkeys]
    exact h.distinct
  mem_iff x y := by
    rw [List.mem_map]
    by_cases hx : x = a
    · subst hx
      rw [Function.update_self,Option.some.injEq]
      constructor
      · rintro ⟨e,-,he⟩
        split_ifs at he with hea
        · exact (Prod.mk.inj he).2
        · exact absurd (congrArg Prod.fst he) hea
      · rintro rfl
        exact ⟨(x,b₀),(h.mem_iff x b₀).mpr ha,if_pos rfl⟩
    · rw [Function.update_of_ne hx,← h.mem_iff]
      constructor
      · rintro ⟨e,he,hxy⟩
        split_ifs at hxy with hea
        · exact absurd ((congrArg Prod.fst hxy).symm.trans hea) hx
        · exact hxy ▸ he
      · exact fun hxy => ⟨(x,y),hxy,if_neg hx⟩

theorem erase (h : Represents l m) (a : α) :
    Represents (l.filter fun e => !decide (e.1 = a)) (Function.update m a none) where
  distinct := h.distinct.sublist (List.filter_sublist.map _)
  mem_iff x y := by
    rw [List.mem_filter,h.mem_iff]
    by_cases hx : x = a <;> simp [hx]

end Represents

variable [DecidableEq α]

/-- Write one pair after the other. -/
def write (m : α → Option β) (kvs : List (α × β)) : α → Option β :=
  kvs.foldl (fun m kv => Function.update m kv.1 (some kv.2)) m

@[simp] theorem write_nil (m : α → Option β) : write m [] = m := rfl
@[simp] theorem write_cons (m : α → Option β) (kv : α × β) (kvs : List (α × β)) :
    write m (kv::kvs) = write (Function.update m kv.1 (some kv.2)) kvs := rfl

/-- One value for a list of keys. -/
theorem write_const (m : α → Option β) (as : List α) (b : β) (a : α) :
    write m (as.map fun x => (x,b)) a = if a ∈ as then some b else m a := by
  induction as generalizing m with
  | nil => rfl
  | cons x as ih =>
    rw [List.map_cons,write_cons,ih]
    by_cases ha : a ∈ as
    · simp [ha]
    · by_cases hx : a = x
      · simp [hx]
      · simp [ha,hx]

/-- New pairs at the end, with keys of their own. -/
theorem Represents.append_all {l kvs : List (α × β)} {m : α → Option β} (h : Represents l m)
    (hd : (kvs.map Prod.fst).Nodup) (hn : ∀ a ∈ kvs.map Prod.fst, m a = none) :
    Represents (l ++ kvs) (write m kvs) := by
  induction kvs generalizing l m with
  | nil => simpa using h
  | cons kv kvs ih =>
    rw [List.map_cons,List.nodup_cons] at hd
    have hn' : ∀ a ∈ kvs.map Prod.fst, Function.update m kv.1 (some kv.2) a = none := by
      intro a ha
      rw [Function.update_of_ne (ne_of_mem_of_not_mem ha hd.1)]
      exact hn a (by simp [ha])
    simpa using ih (h.append (hn kv.1 (by simp)) kv.2) hd.2 hn'

end FiniteMap
end HangfireStorage
