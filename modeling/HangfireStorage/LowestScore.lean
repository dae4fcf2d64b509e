import HangfireStorage.JobStorageConnection

/-!
# The lowest scores of a set

Two overloads read the members whose score lies in a range. The one that returns a list
leaves the lower bound out.
-/

namespace HangfireStorage
namespace LowestScore

open JobStorageConnection

variable {ρ S : Type} [LinearOrder S] (score : ρ → S) (value : ρ → String)

def members (fromScore toScore : S) (rows : List ρ) : List ρ :=
  rows.filter fun i => fromScore ≤ score i && score i ≤ toScore

/-- What the list overload, here with its result, owes to its callers, and to those of the
overload that returns one value. -/
structure Agree (fromScore toScore : S) (count : ℤ) (rows : List ρ) (values : List String)
    (first : Option String) : Prop where
  lowest : ∃ l : List ρ, values = l.map value ∧ l.Nodup ∧ l ⊆ members score fromScore toScore rows ∧
    l.Pairwise (fun a b => score a ≤ score b) ∧
    l.length = min count.toNat (members score fromScore toScore rows).length ∧
    (∀ r ∈ members score fromScore toScore rows, r ∉ l → ∀ a ∈ l, score a ≤ score r) ∧
    ∀ a ∈ l.head?, ∃ r ∈ members score fromScore toScore rows, first = some (value r) ∧ score r = score a
  empty_iff : values = [] ↔ first = none

variable {score value} {fromScore toScore : S} {count : ℤ} {rows : List ρ}

theorem mem_members {r : ρ} :
    r ∈ members score fromScore toScore rows ↔ r ∈ rows ∧ fromScore ≤ score r ∧ score r ≤ toScore := by
  simp [members]

theorem orderByScore_perm (score : ρ → S) (o : RowOrder ρ) (l : List ρ) :
    (orderByScore score (o.arrange l)).Perm l :=
  (List.perm_insertionSort _ _).trans (o.perm l)

theorem orderByScore_pairwise (score : ρ → S) (l : List ρ) :
    (orderByScore score l).Pairwise fun a b => score a ≤ score b := by
  have : Std.Total fun a b : ρ => score a ≤ score b := ⟨fun a b => le_total _ _⟩
  have : IsTrans ρ fun a b => score a ≤ score b := ⟨fun _ _ _ h h' => h.trans h'⟩
  exact List.pairwise_insertionSort _ l

/-- The first row in the order of scores has the lowest one. -/
theorem head_le {l : List ρ} (h : l.Pairwise fun a b => score a ≤ score b) {a : ρ}
    (ha : a ∈ l.head?) {r : ρ} (hr : r ∈ l) : score a ≤ score r := by
  cases l with
  | nil => simp at hr
  | cons b l =>
    obtain rfl : b = a := by simpa using ha
    rcases List.mem_cons.mp hr with rfl | hr
    · exact le_refl _
    · exact (List.pairwise_cons.mp h).1 r hr

theorem filter_lt_eq_members (h : ∀ r ∈ rows, score r ≠ fromScore) :
    (rows.filter fun i => fromScore < score i && score i ≤ toScore) =
      members score fromScore toScore rows := by
  refine List.filter_congr fun r hr => ?_
  rw [decide_eq_decide.mpr (lt_iff_le_and_ne.trans (and_iff_left (h r hr).symm))]

theorem agree_of_no_bound (hrows : rows.Pairwise fun a b => value a ≠ value b) (hcount : 1 ≤ count)
    (o o' : RowOrder ρ) (h : ∀ r ∈ rows, score r ≠ fromScore) :
    Agree score value fromScore toScore count rows
      (((orderByScore score (o.arrange (rows.filter fun i =>
        fromScore < score i && score i ≤ toScore))).map value).take count.toNat)
      ((orderByScore score (o'.arrange (members score fromScore toScore rows))).map value).head? := by
  rw [filter_lt_eq_members h]
  have hperm := orderByScore_perm score o (members score fromScore toScore rows)
  have hperm' := orderByScore_perm score o' (members score fromScore toScore rows)
  have hsorted := orderByScore_pairwise score (o.arrange (members score fromScore toScore rows))
  have hsorted' := orderByScore_pairwise score (o'.arrange (members score fromScore toScore rows))
  generalize orderByScore score (o.arrange _) = l at *
  generalize orderByScore score (o'.arrange _) = l' at *
  have hnodup : (members score fromScore toScore rows).Nodup :=
    (hrows.imp fun hne he => hne (congrArg value he)).filter _
  have hpos : 0 < count.toNat := by omega
  refine ⟨⟨l.take count.toNat,List.map_take.symm,?_,?_,?_,?_,?_,?_⟩,?_⟩
  · exact (hperm.nodup_iff.mpr hnodup).sublist (List.take_sublist _ _)
  · exact fun r hr => hperm.mem_iff.mp (List.mem_of_mem_take hr)
  · exact hsorted.sublist (List.take_sublist _ _)
  · rw [List.length_take,hperm.length_eq]
  · intro r hr hout a ha
    rw [← hperm.mem_iff,← List.take_append_drop count.toNat l,List.mem_append] at hr
    rw [← List.take_append_drop count.toNat l,List.pairwise_append] at hsorted
    exact hsorted.2.2 a ha r (hr.resolve_left hout)
  · intro a ha
    rw [List.head?_take,if_neg hpos.ne'] at ha
    have hal : a ∈ l' := hperm'.mem_iff.mpr (hperm.mem_iff.mp (List.mem_of_mem_head? ha))
    cases hhead : l'.head? with
    | none => simp [List.head?_eq_none_iff.mp hhead] at hal
    | some r =>
      have hr : r ∈ l' := List.mem_of_mem_head? hhead
      refine ⟨r,hperm'.mem_iff.mp hr,by simp [hhead],le_antisymm ?_ ?_⟩
      · exact head_le hsorted' hhead hal
      · exact head_le hsorted ha (hperm.mem_iff.mpr (hperm'.mem_iff.mp hr))
  · rw [List.take_eq_nil_iff,List.map_eq_nil_iff,List.head?_eq_none_iff,List.map_eq_nil_iff,
      ← List.length_eq_zero_iff,← List.length_eq_zero_iff,hperm.length_eq,hperm'.length_eq]
    omega

theorem no_bound_of_agree (hrows : rows.Pairwise fun a b => value a ≠ value b)
    (hrange : fromScore ≤ toScore) (hcount : 1 ≤ count) (o : RowOrder ρ) {first : Option String}
    (h : Agree score value fromScore toScore count rows
      (((orderByScore score (o.arrange (rows.filter fun i =>
        fromScore < score i && score i ≤ toScore))).map value).take count.toNat) first) :
    ∀ r ∈ rows, score r ≠ fromScore := by
  intro x hx hbound
  obtain ⟨l,hvalues,-,hsub,hsorted,hlen,hleft,-⟩ := h.lowest
  have hxm : x ∈ members score fromScore toScore rows :=
    mem_members.mpr ⟨hx,hbound.ge,hbound.trans_le hrange⟩
  have hpos := List.length_pos_of_mem hxm
  cases l with
  | nil =>
    simp only [List.length_nil] at hlen
    omega
  | cons a l =>
    have ha := (mem_members.mp (hsub (by simp : a ∈ a::l))).1
    have hmem : value a ∈ (a::l).map value := by simp
    rw [← hvalues] at hmem
    obtain ⟨b,hb,hvalue⟩ := List.mem_map.mp (List.mem_of_mem_take hmem)
    rw [(orderByScore_perm score o _).mem_iff] at hb
    obtain ⟨hbr,hbs⟩ := List.mem_filter.mp hb
    simp only [Bool.and_eq_true,decide_eq_true_eq] at hbs
    have hab : a = b := List.inj_on_of_nodup_map (List.pairwise_map.mpr hrows) ha hbr hvalue.symm
    have hle : score a ≤ score x := by
      by_cases hxl : x ∈ a::l
      · exact head_le hsorted rfl hxl
      · exact hleft x hxm hxl a (by simp)
    rw [hab,hbound] at hle
    exact absurd hbs.1 (not_lt.mpr hle)

/-- The overloads agree exactly when no member has its score on the lower bound. The rows
are those of one key, so their values differ. -/
theorem overloads_agree_iff (hrows : rows.Pairwise fun a b => value a ≠ value b)
    (hrange : fromScore ≤ toScore) (hcount : 1 ≤ count) (o o' : RowOrder ρ) :
    (∃ values first, firstByLowestScores score value o fromScore toScore count rows = .ok values ∧
      firstByLowestScore score value o' fromScore toScore rows = .ok first ∧
      Agree score value fromScore toScore count rows values first) ↔
    ∀ r ∈ rows, score r ≠ fromScore := by
  rw [firstByLowestScores,firstByLowestScore,if_neg (by omega),if_neg hrange.not_gt,if_neg hrange.not_gt]
  constructor
  · rintro ⟨values,first,hvalues,-,h⟩
    cases hvalues
    exact no_bound_of_agree hrows hrange hcount o h
  · exact fun h => ⟨_,_,rfl,rfl,agree_of_no_bound hrows hcount o o' h⟩

section Runs

def twoScores : Db := { Db.empty with
  set := (Table.empty.insert ⟨0,"s","a",1,none⟩).insert ⟨0,"s","b",2,none⟩ }

theorem overloads_agree_two :
    (∃ values first, getFirstByLowestScoreFromSetList .stored "s" 0 2 1 twoScores = .ok values ∧
      getFirstByLowestScoreFromSet .stored "s" 0 2 twoScores = .ok first ∧
      Agree SetRow.score SetRow.value 0 2 1 (twoScores.set.rows.filter fun i => i.key = "s")
        values first) ↔
    ∀ r ∈ twoScores.set.rows.filter fun i => i.key = "s", r.score ≠ 0 :=
  overloads_agree_iff (ρ := SetRow) (by decide) (by decide) (by decide) .stored .stored

/-- With the lower bound on a score, the list overload passes over the lowest value. -/
theorem overloads_disagree :
    getFirstByLowestScoreFromSetList .stored "s" 1 2 1 twoScores = .ok ["b"] ∧
    getFirstByLowestScoreFromSet .stored "s" 1 2 twoScores = .ok (some "a") ∧
    ¬ Agree SetRow.score SetRow.value 1 2 1 (twoScores.set.rows.filter fun i => i.key = "s")
      ["b"] (some "a") := by
  refine ⟨by decide,by decide,fun h => ?_⟩
  exact no_bound_of_agree (by decide) (by decide) (by decide) .stored h ⟨1,"s","a",1,none⟩ (by decide) rfl

end Runs

end LowestScore
end HangfireStorage
