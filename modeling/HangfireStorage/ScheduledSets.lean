import HangfireStorage.Loops
import HangfireStorage.LowestScore
import HangfireStorage.UpsertRuns

/-!
# Sets in the order of scores

A client that takes the first value in a range of scores and removes it, again and again, as
schedulers do. The set is a queue with priorities to it.
-/

namespace HangfireStorage
namespace ScheduledSets

open FiniteMap JobStorageConnection Loop LowestScore Machine WriteOnlyTransaction

def Member (s : String → Option ℚ) (fromScore toScore : ℚ) (value : String) (score : ℚ) : Prop :=
  s value = some score ∧ fromScore ≤ score ∧ score ≤ toScore

structure Turn where
  order : RowOrder SetRow
  now : ℤ

structure Drain where
  db : Db
  taken : List String

def takeFirst (ser : SerializationHelper) (key : String) (fromScore toScore : ℚ) (i : Turn)
    (s : Drain) : Drain × Option (Except Fault Unit) :=
  match getFirstByLowestScoreFromSet i.order key fromScore toScore s.db with
  | .error f => (s,some (.error f))
  | .ok none => (s,some (.ok ()))
  | .ok (some value) =>
    match commit ser [(i.now,.removeFromSet key value)] s.db with
    | .error f => (s,some (.error f))
    | .ok db => (⟨db,s.taken ++ [value]⟩,none)

section Turns

variable {ser : SerializationHelper} {key : String} {fromScore toScore : ℚ} {db : Db} {m : Maps}
  {i : Turn} {s s' : Drain}

/-- The query finds a member with the lowest score, or there is none. -/
theorem first_spec (h : Refines db m) (key : String) (hrange : fromScore ≤ toScore) (o : RowOrder SetRow) :
    (getFirstByLowestScoreFromSet o key fromScore toScore db = .ok none ∧
      ∀ value score, ¬ Member (m.set key) fromScore toScore value score) ∨
    ∃ value score, getFirstByLowestScoreFromSet o key fromScore toScore db = .ok (some value) ∧
      Member (m.set key) fromScore toScore value score ∧
      ∀ other score', Member (m.set key) fromScore toScore other score' → score ≤ score' := by
  have hmem (value : String) (score : ℚ) : Member (m.set key) fromScore toScore value score ↔
      ∃ r ∈ members SetRow.score fromScore toScore (db.set.rows.filter fun i => i.key = key),
        r.value = value ∧ r.score = score := by
    rw [Member,h.item_iff]
    simp only [mem_members,List.mem_filter,decide_eq_true_eq]
    constructor
    · rintro ⟨⟨r,hr,hkey,rfl,rfl⟩,hle,hle'⟩
      exact ⟨r,⟨⟨hr,hkey⟩,hle,hle'⟩,rfl,rfl⟩
    · rintro ⟨r,⟨⟨hr,hkey⟩,hle,hle'⟩,rfl,rfl⟩
      exact ⟨⟨r,hr,hkey,rfl,rfl⟩,hle,hle'⟩
  simp only [hmem]
  rw [getFirstByLowestScoreFromSet,firstByLowestScore,if_neg hrange.not_gt]
  have hperm := orderByScore_perm SetRow.score o
    (members SetRow.score fromScore toScore (db.set.rows.filter fun i => i.key = key))
  have hsorted := orderByScore_pairwise SetRow.score
    (o.arrange (members SetRow.score fromScore toScore (db.set.rows.filter fun i => i.key = key)))
  simp only [members] at hperm hsorted ⊢
  generalize orderByScore SetRow.score (o.arrange _) = l at *
  cases l with
  | nil =>
    refine .inl ⟨rfl,?_⟩
    rintro value score ⟨r,hr,-⟩
    cases hperm.mem_iff.mpr hr
  | cons a l =>
    refine .inr ⟨a.value,a.score,rfl,⟨a,hperm.mem_iff.mp (by simp),rfl,rfl⟩,?_⟩
    rintro other score' ⟨r,hr,-,rfl⟩
    exact head_le hsorted rfl (hperm.mem_iff.mpr hr)

theorem commit_removeFromSet (now : ℤ) (value : String) (db : Db) :
    commit ser [(now,.removeFromSet key value)] db = .ok (removeFromSet key value db) := rfl

/-- The set without what has been taken. -/
def rest (s : String → Option ℚ) (taken : List String) : String → Option ℚ :=
  fun value => if value ∈ taken then none else s value

/-- What has been taken are the lowest members, in ascending order, and the others are there. -/
structure Draining (m : Maps) (key : String) (fromScore toScore : ℚ) (s : Drain) : Prop where
  refines : Refines s.db (m.setSet key (rest (m.set key) s.taken))
  nodup : s.taken.Nodup
  member : ∀ value ∈ s.taken, ∃ score, Member (m.set key) fromScore toScore value score
  ascending : s.taken.Pairwise fun v w => ∀ score score', m.set key v = some score →
    m.set key w = some score' → score ≤ score'
  lowest : ∀ v ∈ s.taken, ∀ w ∉ s.taken, ∀ score score', m.set key v = some score →
    Member (m.set key) fromScore toScore w score' → score ≤ score'

@[simp] theorem rest_nil (s : String → Option ℚ) : rest s [] = s := by
  funext value
  simp [rest]

theorem rest_append (s : String → Option ℚ) (taken : List String) (value : String) :
    Function.update (rest s taken) value none = rest s (taken ++ [value]) := by
  funext other
  by_cases h : other = value <;> simp [rest,h]

theorem member_rest {s : String → Option ℚ} {taken : List String} {value : String} {score : ℚ} :
    Member (rest s taken) fromScore toScore value score ↔
      value ∉ taken ∧ Member s fromScore toScore value score := by
  by_cases h : value ∈ taken <;> simp [Member,rest,h]

theorem draining_start (h : Refines db m) (key : String) (fromScore toScore : ℚ) :
    Draining m key fromScore toScore ⟨db,[]⟩ where
  refines := by simpa [Maps.setSet] using h
  nodup := .nil
  member := nofun
  ascending := .nil
  lowest := nofun

theorem set_setSet (m : Maps) (key : String) (members : String → Option ℚ) :
    (m.setSet key members).set key = members := Function.update_self ..

/-- A turn that finds a value takes the lowest one that is left. -/
theorem Draining.takeFirst (h : Draining m key fromScore toScore s) (hrange : fromScore ≤ toScore)
    (hgo : takeFirst ser key fromScore toScore i s = (s',none)) :
    Draining m key fromScore toScore s' ∧ s'.db.set.rows.length < s.db.set.rows.length := by
  unfold ScheduledSets.takeFirst at hgo
  obtain ⟨hnone,-⟩ | ⟨value,score,hfirst,hmem,hlow⟩ := first_spec h.refines key hrange i.order
  · simp [hnone] at hgo
  simp only [hfirst,commit_removeFromSet] at hgo
  cases hgo
  rw [set_setSet] at hmem hlow
  have hrow := (h.refines.item_iff key value score).mp (by rw [set_setSet]; exact hmem.1)
  obtain ⟨hnew,hmem⟩ := member_rest.mp hmem
  constructor
  · refine ⟨?_,?_,?_,?_,?_⟩
    · have hrun := @Refines.run ser i.now (.removeFromSet key value) _ _ _ h.refines rfl
      rw [Maps.command,set_setSet,rest_append] at hrun
      simpa [Maps.setSet] using hrun
    · rw [List.nodup_append]
      exact ⟨h.nodup,by simp,fun v hv w hw he => hnew (by simp_all)⟩
    · intro v hv
      obtain hv | hv := List.mem_append.mp hv
      · exact h.member v hv
      · exact ⟨score,List.mem_singleton.mp hv ▸ hmem⟩
    · refine List.pairwise_append.mpr ⟨h.ascending,List.pairwise_singleton _ _,?_⟩
      intro v hv w hw score₁ score₂ h₁ h₂
      obtain rfl := List.mem_singleton.mp hw
      obtain rfl : score = score₂ := Option.some.inj (hmem.1.symm.trans h₂)
      exact h.lowest v hv w hnew score₁ score h₁ hmem
    · intro v hv w hw score₁ score₂ h₁ h₂
      rw [List.mem_append,List.mem_singleton,not_or] at hw
      obtain hv | hv := List.mem_append.mp hv
      · exact h.lowest v hv w hw.1 score₁ score₂ h₁ h₂
      · obtain rfl := List.mem_singleton.mp hv
        obtain rfl : score = score₁ := Option.some.inj (hmem.1.symm.trans h₁)
        exact hlow w score₂ (member_rest.mpr ⟨hw.1,h₂⟩)
  · obtain ⟨r,hr,hkey,hvalue,-⟩ := hrow
    exact List.length_filter_lt_length_iff_exists.mpr ⟨r,hr,by simp [hkey,hvalue]⟩

theorem Draining.stop (h : Draining m key fromScore toScore s) (hrange : fromScore ≤ toScore)
    {r : Except Fault Unit} (hstop : ScheduledSets.takeFirst ser key fromScore toScore i s = (s',some r)) :
    s' = s ∧ r = .ok () ∧
      ∀ value, value ∈ s.taken ↔ ∃ score, Member (m.set key) fromScore toScore value score := by
  unfold ScheduledSets.takeFirst at hstop
  obtain ⟨hnone,hempty⟩ | ⟨value,score,hfirst,-⟩ := first_spec h.refines key hrange i.order
  · simp only [hnone] at hstop
    cases hstop
    refine ⟨rfl,rfl,fun value => ⟨h.member value,?_⟩⟩
    rintro ⟨score,hmem⟩
    by_contra hout
    rw [set_setSet] at hempty
    exact hempty value score (member_rest.mpr ⟨hout,hmem⟩)
  · simp only [hfirst,commit_removeFromSet] at hstop
    cases hstop

end Turns

/-- After any calls that write, taking the first value of a range and removing it, again and
again, gives the members in the range in the order of their scores, each once, and leaves the
others. -/
theorem taken_in_order {ser : SerializationHelper} {ops : List Operation} {db : Db}
    (h : Path (Operation.Step ser) .empty ops db) (key : String) {fromScore toScore : ℚ}
    (hrange : fromScore ≤ toScore) (is : ℕ → Turn) :
    ∃ n s, run (takeFirst ser key fromScore toScore) n is ⟨db,[]⟩ = (s,some (.ok ())) ∧
      s.taken.Nodup ∧
      (∀ value, value ∈ s.taken ↔
        ∃ score, Member ((written ops).set key) fromScore toScore value score) ∧
      (s.taken.Pairwise fun v w => ∀ score score', (written ops).set key v = some score →
        (written ops).set key w = some score' → score ≤ score') ∧
      ReadsAs s.db ((written ops).setSet key (rest ((written ops).set key) s.taken)) := by
  have hstart := draining_start (refines_empty.path h) key fromScore toScore
  have hends : ∃ n s r, run (takeFirst ser key fromScore toScore) n is ⟨db,[]⟩ = (s,some r) :=
    run_ends (I := fun _ s => Draining (written ops) key fromScore toScore s)
      (fun _ s => s.db.set.rows.length) (fun _ _ _ hI hgo => hI.takeFirst hrange hgo) hstart
  obtain ⟨n,s,r,hrun⟩ := hends
  obtain ⟨is',s₀,hI,hstop⟩ := run_exit
    (I := fun _ s => Draining (written ops) key fromScore toScore s)
    (fun _ _ _ hI hgo => (hI.takeFirst hrange hgo).1) hstart hrun
  obtain ⟨rfl,rfl,hmem⟩ := hI.stop hrange hstop
  exact ⟨n,s,hrun,hI.nodup,hmem,hI.ascending,hI.refines.readsAs⟩

/-- Three values, one of them with a new score and one outside of the range. -/
def scheduledThrice : List Operation :=
  [.commit [(0,.addToSet "s" "a" 2),(0,.addToSet "s" "b" 1),(0,.addToSet "s" "c" 9)],
    .commit [(0,.addToSet "s" "b" 3)]]

theorem taken_in_order_thrice : ∃ db, Path (Operation.Step Json.helper) .empty scheduledThrice db ∧
    ∃ n s, run (takeFirst Json.helper "s" 0 5) n (fun _ => ⟨.stored,0⟩) ⟨db,[]⟩ =
        (s,some (.ok ())) ∧
      s.taken.Nodup ∧
      (∀ value, value ∈ s.taken ↔
        ∃ score, Member ((written scheduledThrice).set "s") 0 5 value score) ∧
      (s.taken.Pairwise fun v w => ∀ score score', (written scheduledThrice).set "s" v = some score →
        (written scheduledThrice).set "s" w = some score' → score ≤ score') ∧
      ReadsAs s.db ((written scheduledThrice).setSet "s"
        (rest ((written scheduledThrice).set "s") s.taken)) := by
  have h : ∃ db, Path (Operation.Step Json.helper) .empty scheduledThrice db := by
    apply Exists.intro
    apply Path.cons (.commit rfl)
    apply Path.cons (.commit rfl)
    exact .nil _
  obtain ⟨db,h⟩ := h
  exact ⟨db,h,taken_in_order h "s" (by norm_num) fun _ => ⟨.stored,0⟩⟩

end ScheduledSets
end HangfireStorage
