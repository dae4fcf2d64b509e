import HangfireStorage.CounterConservation

/-!
# GetCounter during aggregation

The four reads of GetCounter see four committed states of one run. They add up to the total
of the key exactly when no pass moves rows from under them.
-/

namespace HangfireStorage
namespace AggregationSystem

open CountersAggregator WriteOnlyTransaction JobStorageConnection Machine

def totalOf (key : String) (db : Db) : ℤ :=
  (valuesOf key db.counter).sum + (valuesOf key db.aggregatedCounter).sum

/-- The sums that GetCounter may meet on the way are Int32. -/
structure ReadsInRange (key : String) (db : Db) : Prop where
  counter : Int32.InRange (valuesOf key db.counter).sum
  aggregatedCounter : Int32.InRange (valuesOf key db.aggregatedCounter).sum
  total : Int32.InRange (totalOf key db)

instance (key : String) (db : Db) : Decidable (ReadsInRange key db) :=
  decidable_of_iff (Int32.InRange _ ∧ Int32.InRange _ ∧ Int32.InRange _)
    ⟨fun h => ⟨h.1,h.2.1,h.2.2⟩,fun h => ⟨h.counter,h.aggregatedCounter,h.total⟩⟩

def NotCounted (key : String) (a : Action) : Prop :=
  match a with
  | .commit cmds => ∀ c ∈ cmds, ∀ r ∈ counted c, r.key ≠ key
  | _ => True

instance (key : String) (a : Action) : Decidable (NotCounted key a) := by
  unfold NotCounted
  split <;> infer_instance

/-- What other commits and passes leave as it is for a key. -/
structure SameTotal (key : String) (db db' : Db) : Prop where
  total : totalOf key db' = totalOf key db
  drained : valuesOf key db.counter = [] → valuesOf key db'.counter = []
  aggregated : valuesOf key db'.aggregatedCounter = [] → valuesOf key db.aggregatedCounter = []

section Gaps

variable {ser : SerializationHelper} {τ : String → Tally} {key : String} {s : AggregationState}

theorem valuesOf_eq_nil {t : Table CounterRow} :
    valuesOf key t = [] ↔ key ∉ t.rows.map CounterRow.key := by
  simp [valuesOf]

theorem SameTotal.refl (key : String) (db : Db) : SameTotal key db db := ⟨rfl,id,id⟩

theorem SameTotal.trans {db₁ db₂ db₃ : Db} (h : SameTotal key db₁ db₂) (h' : SameTotal key db₂ db₃) :
    SameTotal key db₁ db₃ :=
  ⟨h'.total.trans h.total,h'.drained ∘ h.drained,h.aggregated ∘ h'.aggregated⟩

theorem RunOk.totalOf_eq (h : RunOk τ s) (key : String) : totalOf key s.db = (τ key).value := by
  rw [← h.total key,Tally.value_add,tallyOf_value,tallyOf_value,add_comm]
  rfl

theorem tallyOf_notCounted {cmds : List (ℤ × WriteCommand)} (h : NotCounted key (.commit cmds)) :
    tallyOf key (cmds.filterMap counted) = 0 := by
  refine tallyOf_eq_zero fun r hr => ?_
  obtain ⟨c,hc,hcr⟩ := List.mem_filterMap.mp hr
  exact h c hc r hcr

theorem sameTotal_step (hok : RunOk τ s) {a : Action} (hr : SumsInRange s a) (hk : NotCounted key a) :
    SameTotal key s.db (step ser s a).1.db := by
  have htotal : tallyOf key ((committed [(step ser s a).2]).filterMap counted) = 0 →
      totalOf key (step ser s a).1.db = totalOf key s.db := fun h => by
    rw [(runOk_step hok hr).totalOf_eq,h,add_zero,hok.totalOf_eq]
  obtain ⟨db,pass⟩ := s
  cases a with
  | commit cmds =>
    simp only [step] at htotal ⊢
    cases h : WriteOnlyTransaction.commit ser cmds db with
    | error f => exact .refl _ _
    | ok db' =>
      rw [h] at htotal
      obtain ⟨rows,hrows,-,-,ht⟩ := commit_counter h
      refine ⟨htotal (by simpa [committed] using tallyOf_notCounted hk),fun hv => ?_,fun hv => ?_⟩
      · have hnew : ¬ ∃ r ∈ rows, r.key = key := by
          rw [← tallyOf_present,ht key,tallyOf_notCounted hk]
          simp
        rw [valuesOf_eq_nil] at hv ⊢
        rw [hrows,List.map_append,List.mem_append,not_or]
        exact ⟨hv,fun hmem => hnew (by simpa using hmem)⟩
      · rwa [(commit_untouched h).1] at hv
  | beginPass o =>
    cases pass with
    | some w => exact .refl _ _
    | none =>
      simp only [step]
      cases begin o db with
      | error f => exact .refl _ _
      | ok w => exact .refl _ _
  | nextStatement =>
    cases pass with
    | none => exact .refl _ _
    | some w =>
      simp only [step,Option.elim_some,nextStatement]
      cases w.next with
      | error f => exact .refl _ _
      | ok w' => exact .refl _ _
  | commitPass =>
    cases pass with
    | none => exact .refl _ _
    | some w =>
      obtain ⟨t,deleted,pending⟩ := w
      cases pending with
      | cons st rest => exact .refl _ _
      | nil =>
        refine ⟨htotal rfl,fun hv => ?_,fun hv => ?_⟩
        · rw [valuesOf_eq_nil] at hv ⊢
          exact fun hmem => hv (List.map_subset _ (List.filter_subset_self _) hmem)
        · rw [valuesOf_eq_nil] at hv ⊢
          exact fun hmem => hv ((hok.pass _ rfl).keys key hmem)
  | abortPass => exact .refl _ _

/-- A run that counts nothing for the key keeps its total. -/
theorem sameTotal_exec (hok : RunOk τ s) {as : List Action} (hC : Along (step ser) SumsInRange s as)
    (hk : ∀ a ∈ as, NotCounted key a) : SameTotal key s.db (exec (step ser) s as).db := by
  have hC' : Along (step ser) (fun s a => SumsInRange s a ∧ NotCounted key a) s as :=
    hC.and (along_of_forall fun a ha _ => hk a ha)
  have h : (∃ τ, RunOk τ (exec (step ser) s as)) ∧ SameTotal key s.db (exec (step ser) s as).db := by
    refine exec_invariant (I := fun s' => (∃ τ, RunOk τ s') ∧ SameTotal key s.db s'.db) ?_ hC'
      ⟨⟨τ,hok⟩,.refl _ _⟩
    rintro s' a ⟨⟨τ',hok'⟩,hst⟩ ⟨hr,hk⟩
    exact ⟨⟨_,runOk_step hok' hr⟩,hst.trans (sameTotal_step hok' hr hk)⟩
  exact h.2

end Gaps

/-- The committed states that the four reads of GetCounter see. -/
structure Reads where
  counterAny : Db
  counterSum : Db
  aggregatedAny : Db
  aggregatedSum : Db

def readsOf (ser : SerializationHelper) (s : AggregationState)
    (as₀ as₁ as₂ as₃ : List Action) : Reads where
  counterAny := (exec (step ser) s as₀).db
  counterSum := (exec (step ser) s (as₀ ++ as₁)).db
  aggregatedAny := (exec (step ser) s (as₀ ++ as₁ ++ as₂)).db
  aggregatedSum := (exec (step ser) s (as₀ ++ as₁ ++ as₂ ++ as₃)).db

/-- GetCounter returns the total of the key, which is the same at all of its reads. -/
structure CounterExact (key : String) (r : Reads) : Prop where
  result : getCounterReads key r.counterAny r.counterSum r.aggregatedAny r.aggregatedSum =
    .ok (totalOf key r.counterAny)
  counterSum : totalOf key r.counterSum = totalOf key r.counterAny
  aggregatedAny : totalOf key r.aggregatedAny = totalOf key r.counterAny
  aggregatedSum : totalOf key r.aggregatedSum = totalOf key r.counterAny

/-- Passes drain no Counter row of the key from under the first sum, and move no value over
before the second one. -/
def Undisturbed (key : String) (r : Reads) : Prop :=
  valuesOf key r.counterAny.counter = [] ∨
    valuesOf key r.counterSum.counter ≠ [] ∧ (valuesOf key r.aggregatedAny.aggregatedCounter = [] ∨
      (valuesOf key r.aggregatedSum.aggregatedCounter).sum =
        (valuesOf key r.counterSum.aggregatedCounter).sum)

instance (key : String) (r : Reads) : Decidable (Undisturbed key r) :=
  inferInstanceAs (Decidable (_ ∨ _))

section Reading

variable {key : String}

theorem guardedSum_empty {t u : Table CounterRow} (h : valuesOf key t = []) :
    guardedSum key t u = .ok 0 := if_pos h

theorem guardedSum_drained {t u : Table CounterRow} (h : valuesOf key t ≠ []) (h' : valuesOf key u = []) :
    guardedSum key t u = .error .invalidOperation := by
  rw [guardedSum,if_neg h,sum,if_pos h']

theorem guardedSum_sum {t u : Table CounterRow} (h : valuesOf key t ≠ []) (h' : valuesOf key u ≠ [])
    (hr : Int32.InRange (valuesOf key u).sum) : guardedSum key t u = .ok (valuesOf key u).sum := by
  rw [guardedSum,if_neg h,sum,if_neg h',if_pos hr]

theorem getCounterReads_iff {r : Reads} (h₁ : SameTotal key r.counterAny r.counterSum)
    (h₂ : SameTotal key r.counterSum r.aggregatedAny) (h₃ : SameTotal key r.aggregatedAny r.aggregatedSum)
    (hr₂ : ReadsInRange key r.counterSum) (hr₄ : ReadsInRange key r.aggregatedSum) :
    getCounterReads key r.counterAny r.counterSum r.aggregatedAny r.aggregatedSum =
      .ok (totalOf key r.counterAny) ↔ Undisturbed key r := by
  have ht₄ := (h₁.trans (h₂.trans h₃)).total
  by_cases hc₁ : valuesOf key r.counterAny.counter = []
  · refine iff_of_true ?_ (.inl hc₁)
    have hc₄ := (h₁.trans (h₂.trans h₃)).drained hc₁
    rw [getCounterReads,guardedSum_empty hc₁,← ht₄,totalOf,hc₄]
    by_cases ha₃ : valuesOf key r.aggregatedAny.aggregatedCounter = []
    · have ht₃ := h₃.total
      simp only [totalOf,hc₄,ha₃,h₂.drained (h₁.drained hc₁)] at ht₃
      simp only [List.sum_nil,zero_add] at ht₃
      simp [guardedSum_empty ha₃,ht₃,Int32.wrap]
    · rw [guardedSum_sum ha₃ (mt h₃.aggregated ha₃) hr₄.aggregatedCounter]
      simp [Int32.wrap_of_inRange hr₄.aggregatedCounter]
  · by_cases hc₂ : valuesOf key r.counterSum.counter = []
    · rw [getCounterReads,guardedSum_drained hc₁ hc₂]
      simp [Undisturbed,hc₁,hc₂]
    · rw [getCounterReads,guardedSum_sum hc₁ hc₂ hr₂.counter,← h₁.total]
      by_cases ha₃ : valuesOf key r.aggregatedAny.aggregatedCounter = []
      · refine iff_of_true ?_ (.inr ⟨hc₂,.inl ha₃⟩)
        simp [guardedSum_empty ha₃,totalOf,h₂.aggregated ha₃,Int32.wrap_of_inRange hr₂.counter]
      · rw [guardedSum_sum ha₃ (mt h₃.aggregated ha₃) hr₄.aggregatedCounter]
        have hrange : |(valuesOf key r.counterSum.counter).sum +
            (valuesOf key r.aggregatedSum.aggregatedCounter).sum - totalOf key r.counterSum| < 2^32 := by
          obtain ⟨h₅,h₆⟩ := hr₂.aggregatedCounter
          obtain ⟨h₇,h₈⟩ := hr₄.aggregatedCounter
          rw [totalOf,abs_lt]
          constructor <;> omega
        simp only [Except.ok.injEq,Int32.wrap_eq_iff hr₂.total hrange]
        simp only [totalOf,add_right_inj,Undisturbed,hc₁,hc₂,ha₃,false_or,ne_eq,not_false_eq_true,
          true_and]

theorem getCounter_eq {db : Db} (hr : ReadsInRange key db) :
    getCounter key db = .ok (totalOf key db) := by
  have hst := SameTotal.refl key db
  refine (getCounterReads_iff (r := ⟨db,db,db,db⟩) hst hst hst hr hr).mpr ?_
  by_cases hc : valuesOf key db.counter = []
  · exact .inl hc
  · exact .inr ⟨hc,.inr rfl⟩

end Reading

/-- GetCounter reads the total of a key off a run in which nothing is counted for the key
exactly when the passes of the run leave its reads undisturbed. -/
theorem getCounter_exact_iff {ser : SerializationHelper} {key : String} {s : AggregationState}
    {as₀ as₁ as₂ as₃ : List Action} (hs : s.pass = none)
    (hd : (s.db.aggregatedCounter.rows.map CounterRow.key).Nodup)
    (hC : Along (step ser) SumsInRange s (as₀ ++ as₁ ++ as₂ ++ as₃))
    (hk : ∀ a ∈ as₁ ++ as₂ ++ as₃, NotCounted key a)
    (hr₂ : ReadsInRange key (readsOf ser s as₀ as₁ as₂ as₃).counterSum)
    (hr₄ : ReadsInRange key (readsOf ser s as₀ as₁ as₂ as₃).aggregatedSum) :
    CounterExact key (readsOf ser s as₀ as₁ as₂ as₃) ↔
      Undisturbed key (readsOf ser s as₀ as₁ as₂ as₃) := by
  have h₀ : RunOk
      (fun key => tallyOf key s.db.aggregatedCounter.rows + tallyOf key s.db.counter.rows) s :=
    ⟨fun _ => rfl,hd,by simp [hs]⟩
  obtain ⟨hC₂,hC₃⟩ := (along_append _ _).mp hC
  obtain ⟨hC₁,hC₂⟩ := (along_append _ _).mp hC₂
  obtain ⟨hC₀,hC₁⟩ := (along_append _ _).mp hC₁
  have h₁ := runOk_exec h₀ hC₀
  have h₂ := runOk_exec h₁ hC₁
  rw [← exec_append] at h₂
  have h₃ := runOk_exec h₂ hC₂
  rw [← exec_append] at h₃
  have hs₁ := sameTotal_exec h₁ hC₁ fun a ha => hk a (by simp [ha])
  have hs₂ := sameTotal_exec h₂ hC₂ fun a ha => hk a (by simp [ha])
  have hs₃ := sameTotal_exec h₃ hC₃ fun a ha => hk a (by simp [ha])
  rw [← exec_append] at hs₁ hs₂ hs₃
  rw [← getCounterReads_iff (r := readsOf ser s as₀ as₁ as₂ as₃) hs₁ hs₂ hs₃ hr₂ hr₄]
  exact ⟨fun h => h.result,fun h => ⟨h,hs₁.total,(hs₁.trans hs₂).total,
    (hs₁.trans (hs₂.trans hs₃)).total⟩⟩

section Runs

def increment (key : String) : Action := .commit [(0,.incrementCounter key none)]

def passReady : List Action :=
  [.beginPass .stored,.nextStatement,.nextStatement,.nextStatement]

/-- A pass that has not seen the key commits after the first read. -/
theorem getCounter_exact_iff_other_key :
    CounterExact "k" (readsOf Json.helper ⟨.empty,none⟩
      ([increment "j"] ++ passReady ++ [increment "k"]) [.commitPass] [] []) ↔
    Undisturbed "k" (readsOf Json.helper ⟨.empty,none⟩
      ([increment "j"] ++ passReady ++ [increment "k"]) [.commitPass] [] []) :=
  getCounter_exact_iff rfl (by decide) (by decide) (by decide) (by decide) (by decide)

/-- A pass that commits between the first two reads leaves nothing to sum; one that commits
between the sums has its value counted twice. -/
theorem getCounter_disturbed :
    (¬ CounterExact "k" (readsOf Json.helper ⟨.empty,none⟩ (increment "k"::passReady)
      [.commitPass] [] [])) ∧
    ¬ CounterExact "k" (readsOf Json.helper ⟨.empty,none⟩
      (increment "k"::passReady ++ .commitPass::increment "k"::passReady) [] [.commitPass] []) :=
  ⟨fun h => absurd h.result (by decide),fun h => absurd h.result (by decide)⟩

end Runs

end AggregationSystem
end HangfireStorage
