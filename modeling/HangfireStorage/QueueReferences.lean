import HangfireStorage.QueueExclusion

/-!
# Fetches and null references

A fetch is total and exact as long as no row up for a fetch refers to no job, and
only an `AddToQueue` for a missing job makes such a row. The cut-off is counted in whole
milliseconds.
-/

namespace HangfireStorage
namespace StorageSystem

open JobQueue Machine

/-- What a fetch at the time `now` owes to its caller, whatever row the query returns first. -/
def FetchExact (T now : ℤ) (db : Db) : Prop :=
  ∀ (o : RowOrder JobQueueRow) (queues : List String) (token : String), queues ≠ [] →
    (candidates (now-T) queues db = [] ∧ fetch T o queues token now db = .ok (none,db)) ∨
      ∃ i ∈ candidates (now-T) queues db, ∃ j t, i.job = some j ∧
        fetch T o queues token now db = .ok (some ⟨i.id,j,i.queue⟩,{ db with jobQueue := t }) ∧
        ∀ k, t.byId k = if k = i.id then some (marked token now i) else db.jobQueue.byId k

/-- Counting in whole milliseconds finds no row too early, and misses none of a queue but with
another one to return. -/
structure RoundsFairly (T now : ℤ) (db : Db) : Prop where
  early : ∀ i ∈ db.jobQueue.rows, eligible (cutoffAt T now) i = true → eligible (now-T) i = true
  late : ∀ i ∈ db.jobQueue.rows, eligible (now-T) i = true →
    ∃ i' ∈ db.jobQueue.rows, i'.queue = i.queue ∧ eligible (cutoffAt T now) i' = true

section Fetch

variable {T now : ℤ} {db : Db}

theorem roundsFairly_whole (hT : DateTime.ticksPerMillisecond ∣ T) (now : ℤ) (db : Db) :
    RoundsFairly T now db := by
  constructor <;> rw [cutoffAt_whole hT]
  · exact fun i _ hel => hel
  · exact fun i hi hel => ⟨i,hi,rfl,hel⟩

theorem FetchExact.inRange (h : FetchExact T now db) : DateTime.InRange (cutoffAt T now) := by
  by_contra hn
  have hc : cutoff T now = .error .argumentOutOfRange := if_neg hn
  rcases h .stored [""] "" (by simp) with ⟨-,h⟩ | ⟨i,-,j,t,-,h,-⟩ <;> simp [fetch,hc] at h

/-- A row up for a fetch may be the one that the query returns. -/
theorem FetchExact.found (h : FetchExact T now db) {i : JobQueueRow} (hi : i ∈ db.jobQueue.rows)
    (hel : eligible (cutoffAt T now) i = true) : i.job ≠ none ∧ eligible (now-T) i = true := by
  have hc : cutoff T now = .ok (cutoffAt T now) := DateTime.add_of_inRange h.inRange
  have hmem : i ∈ candidates (cutoffAt T now) [i.queue] db := mem_candidates.mpr ⟨hi,hel,by simp⟩
  have ho := RowOrder.firstOrDefault_prefer hmem
  rcases h (.prefer fun b => b = i) [i.queue] "" (by simp) with ⟨-,h⟩ | ⟨i',hi',j,t,-,h,-⟩
  · cases hj : i.job <;> simp [fetch,hc,ho,hj] at h
  · cases hj : i.job with
    | none => simp [fetch,hc,ho,hj] at h
    | some j' =>
      simp only [fetch,hc,ho,hj,Except.ok.injEq,Prod.mk.injEq,Option.some.injEq,
        FetchedJob.mk.injEq] at h
      obtain ⟨hmem',hel',-⟩ := mem_candidates.mp hi'
      rw [← Table.eq_of_id hmem' hi h.1.1.symm]
      exact ⟨nofun,hel'⟩

theorem FetchExact.late (h : FetchExact T now db) {i : JobQueueRow} (hi : i ∈ db.jobQueue.rows)
    (hel : eligible (now-T) i = true) :
    ∃ i' ∈ db.jobQueue.rows, i'.queue = i.queue ∧ eligible (cutoffAt T now) i' = true := by
  have hmem : i ∈ candidates (now-T) [i.queue] db := mem_candidates.mpr ⟨hi,hel,by simp⟩
  rcases h .stored [i.queue] "" (by simp) with ⟨hnil,-⟩ | ⟨i₁,-,j,t,-,h,-⟩
  · rw [hnil] at hmem
    cases hmem
  · obtain ⟨c,hc,⟨hnone,-⟩ | ⟨i',hi',-⟩⟩ := fetch_eq_ok h
    · cases hnone
    · obtain rfl := cutoff_eq_ok hc
      obtain ⟨hmem',hel',hqueue⟩ := mem_candidates.mp hi'
      exact ⟨i',hmem',by simpa using hqueue,hel'⟩

/-- Exactly when a fetch is total and exact. -/
theorem fetchExact_iff_rows : FetchExact T now db ↔ DateTime.InRange (cutoffAt T now) ∧
    (∀ i ∈ db.jobQueue.rows, eligible (cutoffAt T now) i = true → i.job ≠ none) ∧
      RoundsFairly T now db := by
  constructor
  · intro h
    exact ⟨h.inRange,fun i hi hel => (h.found hi hel).1,fun i hi hel => (h.found hi hel).2,
      fun i hi hel => h.late hi hel⟩
  · rintro ⟨hr,hjobs,hfair⟩ o queues token -
    have hc : cutoff T now = .ok (cutoffAt T now) := DateTime.add_of_inRange hr
    cases ho : o.firstOrDefault (candidates (cutoffAt T now) queues db) with
    | none =>
      refine .inl ⟨?_,by simp [fetch,hc,ho]⟩
      by_contra hne
      obtain ⟨i,hi⟩ := List.exists_mem_of_ne_nil _ hne
      obtain ⟨hmem,hel,hqueue⟩ := mem_candidates.mp hi
      obtain ⟨i',hmem',hq,hel'⟩ := hfair.late i hmem hel
      have hi' := mem_candidates.mpr ⟨hmem',hel',hq ▸ hqueue⟩
      rw [RowOrder.firstOrDefault_eq_none.mp ho] at hi'
      cases hi'
    | some i =>
      obtain ⟨hmem,hel,hqueue⟩ := mem_candidates.mp (RowOrder.firstOrDefault_mem ho)
      obtain ⟨j,hj⟩ := Option.ne_none_iff_exists'.mp (hjobs i hmem hel)
      exact .inr ⟨i,mem_candidates.mpr ⟨hmem,hfair.early i hmem hel,hqueue⟩,j,_,hj,
        by simp only [fetch,hc,ho,hj],byId_put_marked hmem token now⟩

end Fetch

/-- The job id of an `AddToQueue`, if it parses, names a job. -/
def NamesJob (db : Db) : WriteCommand → Prop
  | .addToQueue _ j => ∀ v ∈ StringToInt32Converter.convert j, db.jobExists v
  | _ => True

instance (db : Db) (c : WriteCommand) : Decidable (NamesJob db c) := by
  unfold NamesJob
  split <;> infer_instance

/-- Every transaction that commits queues only jobs that exist. -/
def CommitsNameJobs (ser : SerializationHelper) (s : StorageState) : Action → Prop
  | .commit cmds => match WriteOnlyTransaction.commit ser cmds s.db with
    | .error _ => True
    | .ok _ => ∀ c ∈ cmds, NamesJob s.db c.2
  | _ => True

instance (ser : SerializationHelper) (s : StorageState) :
    (a : Action) → Decidable (CommitsNameJobs ser s a)
  | .commit cmds =>
    match h : WriteOnlyTransaction.commit ser cmds s.db with
    | .error _ => .isTrue (by rw [CommitsNameJobs,h]; trivial)
    | .ok _ => decidable_of_iff (∀ c ∈ cmds, NamesJob s.db c.2) (by rw [CommitsNameJobs,h])
  | .advance _ | .createExpiredJob .. | .dequeue .. | .removeFromQueue .. | .requeue .. | .dispose ..
  | .crash _ | .acquireLock .. | .releaseLock .. | .aggregate _ | .select .. | .deleteBatch _ =>
    .isTrue trivial

def NoNullJob (t : Table JobQueueRow) : Prop := ∀ i ∈ t.rows, i.job ≠ none

/-- A row that every fetch of its queue finds and none can return. -/
def Stuck (t : Table JobQueueRow) : Prop := ∃ i ∈ t.rows, i.job = none ∧ i.fetchedAt = none

section Commands

variable {ser : SerializationHelper} {now : ℤ} {c : WriteCommand} {db db' : Db}

/-- No command adds or removes a job. -/
theorem run_jobExists (h : WriteOnlyTransaction.run ser now db c = .ok db') (v : ℤ) :
    db'.jobExists v ↔ db.jobExists v := by
  rw [Db.jobExists_iff_byId,Db.jobExists_iff_byId]
  cases run_effect h with
  | same hs => rw [hs.job]
  | expiry => simp [WriteOnlyTransaction.setJobExpireAt,Table.byId_modify]
  | setState => simp [Table.byId_put]
  | addState | enqueue => rfl

theorem namesJob_congr (h : ∀ v, db'.jobExists v ↔ db.jobExists v) :
    NamesJob db' c ↔ NamesJob db c := by
  cases c <;> simp [NamesJob,h]

theorem run_noNullJob (hc : NamesJob db c) (hn : NoNullJob db.jobQueue)
    (h : WriteOnlyTransaction.run ser now db c = .ok db') : NoNullJob db'.jobQueue := by
  cases run_effect h with
  | same hs => rwa [hs.jobQueue]
  | expiry | setState | addState => exact hn
  | @enqueue queue j v hj =>
    obtain ⟨r,hr⟩ := Option.isSome_iff_exists.mp (Db.jobExists_iff_byId.mp (hc v hj))
    intro i hi
    rcases List.mem_append.mp hi with hi | hi
    · exact hn i hi
    · rw [List.mem_singleton.mp hi]
      simp [Row.withId,hr]

theorem run_stuck (hc : ¬ NamesJob db c) (h : WriteOnlyTransaction.run ser now db c = .ok db') :
    Stuck db'.jobQueue := by
  cases c with
  | addToQueue queue j =>
    simp only [NamesJob,Option.mem_def,not_forall] at hc
    obtain ⟨v,hv,hno⟩ := hc
    rw [Db.jobExists_iff_byId,Option.not_isSome_iff_eq_none] at hno
    simp only [WriteOnlyTransaction.run,WriteOnlyTransaction.addToQueue,enqueue,hv,
      SqlUtil.singleOrDefault_id,hno,Except.ok.injEq] at h
    subst h
    exact ⟨_,List.mem_append_right _ (List.mem_singleton_self _),rfl,rfl⟩
  | _ => exact absurd trivial hc

theorem Grown.stuck {t t' : Table JobQueueRow} (h : Grown t t') (hs : Stuck t) : Stuck t' := by
  induction h with
  | refl => exact hs
  | insert job queue _ ih =>
    obtain ⟨i,hi,hj⟩ := ih
    exact ⟨i,List.mem_append_left _ hi,hj⟩

theorem commit_noNullJob {cmds : List (ℤ × WriteCommand)} (hc : ∀ c ∈ cmds, NamesJob db c.2)
    (hn : NoNullJob db.jobQueue) (h : WriteOnlyTransaction.commit ser cmds db = .ok db') :
    NoNullJob db'.jobQueue := by
  have hP := WriteOnlyTransaction.commit_induction
    (P := fun d => NoNullJob d.jobQueue ∧ ∀ v, d.jobExists v ↔ db.jobExists v)
    (Q := NamesJob db) ?_ hc ⟨hn,fun _ => .rfl⟩ h
  · exact hP.1
  · rintro now c d d' hc ⟨hn,hj⟩ hr
    exact ⟨run_noNullJob ((namesJob_congr hj).mpr hc) hn hr,
      fun v => (run_jobExists hr v).trans (hj v)⟩

theorem commit_stuck {cmds : List (ℤ × WriteCommand)} (hc : ∃ c ∈ cmds, ¬ NamesJob db c.2)
    (h : WriteOnlyTransaction.commit ser cmds db = .ok db') : Stuck db'.jobQueue := by
  induction cmds generalizing db with
  | nil => simp at hc
  | cons c cs ih =>
    simp only [WriteOnlyTransaction.commit] at h
    cases hr : WriteOnlyTransaction.run ser c.1 db c.2 with
    | error f => simp [hr] at h
    | ok db₁ =>
      rw [hr] at h
      obtain ⟨c',hc',hbad⟩ := hc
      rcases List.mem_cons.mp hc' with rfl | hc'
      · exact (commit_grown h).stuck (run_stuck hbad hr)
      · exact ih ⟨c',hc',mt (namesJob_congr (run_jobExists hr)).mp hbad⟩ h

end Commands

section Runs

variable {ser : SerializationHelper} {T t : ℤ} {s : StorageState} {as : List Action}

/-- Steps other than commits only touch what a row says about its fetch. -/
theorem noNullJob_effect {s' : StorageState} {a : Action} {e : Event}
    (he : QueueEffect T s a s' e) (hn : NoNullJob s.db.jobQueue)
    (hcommit : ∀ cmds, a = .commit cmds → NoNullJob s'.db.jobQueue) : NoNullJob s'.db.jobQueue := by
  cases he with
  | idle hq | advanced hq => rwa [hq]
  | disposed _ _ hq => rwa [hq]
  | grown ha => exact hcommit _ ha
  | @fetched i j token hi _ hq =>
    rw [hq]
    intro i' hi'
    obtain ⟨r,hr,rfl⟩ := List.mem_map.mp hi'
    split_ifs
    · exact hn i hi
    · exact hn r hr
  | removed _ hq => rw [hq]; exact fun i hi => hn i (List.mem_of_mem_filter hi)
  | deleted _ _ hq => rw [hq]; exact fun i hi => hn i (List.mem_of_mem_filter hi)
  | requeued _ _ hq =>
    rw [hq]
    intro i' hi'
    obtain ⟨r,hr,rfl⟩ := List.mem_map.mp hi'
    split_ifs
    · exact hn r hr
    · exact hn r hr

theorem noNullJob_step {a : Action} (hn : NoNullJob s.db.jobQueue)
    (hC : CommitsNameJobs ser s a) : NoNullJob (step ser T s a).1.db.jobQueue := by
  refine noNullJob_effect (T := T) (step_queueEffect ser a) hn ?_
  rintro cmds rfl
  simp only [CommitsNameJobs] at hC
  simp only [step]
  cases h : WriteOnlyTransaction.commit ser cmds s.db with
  | error f => exact hn
  | ok db => exact commit_noNullJob (by simpa [h] using hC) hn h

theorem stuck_step {a : Action} (hC : ¬ CommitsNameJobs ser s a) :
    Stuck (step ser T s a).1.db.jobQueue := by
  cases a with
  | commit cmds =>
    simp only [CommitsNameJobs] at hC
    simp only [step]
    cases h : WriteOnlyTransaction.commit ser cmds s.db with
    | error f => simp [h] at hC
    | ok db => exact commit_stuck (by simpa [h] using hC) h
  | _ => exact absurd trivial hC

theorem fetchExact_of_noNullJob {db : Db} (ht : DateTime.InRange (cutoffAt T t))
    (hn : NoNullJob db.jobQueue) (hfair : RoundsFairly T t db) : FetchExact T t db :=
  fetchExact_iff_rows.mpr ⟨ht,fun i hi _ => hn i hi,hfair⟩

theorem not_fetchExact_of_stuck {db : Db} (hs : Stuck db.jobQueue) : ¬ FetchExact T t db := by
  obtain ⟨i,hi,hj,hf⟩ := hs
  intro h
  exact (h.found hi (by simp [eligible,hf])).1 hj

theorem commitsNameJobs_of_exact
    (h : ∀ pre, pre <+: as → FetchExact T t (exec (step ser T) s pre).db) :
    Along (step ser T) (CommitsNameJobs ser) s as := by
  induction as generalizing s with
  | nil => trivial
  | cons a as ih =>
    have htail := ih fun pre hpre => h (a::pre) (List.cons_prefix_cons.mpr ⟨rfl,hpre⟩)
    refine ⟨?_,htail⟩
    by_contra hbad
    exact not_fetchExact_of_stuck (stuck_step hbad)
      (h [a] (List.cons_prefix_cons.mpr ⟨rfl,List.nil_prefix⟩))

/-- Fetches are total and exact throughout a run exactly when its transactions queue only
jobs that exist, the cut-off can be computed and its rounding does no harm. Timeouts of whole
milliseconds are not rounded. -/
theorem fetch_exact_iff (hs : NoNullJob s.db.jobQueue) :
    ((∀ pre, pre <+: as → FetchExact T t (exec (step ser T) s pre).db) ↔
      DateTime.InRange (cutoffAt T t) ∧ Along (step ser T) (CommitsNameJobs ser) s as ∧
        ∀ pre, pre <+: as → RoundsFairly T t (exec (step ser T) s pre).db) ∧
    (DateTime.ticksPerMillisecond ∣ T →
      ((∀ pre, pre <+: as → FetchExact T t (exec (step ser T) s pre).db) ↔
        DateTime.InRange (t-T) ∧ Along (step ser T) (CommitsNameJobs ser) s as)) := by
  have hiff : (∀ pre, pre <+: as → FetchExact T t (exec (step ser T) s pre).db) ↔
      DateTime.InRange (cutoffAt T t) ∧ Along (step ser T) (CommitsNameJobs ser) s as ∧
        ∀ pre, pre <+: as → RoundsFairly T t (exec (step ser T) s pre).db := by
    constructor
    · intro h
      exact ⟨(h [] List.nil_prefix).inRange,commitsNameJobs_of_exact h,
        fun pre hpre => (fetchExact_iff_rows.mp (h pre hpre)).2.2⟩
    · rintro ⟨ht,hC,hfair⟩ pre hpre
      obtain ⟨post,rfl⟩ := hpre
      have hn := exec_invariant (I := fun s => NoNullJob s.db.jobQueue)
        (fun s a hn hC => noNullJob_step hn hC) ((along_append pre post).mp hC).1 hs
      exact fetchExact_of_noNullJob ht hn (hfair pre (List.prefix_append _ _))
  refine ⟨hiff,fun hT => ?_⟩
  rw [hiff,cutoffAt_whole hT]
  exact ⟨fun h => ⟨h.1,h.2.1⟩,fun h => ⟨h.1,h.2,fun _ _ => roundsFairly_whole hT t _⟩⟩

/-- A run with a clean-up step that removes the queue row of an expired job. -/
theorem fetch_exact_iff_cleanup :
    FetchExact 100000 2000000 (exec (step Json.helper 100000) (initial 1000000)
      (oneJobQueued ++ [dequeueDefault,.select .jobQueue .stored 1000 0,.deleteBatch 0])).db :=
  ((fetch_exact_iff fun i hi => by cases hi).2 (by decide)).mpr (by decide) _ (List.prefix_refl _)

/-- One `AddToQueue` for a missing job makes every fetch of its queue throw. -/
theorem missing_job_not_exact : ¬ FetchExact 100000 2000000 (exec (step Json.helper 100000)
    (initial 1000000) [.commit [(0,.addToQueue "default" "7")]]).db := by
  intro h
  have hf : fetch 100000 .stored ["default"] "token" 2000000 (exec (step Json.helper 100000)
      (initial 1000000) [.commit [(0,.addToQueue "default" "7")]]).db = .error .nullReference := by
    rfl
  rcases h .stored ["default"] "token" (by simp) with ⟨-,h⟩ | ⟨i,-,j,t,-,h,-⟩ <;>
    rw [hf] at h <;> cases h

end Runs

end StorageSystem
end HangfireStorage
