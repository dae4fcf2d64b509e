import HangfireStorage.ExpirationManager

/-!
# Clean-up of jobs and their children

One run of `DeleteJobItems` makes one pass over the three child tables and the jobs,
whatever is left afterwards.
-/

namespace HangfireStorage
namespace ExpirationManager

section Details

variable {ρ : Type} [Row ρ] [JobChild ρ]

def HasChild (t : Table ρ) (j : ℤ) : Prop := ∃ r ∈ t.rows, JobChild.job r = some j

def Keeps (t t' : Table ρ) (j : ℤ) : Prop := ∀ r ∈ t.rows, JobChild.job r = some j → r ∈ t'.rows

def detailsLeft (o : RowOrder ℤ) (n : ℕ) (c : ℤ) (db : Db) (t : Table ρ) : Table ρ :=
  t.delete fun r => (o.take n ((expiredDetails c db t).map Row.id)).contains (Row.id r)

/-- Every row under a job expired at `c₄` is already seen as expired at `c`, and one batch
holds them all. -/
def DetailsFit (n : ℕ) (c c₄ : ℤ) (db : Db) (t : Table ρ) : Prop :=
  (∀ r ∈ t.rows, jobExpired c₄ db (JobChild.job r) = true → jobExpired c db (JobChild.job r) = true) ∧
    (expiredDetails c db t).length ≤ n

variable {o : RowOrder ℤ} {n : ℕ} {c c₄ : ℤ} {db : Db} {t : Table ρ} {r : ρ}

theorem mem_detailsLeft : r ∈ (detailsLeft o n c db t).rows ↔
    r ∈ t.rows ∧ Row.id r ∉ o.take n ((expiredDetails c db t).map Row.id) := by
  simp [detailsLeft,List.mem_filter]

theorem mem_expiredDetails :
    r ∈ expiredDetails c db t ↔ r ∈ t.rows ∧ jobExpired c db (JobChild.job r) = true := by
  simp [expiredDetails,List.mem_filter]

theorem id_mem_expiredDetails (hr : r ∈ t.rows) :
    Row.id r ∈ (expiredDetails c db t).map Row.id ↔ jobExpired c db (JobChild.job r) = true := by
  constructor
  · intro h
    obtain ⟨r',hr',hid⟩ := List.mem_map.mp h
    rw [mem_expiredDetails] at hr'
    rw [← Table.eq_of_id hr'.1 hr hid]
    exact hr'.2
  · exact fun h => List.mem_map_of_mem (mem_expiredDetails.mpr ⟨hr,h⟩)

theorem detailsLeft_of_not_expired (hr : r ∈ t.rows)
    (he : ¬ jobExpired c db (JobChild.job r) = true) : r ∈ (detailsLeft o n c db t).rows :=
  mem_detailsLeft.mpr ⟨hr,fun h => he ((id_mem_expiredDetails hr).mp (RowOrder.mem_of_mem_take h))⟩

theorem DetailsFit.not_expired (h : DetailsFit n c c₄ db t) (hr : r ∈ (detailsLeft o n c db t).rows) :
    ¬ jobExpired c₄ db (JobChild.job r) = true := by
  intro he
  obtain ⟨hr,hid⟩ := mem_detailsLeft.mp hr
  refine hid ((o.take_perm_of_le ?_).mem_iff.mpr ((id_mem_expiredDetails hr).mpr (h.1 r hr he)))
  rw [List.length_map]
  exact h.2

/-- A row that the batch has no room for may be any of them. -/
theorem exists_detailsLeft (h : n < (expiredDetails c db t).length) :
    ∃ o, ∃ r ∈ (detailsLeft o n c db t).rows, jobExpired c db (JobChild.job r) = true := by
  obtain ⟨r,hr⟩ := List.exists_mem_of_length_pos (Nat.zero_lt_of_lt h)
  refine ⟨.prefer fun i => !decide (i = Row.id r),r,?_,(mem_expiredDetails.mp hr).2⟩
  refine mem_detailsLeft.mpr ⟨(mem_expiredDetails.mp hr).1,?_⟩
  exact RowOrder.not_mem_take_avoid (t.nodup_ids _) (by simpa using h)

end Details

theorem referenced_iff {db : Db} {j : ℤ} : db.Referenced j ↔
    HasChild db.jobQueue j ∨ HasChild db.jobParameter j ∨ HasChild db.jobState j := by
  simp only [Db.Referenced,HasChild,JobChild.job,Option.some.injEq]
  rw [← or_assoc,or_comm]

def detailsDeleted (n : ℕ) (p : JobPass) (db : Db) : Db :=
  { db with
    jobQueue := detailsLeft (p.order .jobQueue) n (p.clock .jobQueue) db db.jobQueue
    jobParameter := detailsLeft (p.order .jobParameter) n (p.clock .jobParameter) db db.jobParameter
    jobState := detailsLeft (p.order .jobState) n (p.clock .jobState) db db.jobState }

theorem deleteEntities_eq (k : Kind) (o : RowOrder ℤ) (n : ℕ) (c : ℤ) (db : Db)
    (h : k = .job → ∀ i ∈ ids .job db, i ∈ selectIds o n c db k → ¬ db.Referenced i) :
    ∃ m, deleteEntities k o n c db = (deleteRows (selectIds o n c db k) db k,.ok m) := by
  rw [deleteEntities,deleteIds_eq]
  · rw [flatten_batches (by decide)]
    exact ⟨_,rfl⟩
  · rwa [flatten_batches (by decide)]

theorem runSteps_details (n : ℕ) (p : JobPass) (db : Db) :
    runSteps n p [.jobQueue,.jobParameter,.jobState,.job] db =
      runSteps n p [.job] (detailsDeleted n p db) := by
  have hq : ∀ k ∈ [Kind.jobQueue,.jobParameter,.jobState], ∀ ks db, runSteps n p (k::ks) db =
      runSteps n p ks (deleteRows (selectIds (p.order k) n (p.clock k) db k) db k) := by
    intro k hk ks db
    obtain ⟨m,hm⟩ := deleteEntities_eq k (p.order k) n (p.clock k) db (by rintro rfl; simp at hk)
    rw [runSteps,hm]
  rw [hq _ (by simp),hq _ (by simp),hq _ (by simp)]
  rfl

def KeepsChildren (db db' : Db) (j : ℤ) : Prop :=
  Keeps db.jobQueue db'.jobQueue j ∧ Keeps db.jobParameter db'.jobParameter j ∧
    Keeps db.jobState db'.jobState j

/-- What one run of the action owes to the jobs, `c₀` being the time it starts and `c₄` the
last time it reads. -/
structure CleansUp (c₀ c₄ : ℤ) (db : Db) (res : Db × Option (Except Fault Unit)) : Prop where
  ok : res.2 = some (.ok ())
  whole : ∀ j ∈ db.job.rows, (j ∈ res.1.job.rows ∧ KeepsChildren db res.1 j.id) ∨
    (¬ res.1.jobExists j.id ∧ ¬ res.1.Referenced j.id)
  untouched : ∀ j ∈ db.job.rows, ¬ expiredBefore c₄ j.expireAt = true →
    j ∈ res.1.job.rows ∧ KeepsChildren db res.1 j.id
  removed : ∀ j ∈ db.job.rows, expiredBefore c₀ j.expireAt = true → ¬ res.1.jobExists j.id

/-- The readings of a run that starts at `c₀` do not decrease. -/
structure InOrder (c₀ : ℤ) (clock : Kind → ℤ) : Prop where
  start : c₀ ≤ clock .jobQueue
  jobQueue : clock .jobQueue ≤ clock .jobParameter
  jobParameter : clock .jobParameter ≤ clock .jobState
  jobState : clock .jobState ≤ clock .job

/-- One batch per table is enough, and no child row comes under an expired job after the
table's own reading. -/
structure FitsOnePass (n : ℕ) (clock : Kind → ℤ) (db : Db) : Prop where
  jobQueue : DetailsFit n (clock .jobQueue) (clock .job) db db.jobQueue
  jobParameter : DetailsFit n (clock .jobParameter) (clock .job) db db.jobParameter
  jobState : DetailsFit n (clock .jobState) (clock .job) db db.jobState
  job : (expiredRows (clock .job) db.job).length ≤ n

/-- No job had to go, and those that may go have no children. -/
structure NothingDue (c₀ c₄ : ℤ) (db : Db) : Prop where
  noneExpired : ∀ j ∈ db.job.rows, ¬ expiredBefore c₀ j.expireAt = true
  noChildren : ∀ j ∈ db.job.rows, expiredBefore c₄ j.expireAt = true → ¬ db.Referenced j.id

section Pass

variable {n : ℕ} {c c₀ : ℤ} {p : JobPass} {db : Db} {j : JobRow}

theorem jobExpired_some (hj : j ∈ db.job.rows) :
    jobExpired c db (some j.id) = expiredBefore c j.expireAt := by
  simp [jobExpired,show Table.byId j.id db.job = some j from Table.byId_of_mem hj]

def selectedJobs (n : ℕ) (p : JobPass) (db : Db) : List ℤ :=
  selectIds (p.order .job) n (p.clock .job) db .job

def passed (n : ℕ) (p : JobPass) (db : Db) : Db :=
  deleteRows (selectedJobs n p db) (detailsDeleted n p db) .job

theorem id_mem_expiredRows (hj : j ∈ db.job.rows) :
    j.id ∈ (expiredRows c db.job).map Row.id ↔ expiredBefore c j.expireAt = true := by
  constructor
  · intro h
    obtain ⟨j',hj',hid⟩ := List.mem_map.mp h
    obtain ⟨hmem,he⟩ := List.mem_filter.mp hj'
    rw [← Table.eq_of_id hmem hj hid]
    exact he
  · exact fun h => List.mem_map.mpr ⟨j,List.mem_filter.mpr ⟨hj,h⟩,rfl⟩

theorem expired_of_selected (hj : j ∈ db.job.rows) (h : j.id ∈ selectedJobs n p db) :
    expiredBefore (p.clock .job) j.expireAt = true :=
  (id_mem_expiredRows hj).mp (RowOrder.mem_of_mem_take h)

theorem mem_job_passed :
    j ∈ (passed n p db).job.rows ↔ j ∈ db.job.rows ∧ j.id ∉ selectedJobs n p db := by
  show j ∈ (db.job.delete fun r => (selectedJobs n p db).contains (Row.id r)).rows ↔ _
  simp [Table.rows_delete,List.mem_filter,Row.id]

theorem jobExists_passed (hj : j ∈ db.job.rows) :
    (passed n p db).jobExists j.id ↔ j.id ∉ selectedJobs n p db := by
  constructor
  · rintro ⟨j',hj',hid⟩
    obtain ⟨hmem,hsel⟩ := mem_job_passed.mp hj'
    rwa [hid] at hsel
  · exact fun h => ⟨j,mem_job_passed.mpr ⟨hj,h⟩,rfl⟩

theorem deleteJobItems_passed (hn : 0 < n) (m : ℕ) (rest : List (Option JobPass))
    (h : ∀ j ∈ db.job.rows, j.id ∈ selectedJobs n p db → ¬ (detailsDeleted n p db).Referenced j.id) :
    deleteJobItems n (List.replicate m none ++ some p::rest) db = (passed n p db,some (.ok ())) := by
  obtain ⟨k,hk⟩ := deleteEntities_eq .job (p.order .job) n (p.clock .job) (detailsDeleted n p db) (by
      rintro - i hi hsel
      obtain ⟨j,hj,rfl⟩ := List.mem_map.mp hi
      exact h j hj hsel)
  rw [deleteJobItems_eq hn,runSteps_details,runSteps,hk]
  rfl

theorem deleteJobItems_error (hn : 0 < n) (m : ℕ) (rest : List (Option JobPass))
    (hj : j ∈ db.job.rows) (hsel : j.id ∈ selectedJobs n p db)
    (hr : (detailsDeleted n p db).Referenced j.id) :
    (deleteJobItems n (List.replicate m none ++ some p::rest) db).2 = some (.error .foreignKey) := by
  have herr : (deleteEntities .job (p.order .job) n (p.clock .job) (detailsDeleted n p db)).2 =
      .error .foreignKey := by
    refine deleteIds_job_error (List.mem_map.mpr ⟨j,hj,rfl⟩) ?_ hr
    rw [flatten_batches (by decide)]
    exact hsel
  rw [deleteJobItems_eq hn,runSteps_details,runSteps]
  cases hd : deleteEntities .job (p.order .job) n (p.clock .job) (detailsDeleted n p db) with
  | mk db' r =>
    rw [hd] at herr
    simp only at herr
    rw [herr]

/-- Jobs that no reading of the pass sees as expired keep their children. -/
theorem keepsChildren_passed (hp : InOrder c₀ p.clock) (hj : j ∈ db.job.rows)
    (he : ¬ expiredBefore (p.clock .job) j.expireAt = true) : KeepsChildren db (passed n p db) j.id := by
  have hle : ∀ {c}, c ≤ p.clock .job → ¬ jobExpired c db (some j.id) = true := by
    intro c hc h
    rw [jobExpired_some hj] at h
    exact he (expiredBefore_mono hc h)
  have h₃ := hp.jobState
  have h₂ := hp.jobParameter.trans h₃
  have h₁ := hp.jobQueue.trans h₂
  exact ⟨fun r hr hrj => detailsLeft_of_not_expired hr (hrj ▸ hle h₁),
    fun r hr hrj => detailsLeft_of_not_expired hr (hrj ▸ hle h₂),
    fun r hr hrj => detailsLeft_of_not_expired hr (hrj ▸ hle h₃)⟩

theorem FitsOnePass.not_referenced (hfit : FitsOnePass n p.clock db) (hj : j ∈ db.job.rows)
    (he : expiredBefore (p.clock .job) j.expireAt = true) :
    ¬ (detailsDeleted n p db).Referenced j.id := by
  rw [← jobExpired_some hj] at he
  rw [referenced_iff]
  rintro (⟨r,hr,hrj⟩ | ⟨r,hr,hrj⟩ | ⟨r,hr,hrj⟩)
  · exact hfit.jobQueue.not_expired hr (hrj ▸ he)
  · exact hfit.jobParameter.not_expired hr (hrj ▸ he)
  · exact hfit.jobState.not_expired hr (hrj ▸ he)

theorem not_referenced_of_childless (h : ¬ db.Referenced j.id) :
    ¬ (detailsDeleted n p db).Referenced j.id := by
  rw [referenced_iff] at h ⊢
  refine mt (Or.imp ?_ (Or.imp ?_ ?_)) h <;>
    exact fun ⟨r,hr,hrj⟩ => ⟨r,(mem_detailsLeft.mp hr).1,hrj⟩

theorem FitsOnePass.cleansUp (hn : 0 < n) (m : ℕ) (rest : List (Option JobPass))
    (hp : InOrder c₀ p.clock) (hfit : FitsOnePass n p.clock db) : CleansUp c₀ (p.clock .job) db
      (deleteJobItems n (List.replicate m none ++ some p::rest) db) := by
  have hsel : ∀ j ∈ db.job.rows, expiredBefore (p.clock .job) j.expireAt = true →
      j.id ∈ selectedJobs n p db := by
    intro j hj he
    refine ((p.order .job).take_perm_of_le ?_).mem_iff.mpr ((id_mem_expiredRows hj).mpr he)
    exact (List.length_map _).trans_le hfit.job
  rw [deleteJobItems_passed hn m rest fun j hj hs =>
    hfit.not_referenced hj (expired_of_selected hj hs)]
  have hkept : ∀ j ∈ db.job.rows, ¬ expiredBefore (p.clock .job) j.expireAt = true →
      j ∈ (passed n p db).job.rows ∧ KeepsChildren db (passed n p db) j.id := fun j hj he =>
    ⟨mem_job_passed.mpr ⟨hj,fun hs => he (expired_of_selected hj hs)⟩,keepsChildren_passed hp hj he⟩
  refine ⟨rfl,fun j hj => ?_,hkept,fun j hj he => ?_⟩
  · by_cases he : expiredBefore (p.clock .job) j.expireAt = true
    · exact .inr ⟨fun hex => (jobExists_passed hj).mp hex (hsel j hj he),hfit.not_referenced hj he⟩
    · exact .inl (hkept j hj he)
  · have hc := hp.start.trans (hp.jobQueue.trans (hp.jobParameter.trans hp.jobState))
    exact fun hex => (jobExists_passed hj).mp hex (hsel j hj (expiredBefore_mono hc he))

/-- A pass with nothing due may take any jobs that are expired, since they are childless. -/
theorem NothingDue.cleansUp (hn : 0 < n) (m : ℕ) (rest : List (Option JobPass))
    (hp : InOrder c₀ p.clock) (hdue : NothingDue c₀ (p.clock .job) db) :
    CleansUp c₀ (p.clock .job) db
      (deleteJobItems n (List.replicate m none ++ some p::rest) db) := by
  have hno : ∀ j ∈ db.job.rows, expiredBefore (p.clock .job) j.expireAt = true →
      ¬ (detailsDeleted n p db).Referenced j.id := fun j hj he =>
    not_referenced_of_childless (hdue.noChildren j hj he)
  rw [deleteJobItems_passed hn m rest fun j hj hs => hno j hj (expired_of_selected hj hs)]
  have hkept : ∀ j ∈ db.job.rows, j.id ∉ selectedJobs n p db →
      j ∈ (passed n p db).job.rows ∧ KeepsChildren db (passed n p db) j.id := by
    intro j hj hs
    refine ⟨mem_job_passed.mpr ⟨hj,hs⟩,?_⟩
    by_cases he : expiredBefore (p.clock .job) j.expireAt = true
    · have hchild := hdue.noChildren j hj he
      rw [referenced_iff,not_or,not_or] at hchild
      exact ⟨fun r hr hrj => absurd ⟨r,hr,hrj⟩ hchild.1,fun r hr hrj => absurd ⟨r,hr,hrj⟩ hchild.2.1,
        fun r hr hrj => absurd ⟨r,hr,hrj⟩ hchild.2.2⟩
    · exact keepsChildren_passed hp hj he
  refine ⟨rfl,fun j hj => ?_,fun j hj he => ?_,fun j hj he => absurd he (hdue.noneExpired j hj)⟩
  · by_cases hs : j.id ∈ selectedJobs n p db
    · exact .inr ⟨fun hex => (jobExists_passed hj).mp hex hs,hno j hj (expired_of_selected hj hs)⟩
    · exact .inl (hkept j hj hs)
  · exact hkept j hj fun hs => he (expired_of_selected hj hs)

theorem jobExpired_iff {x : Option ℤ} : jobExpired c db x = true ↔
    ∃ j ∈ db.job.rows, x = some j.id ∧ expiredBefore c j.expireAt = true := by
  constructor
  · intro h
    cases x with
    | none => cases h
    | some k =>
      cases hj : db.job.byId k with
      | none => simp [jobExpired,hj] at h
      | some j =>
        obtain ⟨hmem,rfl⟩ := Table.byId_eq_some.mp hj
        exact ⟨j,hmem,rfl,by rwa [← jobExpired_some hmem]⟩
  · rintro ⟨j,hj,rfl,he⟩
    rwa [jobExpired_some hj]

theorem jobExpired_mono {d : ℤ} (hcd : c ≤ d) {x : Option ℤ} (h : jobExpired c db x = true) :
    jobExpired d db x = true := by
  obtain ⟨j,hj,hx,he⟩ := jobExpired_iff.mp h
  exact jobExpired_iff.mpr ⟨j,hj,hx,expiredBefore_mono hcd he⟩

/-- If no order of the select leaves a row under an expired job, the table fits. -/
theorem detailsFit_of_left {ρ : Type} [Row ρ] [JobChild ρ] {t : Table ρ} {c₄ : ℤ} (hc : c ≤ c₄)
    (h : ∀ o, ∀ r ∈ (detailsLeft o n c db t).rows, ¬ jobExpired c₄ db (JobChild.job r) = true) :
    DetailsFit n c c₄ db t := by
  constructor
  · intro r hr he
    by_contra hno
    exact h .stored r (detailsLeft_of_not_expired hr hno) he
  · by_contra hlen
    obtain ⟨o,r,hr,he⟩ := exists_detailsLeft (not_le.mp hlen)
    exact h o r hr (jobExpired_mono hc he)

end Pass

section Necessity

variable {n m : ℕ} {c₀ : ℤ} {clock : Kind → ℤ} {db : Db} {rest : List (Option JobPass)}

/-- A run that never fails, whatever the orders, leaves no expired job with a child for its
last step. -/
theorem not_referenced_of_cleansUp (hn : 0 < n)
    (h : ∀ order, CleansUp c₀ (clock .job) db
      (deleteJobItems n (List.replicate m none ++ some ⟨order,clock⟩::rest) db))
    (order : Kind → RowOrder ℤ) {j : JobRow} (hj : j ∈ db.job.rows)
    (he : expiredBefore (clock .job) j.expireAt = true) :
    ¬ (detailsDeleted n ⟨order,clock⟩ db).Referenced j.id := by
  intro hr
  let order' : Kind → RowOrder ℤ := fun k => if k = .job then .prefer fun i => i = j.id else order k
  have hsel : j.id ∈ selectedJobs n ⟨order',clock⟩ db :=
    RowOrder.mem_take_prefer ((id_mem_expiredRows hj).mpr he) hn
  have herr := deleteJobItems_error hn m rest hj hsel hr
  rw [(h order').ok] at herr
  cases herr

theorem not_jobExpired_left (hn : 0 < n)
    (h : ∀ order, CleansUp c₀ (clock .job) db
      (deleteJobItems n (List.replicate m none ++ some ⟨order,clock⟩::rest) db))
    {x : Option ℤ} (order : Kind → RowOrder ℤ)
    (hx : ∀ j, x = some j → (detailsDeleted n ⟨order,clock⟩ db).Referenced j) :
    ¬ jobExpired (clock .job) db x = true := by
  intro he
  obtain ⟨j,hj,hxj,he⟩ := jobExpired_iff.mp he
  exact not_referenced_of_cleansUp hn h order hj he (hx _ hxj)

theorem fitsOnePass_or_nothingDue (hn : 0 < n) (hp : InOrder c₀ clock)
    (h : ∀ order, CleansUp c₀ (clock .job) db
      (deleteJobItems n (List.replicate m none ++ some ⟨order,clock⟩::rest) db)) :
    FitsOnePass n clock db ∨ NothingDue c₀ (clock .job) db := by
  have h₃ := hp.jobState
  have h₂ := hp.jobParameter.trans h₃
  have h₁ := hp.jobQueue.trans h₂
  have hq : DetailsFit n (clock .jobQueue) (clock .job) db db.jobQueue :=
    detailsFit_of_left h₁ fun o r hr => not_jobExpired_left hn h (fun _ => o)
      fun j hj => referenced_iff.mpr (.inl ⟨r,hr,hj⟩)
  have hpar : DetailsFit n (clock .jobParameter) (clock .job) db db.jobParameter :=
    detailsFit_of_left h₂ fun o r hr => not_jobExpired_left hn h (fun _ => o)
      fun j hj => referenced_iff.mpr (.inr (.inl ⟨r,hr,hj⟩))
  have hst : DetailsFit n (clock .jobState) (clock .job) db db.jobState :=
    detailsFit_of_left h₃ fun o r hr => not_jobExpired_left hn h (fun _ => o)
      fun j hj => referenced_iff.mpr (.inr (.inr ⟨r,hr,hj⟩))
  by_cases hlen : (expiredRows (clock .job) db.job).length ≤ n
  · exact .inl ⟨hq,hpar,hst,hlen⟩
  right
  -- one batch is too small for the jobs, so any of them may be the one that stays
  have hstays : ∀ j ∈ db.job.rows, expiredBefore (clock .job) j.expireAt = true →
      ∃ order, j.id ∉ selectedJobs n ⟨order,clock⟩ db := fun j hj he =>
    ⟨fun _ => .prefer fun i => !decide (i = j.id),
      RowOrder.not_mem_take_avoid (db.job.nodup_ids _)
        ((not_le.mp hlen).trans_eq (List.length_map _).symm)⟩
  have hres : ∀ order, deleteJobItems n (List.replicate m none ++ some ⟨order,clock⟩::rest) db =
      (passed n ⟨order,clock⟩ db,some (.ok ())) := fun order =>
    deleteJobItems_passed hn m rest fun j hj hs =>
      not_referenced_of_cleansUp hn h order hj (expired_of_selected hj hs)
  constructor
  · intro j hj he
    have hc := expiredBefore_mono (hp.start.trans h₁) he
    obtain ⟨order,hs⟩ := hstays j hj hc
    have hgone := (h order).removed j hj he
    rw [hres] at hgone
    exact hgone ((jobExists_passed hj).mpr hs)
  · intro j hj he hr
    obtain ⟨order,hs⟩ := hstays j hj he
    have hwhole := (h order).whole j hj
    rw [hres] at hwhole
    rcases hwhole with ⟨-,hkq,hkp,hks⟩ | ⟨hgone,-⟩
    · refine not_referenced_of_cleansUp hn h order hj he (referenced_iff.mpr ?_)
      exact (referenced_iff.mp hr).imp (fun ⟨r,hr,hrj⟩ => ⟨r,hkq r hr hrj,hrj⟩)
        (Or.imp (fun ⟨r,hr,hrj⟩ => ⟨r,hkp r hr hrj,hrj⟩) fun ⟨r,hr,hrj⟩ => ⟨r,hks r hr hrj,hrj⟩)
    · exact hgone ((jobExists_passed hj).mpr hs)

end Necessity

/-- The action cleans up, whatever order the selects return, exactly when one pass is enough
or there is nothing to clean up yet. -/
theorem deleteJobItems_cleansUp_iff {b c₀ : ℤ} {m : ℕ} {clock : Kind → ℤ} {db : Db}
    {rest : List (Option JobPass)} (hp : InOrder c₀ clock) :
    (∀ order, CleansUp c₀ (clock .job) db (deleteJobItems (numberOfRecordsInSinglePass b)
        (List.replicate m none ++ some ⟨order,clock⟩::rest) db)) ↔
      FitsOnePass (numberOfRecordsInSinglePass b) clock db ∨ NothingDue c₀ (clock .job) db := by
  have hn := numberOfRecordsInSinglePass_pos b
  constructor
  · exact fitsOnePass_or_nothingDue hn hp
  · rintro (hfit | hdue) order
    · exact FitsOnePass.cleansUp (p := ⟨order,clock⟩) hn m rest hp hfit
    · exact NothingDue.cleansUp (p := ⟨order,clock⟩) hn m rest hp hdue

section Runs

def twoParameters : Db :=
  { Db.empty with
    job := Table.empty.insert ⟨0,"job","[]",0,some 1,none,none,none⟩
    jobParameter := (Table.empty.insert ⟨0,1,"CurrentCulture",some "en"⟩).insert
      ⟨0,1,"RetryCount",some "1"⟩ }

/-- A clock that ticks between the steps. -/
def readings : Kind → ℤ
  | .jobQueue => 10
  | .jobParameter => 11
  | .jobState => 12
  | _ => 13

theorem deleteJobItems_cleansUp_two : CleansUp 10 (readings .job) twoParameters
    (deleteJobItems (numberOfRecordsInSinglePass 2)
      (List.replicate 1 none ++ some ⟨fun _ => .stored,readings⟩::[]) twoParameters) := by
  have hp : InOrder 10 readings := ⟨by decide,by decide,by decide,by decide⟩
  have hfit : FitsOnePass (numberOfRecordsInSinglePass 2) readings twoParameters :=
    ⟨⟨by decide,by decide⟩,⟨by decide,by decide⟩,⟨by decide,by decide⟩,by decide⟩
  exact (deleteJobItems_cleansUp_iff hp).mpr (.inl hfit) fun _ => .stored

/-- With room for one row a pass leaves a child behind and fails on its job. -/
theorem deleteJobItems_leaves_child : ¬ CleansUp 10 10 twoParameters
    (deleteJobItems (numberOfRecordsInSinglePass 1)
      [some ⟨fun _ => .stored,fun _ => 10⟩] twoParameters) := by
  intro h
  have herr : (deleteJobItems (numberOfRecordsInSinglePass 1)
      [some ⟨fun _ => .stored,fun _ => 10⟩] twoParameters).2 = some (.error .foreignKey) := by rfl
  rw [h.ok] at herr
  cases herr

end Runs

end ExpirationManager
end HangfireStorage
