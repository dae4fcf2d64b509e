import HangfireStorage.StepEffects

/-!
# Clean-up between other clients

A clean-up step deletes what it selected, so its deletions hit expired rows only as long
as no client revives a row between the two statements.
-/

namespace HangfireStorage
namespace StorageSystem

open ExpirationManager JobQueue Machine

/-- The expiry of a row of one of the six tables with an expiry of their own, if there is
such a row. -/
def expiryOf (k : Kind) (i : ℤ) (db : Db) : Option (Option ℤ) :=
  match k with
  | .job => (db.job.byId i).map JobRow.expireAt
  | .list => (db.list.byId i).map ListRow.expireAt
  | .aggregatedCounter => (db.aggregatedCounter.byId i).map CounterRow.expireAt
  | .set => (db.set.byId i).map SetRow.expireAt
  | .hash => (db.hash.byId i).map HashRow.expireAt
  | .distributedLock =>
    (db.distributedLock.byId i).map fun r => some (DateTime.fromEpochDate r.expireAtAsLong)
  | .jobQueue | .jobParameter | .jobState => none

/-- The row is gone, or its expiry is set and past. -/
def Doomed (now : ℤ) (k : Kind) (i : ℤ) (db : Db) : Prop :=
  ∀ e ∈ expiryOf k i db, expiredBefore now e = true

instance (now : ℤ) (k : Kind) (i : ℤ) (db : Db) : Decidable (Doomed now k i db) :=
  inferInstanceAs (Decidable (∀ e ∈ expiryOf k i db, expiredBefore now e = true))

def pendingRows (s : StorageState) : List (Kind × ℤ) :=
  s.sweeps.flatMap fun w => w.pending.flatten.map fun i => (w.kind,i)

/-- No commit, aggregation pass or lock acquisition gives life back to a row that a clean-up
step has selected and not deleted yet. -/
def NoRevival (ser : SerializationHelper) (T : ℤ) (s : StorageState) (a : Action) : Prop :=
  match a with
  | .commit _ | .aggregate _ | .acquireLock _ _ _ => ∀ p ∈ pendingRows s,
    Doomed s.now p.1 p.2 s.db → Doomed s.now p.1 p.2 (step ser T s a).1.db
  | _ => True

instance (ser : SerializationHelper) (T : ℤ) (s : StorageState) (a : Action) :
    Decidable (NoRevival ser T s a) := by
  unfold NoRevival
  split <;> infer_instance

def RemovesExpired (s s' : StorageState) : Prop :=
  ∀ k i, ∀ e ∈ expiryOf k i s.db, expiryOf k i s'.db = none → expiredBefore s.now e = true

/-- Ids waiting for deletion belong to rows that are gone or expired, and not to later jobs. -/
structure SweepsOk (s : StorageState) : Prop where
  doomed : ∀ p ∈ pendingRows s, Doomed s.now p.1 p.2 s.db
  known : ∀ i, (Kind.job,i) ∈ pendingRows s → i < s.db.job.nextId

section Statements

variable {k k' : Kind} {i now : ℤ} {db : Db}

theorem expiryOf_deleteRows (batch : List ℤ) (k k' : Kind) (i : ℤ) (db : Db) :
    expiryOf k' i (deleteRows batch db k) =
      if k' = k ∧ i ∈ batch then none else expiryOf k' i db := by
  have hdel : ∀ {ρ : Type} [Row ρ] (t : Table ρ) (f : ρ → Option ℤ),
      ((SqlUtil.deleteBatch batch t).1.byId i).map f =
        if i ∈ batch then none else (t.byId i).map f := by
    intro ρ _ t f
    rw [SqlUtil.deleteBatch,Table.byId_delete]
    cases h : t.byId i with
    | none => simp
    | some r =>
      rw [← Table.id_of_byId h]
      by_cases hb : Row.id r ∈ batch <;> simp [Option.filter,hb]
  by_cases hk : k' = k
  · subst hk
    cases k' with
    | jobQueue | jobParameter | jobState => simp [expiryOf]
    | _ => simpa [expiryOf,deleteRows] using hdel _ _
  · rw [if_neg fun h => hk h.1]
    cases k <;> cases k' <;> first | rfl | exact absurd rfl hk

theorem doomed_deleteRows (batch : List ℤ) (h : Doomed now k' i db) :
    Doomed now k' i (deleteRows batch db k) := by
  intro e he
  rw [expiryOf_deleteRows] at he
  split_ifs at he
  · cases he
  · exact h e he

theorem Doomed.mono {now' : ℤ} (hle : now ≤ now') (h : Doomed now k i db) : Doomed now' k i db :=
  fun e he => expiredBefore_mono hle (h e he)

theorem doomed_of_expiredIds (h : i ∈ expiredIds now db k) : Doomed now k i db := by
  have hrow : ∀ {ρ : Type} [Row ρ] [Expirable ρ] (t : Table ρ),
      i ∈ (expiredRows now t).map Row.id → ∀ e ∈ (t.byId i).map (Expirable.expireAt : ρ → Option ℤ),
        expiredBefore now e = true := by
    intro ρ _ _ t hi e he
    obtain ⟨r,hr,rfl⟩ := List.mem_map.mp hi
    obtain ⟨hmem,hexp⟩ := List.mem_filter.mp hr
    rw [Table.byId_of_mem hmem] at he
    cases he
    exact hexp
  cases k with
  | jobQueue | jobParameter | jobState => intro e he; cases he
  | job => exact hrow _ h
  | list => exact hrow _ h
  | aggregatedCounter => exact hrow _ h
  | set => exact hrow _ h
  | hash => exact hrow _ h
  | distributedLock =>
    intro e he
    obtain ⟨r,hr,rfl⟩ := List.mem_map.mp h
    obtain ⟨hmem,hexp⟩ := List.mem_filter.mp hr
    simp only [expiryOf,Table.byId_of_mem hmem] at he
    cases he
    exact decide_eq_true (DateTime.fromEpochDate_lt (of_decide_eq_true hexp))

end Statements

section Steps

variable {ser : SerializationHelper} {T : ℤ} {s s' : StorageState}

theorem commit_jobNextId {cmds : List (ℤ × WriteCommand)} {db db' : Db}
    (h : WriteOnlyTransaction.commit ser cmds db = .ok db') : db'.job.nextId = db.job.nextId := by
  refine WriteOnlyTransaction.commit_induction (P := fun d => d.job.nextId = db.job.nextId)
    (Q := fun _ => True) ?_ (by simp) rfl h
  intro now c d d' _ hn hr
  cases run_effect hr with
  | same hs => rw [hs.job,hn]
  | expiry | setState | addState | enqueue => exact hn

theorem SweepsOk.of_doomed (hok : SweepsOk s) (hp : ∀ p ∈ pendingRows s', p ∈ pendingRows s)
    (hd : ∀ p ∈ pendingRows s, Doomed s.now p.1 p.2 s.db → Doomed s'.now p.1 p.2 s'.db)
    (hn : s.db.job.nextId ≤ s'.db.job.nextId) : SweepsOk s' where
  doomed p hmem := hd p (hp p hmem) (hok.doomed p (hp p hmem))
  known i hi := (hok.known i (hp _ hi)).trans_le hn

theorem SweepsOk.of_expiry (hok : SweepsOk s) (hp : pendingRows s' = pendingRows s)
    (hnow : s.now ≤ s'.now) (he : ∀ p ∈ pendingRows s, expiryOf p.1 p.2 s'.db = expiryOf p.1 p.2 s.db)
    (hn : s.db.job.nextId ≤ s'.db.job.nextId) : SweepsOk s' := by
  refine hok.of_doomed (fun p hmem => hp ▸ hmem) (fun p hmem hd => ?_) hn
  have hd' := hd.mono hnow
  unfold Doomed at hd' ⊢
  rwa [he p hmem]

theorem SweepsOk.of_queue (hok : SweepsOk s) (hp : s'.sweeps = s.sweeps) (hn : s'.now = s.now)
    {t : Table JobQueueRow} (hdb : s'.db = { s.db with jobQueue := t }) : SweepsOk s' := by
  refine hok.of_expiry (by rw [pendingRows,hp]; rfl) hn.ge (fun p _ => ?_) (by rw [hdb])
  obtain ⟨k,i⟩ := p
  rw [hdb]
  cases k <;> rfl

theorem released_sweepsOk (hok : SweepsOk s) {p : DistributedLockRow → Bool} (hp : s'.sweeps = s.sweeps)
    (hn : s'.now = s.now)
    (hdb : s'.db = { s.db with distributedLock := s.db.distributedLock.delete p }) : SweepsOk s' := by
  refine hok.of_doomed (fun q hq => by rwa [pendingRows,hp] at hq) (fun q _ hd e he => ?_) (by rw [hdb])
  obtain ⟨k,i⟩ := q
  rw [hn]
  refine hd e ?_
  rw [hdb] at he
  cases k with
  | distributedLock =>
    simp only [expiryOf,Table.byId_delete] at he ⊢
    obtain ⟨r,hr,rfl⟩ := Option.mem_map.mp he
    exact Option.mem_map_of_mem _ (Option.filter_eq_some_iff.mp hr).1
  | _ => exact he

theorem selected_sweepsOk (hok : SweepsOk s) (k : Kind) (o : RowOrder ℤ) (n age : ℕ) :
    SweepsOk { s with sweeps := s.sweeps ++ [Sweep.start k o n (s.now-age) s.db] } := by
  have hnew : ∀ p ∈ pendingRows { s with
      sweeps := s.sweeps ++ [Sweep.start k o n (s.now-age) s.db] },
      p ∈ pendingRows s ∨ p.1 = k ∧ p.2 ∈ expiredIds (s.now-age) s.db k := by
    intro p hp
    simp only [pendingRows,List.flatMap_append,List.flatMap_singleton,List.mem_append] at hp
    refine hp.imp id fun hp => ?_
    rw [Sweep.start,flatten_batches (by decide)] at hp
    obtain ⟨i,hi,rfl⟩ := List.mem_map.mp hp
    exact ⟨rfl,RowOrder.mem_of_mem_take hi⟩
  constructor
  · intro p hp
    rcases hnew p hp with hp | ⟨hk,hi⟩
    · exact hok.doomed p hp
    · rw [hk]
      exact (doomed_of_expiredIds hi).mono (by simp)
  · intro i hp
    rcases hnew _ hp with hp | ⟨hk,hi⟩
    · exact hok.known i hp
    · rw [← hk] at hi
      obtain ⟨r,hr,rfl⟩ := List.mem_map.mp hi
      exact s.db.job.fresh r (List.mem_of_mem_filter hr)

theorem mem_pendingRows_set {i : ℕ} {w : Sweep} (w' : Sweep) {p : Kind × ℤ}
    (hw : s.sweeps[i]? = some w) (hs : s'.sweeps = s.sweeps.set i w') (hp : p ∈ pendingRows s')
    (hk : w'.kind = w.kind) (hsub : ∀ j ∈ w'.pending.flatten, j ∈ w.pending.flatten) :
    p ∈ pendingRows s := by
  obtain ⟨v,hv,hp⟩ := List.mem_flatMap.mp hp
  rw [hs] at hv
  rcases List.mem_or_eq_of_mem_set hv with hv | rfl
  · exact List.mem_flatMap.mpr ⟨v,hv,hp⟩
  · obtain ⟨j,hj,rfl⟩ := List.mem_map.mp hp
    exact List.mem_flatMap.mpr ⟨w,List.mem_of_getElem? hw,List.mem_map.mpr ⟨j,hsub j hj,by rw [hk]⟩⟩

theorem deleted_sweepsOk (hok : SweepsOk s) {i : ℕ} {w : Sweep} {batch : List ℤ}
    {rest : List (List ℤ)} (hi : s.sweeps[i]? = some w) (hp : w.pending = batch::rest) :
    SweepsOk { s with
      db := deleteRows batch s.db w.kind, sweeps := s.sweeps.set i { w with pending := rest } } := by
  refine hok.of_doomed (fun p hmem => ?_) (fun p _ hd => doomed_deleteRows batch hd) ?_
  · refine mem_pendingRows_set ⟨w.kind,rest⟩ hi rfl hmem rfl fun j hj => ?_
    rw [hp,List.flatten_cons]
    exact List.mem_append_right _ hj
  · cases w.kind <;> exact le_rfl

theorem created_sweepsOk (hok : SweepsOk s) (r : JobRow) (t : Table JobParameterRow) :
    SweepsOk (s.withDb { s.db with job := s.db.job.insert r, jobParameter := t }) := by
  refine hok.of_expiry rfl le_rfl (fun p hp => ?_) (Int.lt_succ _).le
  obtain ⟨k,i⟩ := p
  cases k with
  | job =>
    have hlt := hok.known i hp
    simp only [expiryOf,StorageState.withDb,Table.byId_insert,if_neg hlt.ne]
  | _ => rfl

theorem sweepsOk_step (hok : SweepsOk s) {a : Action} (hC : NoRevival ser T s a) :
    SweepsOk (step ser T s a).1 := by
  have h : StepEffect ser T s a _ _ := step_effect a
  generalize hs' : (step ser T s a).1 = s', (step ser T s a).2 = e at h ⊢
  cases h with
  | idle | failed | releasedAgain | deletedNothing => exact hok
  | advanced d => exact hok.of_expiry rfl (by simp) (fun _ _ => rfl) le_rfl
  | committed h =>
    simp only [NoRevival,hs'] at hC
    exact hok.of_doomed (fun p hp => hp) hC (commit_jobNextId h).ge
  | created he => exact created_sweepsOk hok _ _
  | fetched | removed | requeued | disposeRequeued => exact hok.of_queue rfl rfl rfl
  | disposed | crashed => exact hok.of_expiry rfl le_rfl (fun _ _ => rfl) le_rfl
  | inserted hno =>
    simp only [NoRevival,hs'] at hC
    exact hok.of_doomed (fun p hp => hp) hC le_rfl
  | reused hi hlt =>
    simp only [NoRevival,hs'] at hC
    exact hok.of_doomed (fun p hp => hp) hC le_rfl
  | released hi hid ht => exact released_sweepsOk hok rfl rfl (by rw [ht])
  | aggregated h =>
    simp only [NoRevival,hs'] at hC
    obtain ⟨items,t,-,-,rfl⟩ := CountersAggregator.pass_eq_ok h
    exact hok.of_doomed (fun p hp => hp) hC le_rfl
  | selected k o b age => exact selected_sweepsOk hok k o _ age
  | deleted hi hp hr => exact deleted_sweepsOk hok hi hp
  | @deleteFailed i w f hi =>
    exact hok.of_doomed (fun p hp => mem_pendingRows_set ⟨w.kind,[]⟩ hi rfl hp rfl (by simp))
      (fun _ _ hd => hd) le_rfl

theorem removesExpired_deleteBatch (hok : SweepsOk s) (i : ℕ) :
    RemovesExpired s (step ser T s (.deleteBatch i)).1 := by
  intro k j e he hgone
  have h : StepEffect ser T s (.deleteBatch i) _ _ := step_effect _
  generalize (step ser T s (.deleteBatch i)).1 = s', (step ser T s (.deleteBatch i)).2 = ev at h hgone
  cases h with
  | @deleted i w batch rest hi hp hr =>
    rw [expiryOf_deleteRows] at hgone
    split_ifs at hgone with hk
    · obtain ⟨rfl,hj⟩ := hk
      refine hok.doomed (w.kind,j) (List.mem_flatMap.mpr ⟨w,List.mem_of_getElem? hi,?_⟩) e he
      exact List.mem_map.mpr ⟨j,by simp [hp,hj],rfl⟩
    · rw [Option.mem_def.mp he] at hgone
      cases hgone
  | idle | failed | deletedNothing | deleteFailed =>
    rw [Option.mem_def.mp he] at hgone
    cases hgone

end Steps

/-- Every delete statement of a run removes only rows that are expired when it runs. -/
def CleanupExact (ser : SerializationHelper) (T : ℤ) (s : StorageState) (as : List Action) : Prop :=
  ∀ pre i post, as = pre ++ .deleteBatch i :: post →
    RemovesExpired (exec (step ser T) s pre) (exec (step ser T) s (pre ++ [.deleteBatch i]))

/-- Clean-up removes only what is expired in every run without revivals. -/
theorem cleanup_removes_expired {ser : SerializationHelper} {T : ℤ} {s : StorageState}
    {as : List Action} (hs : s.sweeps = []) (hC : Along (step ser T) (NoRevival ser T) s as) :
    CleanupExact ser T s as := by
  rintro pre i post rfl
  have h₀ : SweepsOk s := ⟨by simp [pendingRows,hs],by simp [pendingRows,hs]⟩
  have hok := exec_invariant (fun s a hok hC => sweepsOk_step hok hC)
    ((along_append pre _).mp hC).1 h₀
  rw [exec_append]
  exact removesExpired_deleteBatch hok i

section Runs

/-- An expired job, and a step that selects it. -/
def expiredJobSelected : List Action :=
  [.createExpiredJob "job" "[]" .empty 0 1,.select .job .stored 1000 0]

theorem cleanup_removes_expired_other_commit :
    CleanupExact Json.helper 0 (initial 10)
      (expiredJobSelected ++ [.commit [(10,.incrementCounter "k" none)],.deleteBatch 0]) :=
  cleanup_removes_expired rfl (by decide)

/-- A job that is persisted after it was selected is deleted all the same. -/
theorem persisted_job_deleted :
    ¬ CleanupExact Json.helper 0 (initial 10)
      (expiredJobSelected ++ [.commit [(10,.persistJob "1")],.deleteBatch 0]) := by
  intro h
  have hbefore : expiryOf .job 1 (exec (step Json.helper 0) (initial 10)
      (expiredJobSelected ++ [.commit [(10,.persistJob "1")]])).db = some none := by decide
  have hafter : expiryOf .job 1 (exec (step Json.helper 0) (initial 10)
      (expiredJobSelected ++ [.commit [(10,.persistJob "1")],.deleteBatch 0])).db = none := by decide
  have h₁ := h (expiredJobSelected ++ [.commit [(10,.persistJob "1")]]) 0 [] (by simp) .job 1 none
    hbefore (by simpa using hafter)
  simp [expiredBefore] at h₁

end Runs

end StorageSystem
end HangfireStorage
