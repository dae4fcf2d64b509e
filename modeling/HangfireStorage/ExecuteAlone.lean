import HangfireStorage.ExecuteSteps
import HangfireStorage.Pools
import HangfireStorage.Processes

/-!
# Execute with a storage to itself

Where nothing but the clock moves meanwhile, the statements of an expiration manager come to the
same as whole calls of `DeleteEntities`.
-/

namespace HangfireStorage
namespace Processes

open DistributedLock ExpirationManager LockScope Machine StorageSystem

section

variable (options : Dequeue.Options) (ser : SerializationHelper)

/-- One process gets from state to state while others only wait. -/
def Alone (s : StorageState) (p : Process) (s' : StorageState) (p' : Process) : Prop :=
  ∃ as : List (PoolAction Unit Input Action), (∀ a, .client a ∈ as → ∃ d, a = .advance d) ∧
    exec (poolStep (step ser options.invisibilityTimeout) (processStep options)) ⟨s,fun _ => p⟩ as =
      ⟨s',fun _ => p'⟩

variable {options ser} {s s' s'' : StorageState} {p p' p'' : Process}

theorem Alone.refl (s : StorageState) (p : Process) : Alone options ser s p s p :=
  ⟨[],by simp,rfl⟩

theorem Alone.trans (h : Alone options ser s p s' p') (h' : Alone options ser s' p' s'' p'') :
    Alone options ser s p s'' p'' := by
  obtain ⟨as,has,he⟩ := h
  obtain ⟨as',has',he'⟩ := h'
  refine ⟨as ++ as',fun a ha => ?_,by rw [exec_append,he,he']⟩
  exact (List.mem_append.mp ha).elim (has a) (has' a)

theorem Alone.step (k : Input) (h : (processStep options k s p).1 = (s',p')) :
    Alone options ser s p s' p' := by
  refine ⟨[.process () k],by simp,?_⟩
  have hown : Function.update (fun _ : Unit => p) () p' = fun _ => p' :=
    funext fun u => by simp [Subsingleton.elim u ()]
  simp [poolStep,h,hown]

theorem Alone.wait (d : ℕ) (s : StorageState) (p : Process) :
    Alone options ser s p { s with now := s.now+d } p :=
  ⟨[.client (.advance d)],by simp,rfl⟩

end

section Calls

variable (options : Dequeue.Options) (ser : SerializationHelper) {s : StorageState}
  {a : ExpirationExecute.Action} {i : ExpirationExecute.Circumstance} {c : CleanUp} {lock : Lock}
  {k : Kind} {ks : List Kind} {as : List ExpirationExecute.Action}

theorem cleanUp_alone (i : ExpirationExecute.Circumstance) (age : ℕ) (hactions : c.actions = a::as)
    (hpos : c.position = .delete lock ks) {s' : StorageState} {p' : Process}
    (h : deleteStep a lock i age s c ks = (s',p')) :
    Alone options ser s (.cleanUp c) s' p' := by
  refine .step (.cleanUpStep i age) ?_
  simp only [processStep,cleanUpStep,hactions,hpos]
  exact h

theorem deleteIds_alone (hi : i.thrown = none) {bs rest : List (List ℤ)} {number count : ℕ}
    (hactions : c.actions = a::as) (hpos : c.position = .delete lock (k::ks))
    (hsweep : c.sweep = some (number,⟨k,bs ++ rest⟩,count)) :
    ∃ sweeps, Alone options ser s (.cleanUp c)
      { s with db := (deleteIds k bs count s.db).1, sweeps := sweeps }
      (match (deleteIds k bs count s.db).2 with
        | .ok n => .cleanUp { c with sweep := some (number,⟨k,rest⟩,n) }
        | .error f => raise lock (.ofFault f) c) := by
  induction bs generalizing s c count with
  | nil =>
    refine ⟨s.sweeps,?_⟩
    rw [List.nil_append] at hsweep
    simp only [deleteIds,← hsweep]
    exact .refl _ _
  | cons b bs ih =>
    rw [deleteIds]
    cases hd : deleteStatement b s.db k with
    | error f =>
      exact ⟨s.sweeps.set number ⟨k,[]⟩,
        cleanUp_alone options ser i 0 hactions hpos (by simp [deleteStep,hi,hsweep,hd])⟩
    | ok r =>
      obtain ⟨db,m⟩ := r
      have hone : Alone options ser s (.cleanUp c)
          { s with db := db, sweeps := s.sweeps.set number ⟨k,bs ++ rest⟩ }
          (.cleanUp { c with sweep := some (number,⟨k,bs ++ rest⟩,count+m) }) :=
        cleanUp_alone options ser i 0 hactions hpos (by simp [deleteStep,hi,hsweep,hd])
      obtain ⟨sweeps,hrest⟩ := ih (s := { s with db := db, sweeps := s.sweeps.set number ⟨k,bs ++ rest⟩ })
        (c := { c with sweep := some (number,⟨k,bs ++ rest⟩,count+m) }) hactions hpos rfl
      exact ⟨sweeps,hone.trans hrest⟩

theorem selectDelete_alone (hi : i.thrown = none) (hactions : c.actions = a::as)
    (hpos : c.position = .delete lock (k::ks)) (hsweep : c.sweep = none) {bs rest : List (List ℤ)}
    (hbs : batches SqlUtil.deleteBatchSize (selectIds i.order
      (numberOfRecordsInSinglePass c.deleteExpiredBatchSize) s.now s.db k) = bs ++ rest) :
    ∃ number sweeps, Alone options ser s (.cleanUp c)
      { s with db := (deleteIds k bs 0 s.db).1, sweeps := sweeps }
      (match (deleteIds k bs 0 s.db).2 with
        | .ok n => .cleanUp { c with sweep := some (number,⟨k,rest⟩,n) }
        | .error f => raise lock (.ofFault f) c) := by
  have hselect : Alone options ser s (.cleanUp c) { s with sweeps := s.sweeps ++ [⟨k,bs ++ rest⟩] }
      (.cleanUp { c with sweep := some (s.sweeps.length,⟨k,bs ++ rest⟩,0) }) :=
    cleanUp_alone options ser i 0 hactions hpos (by simp [deleteStep,hi,hsweep,Sweep.start,hbs])
  obtain ⟨sweeps,hdelete⟩ := deleteIds_alone options ser hi
    (s := { s with sweeps := s.sweeps ++ [⟨k,bs ++ rest⟩] })
    (c := { c with sweep := some (s.sweeps.length,⟨k,bs ++ rest⟩,0) }) hactions hpos rfl
  exact ⟨s.sweeps.length,sweeps,hselect.trans hdelete⟩

/-- Where the process stands, as the model by calls has it. -/
def CleanUp.execute (c : CleanUp) (db : Db) : ExpirationExecute.ExecuteState :=
  ⟨db,c.actions,c.position,c.errors⟩

theorem deleteStep_alone (hactions : c.actions = a::as) (hpos : c.position = .delete lock (k::ks))
    (hsweep : c.sweep = none) (hnow : i.utcNow = s.now) :
    ∃ sweeps, Alone options ser s (.cleanUp c)
      { s with
        db := (ExpirationExecute.deleteStep (numberOfRecordsInSinglePass c.deleteExpiredBatchSize) a
          lock i (c.execute s.db) (k::ks)).db
        sweeps := sweeps }
      (.cleanUp { c with
        position := (ExpirationExecute.deleteStep (numberOfRecordsInSinglePass c.deleteExpiredBatchSize)
          a lock i (c.execute s.db) (k::ks)).position }) := by
  have hleft (position : ExpirationExecute.Position) :
      { c with position := position, sweep := none } = { c with position := position } := by
    rw [← hsweep]
  -- the step after the last delete statement that gets through
  have hlast (number : ℕ) (rest : List (List ℤ)) (n : ℕ) (db : Db) (sweeps : List Sweep)
      {position : ExpirationExecute.Position}
      (h : deleteStep a lock i 0 { s with db := db, sweeps := sweeps }
        { c with sweep := some (number,⟨k,rest⟩,n) } (k::ks) =
          ({ s with db := db, sweeps := sweeps },.cleanUp { c with position := position })) :
      Alone options ser { s with db := db, sweeps := sweeps }
        (.cleanUp { c with sweep := some (number,⟨k,rest⟩,n) }) { s with db := db, sweeps := sweeps }
        (.cleanUp { c with position := position }) :=
    cleanUp_alone (c := { c with sweep := some (number,⟨k,rest⟩,n) }) options ser i 0 hactions hpos h
  simp only [ExpirationExecute.deleteStep,ExpirationExecute.callDeleteEntities,CleanUp.execute,hnow]
  cases hi : i.thrown with
  | none =>
    obtain ⟨number,sweeps,hdelete⟩ := selectDelete_alone options ser hi hactions hpos hsweep
      (List.append_nil _).symm
    refine ⟨sweeps,?_⟩
    simp only [deleteEntities]
    generalize batches SqlUtil.deleteBatchSize _ = all at hdelete ⊢
    cases hr : deleteIds k all 0 s.db with
    | mk db result =>
      rw [hr] at hdelete
      cases result with
      | error f => simpa [raise,hleft,Except.mapError] using hdelete
      | ok n =>
        refine hdelete.trans (hlast number [] n db sweeps ?_)
        simp [deleteStep,hi,hleft,Except.mapError]
  | some e =>
    obtain ⟨number,sweeps,hdelete⟩ := selectDelete_alone options ser
      (i := { i with thrown := none, thrown_kind := by simp }) rfl hactions hpos hsweep
      (List.take_append_drop i.statements _).symm
    refine ⟨sweeps,?_⟩
    dsimp only at hdelete ⊢
    generalize batches SqlUtil.deleteBatchSize _ = all at hdelete ⊢
    cases hr : deleteIds k (all.take i.statements) 0 s.db with
    | mk db result =>
      rw [hr] at hdelete
      cases result with
      | error f => simpa [raise,hleft,Except.mapError,Except.bind] using hdelete
      | ok n =>
        refine hdelete.trans (hlast number (all.drop i.statements) n db sweeps ?_)
        simp [deleteStep,hi,raise,hleft,Except.mapError,Except.bind]

/-- A step of the model by calls is a run of statements. -/
theorem advance_alone (hactions : c.actions = a::as) (hsweep : c.sweep = none) (hnow : i.utcNow = s.now) :
    ∃ s' c', Alone options ser s (.cleanUp c) s' (.cleanUp c') ∧
      c'.execute s'.db = ExpirationExecute.advance
        (numberOfRecordsInSinglePass c.deleteExpiredBatchSize) a i (c.execute s.db) ∧
      c'.sweep = none ∧ s'.now = s.now ∧ c'.deleteExpiredBatchSize = c.deleteExpiredBatchSize := by
  have hi : ({ i with utcNow := s.now } : ExpirationExecute.Circumstance) = i := by rw [← hnow]
  have hlockStep (hpos : ∀ lock ks, c.position ≠ .delete lock ks) :
      Alone options ser s (.cleanUp c) (lockStep a i s c).1 (lockStep a i s c).2 := by
    refine .step (.cleanUpStep i 0) ?_
    cases hp : c.position with
    | delete lock ks => exact absurd hp (hpos lock ks)
    | acquire | release | poll => simp [processStep,cleanUpStep,hactions,hp]
  cases hpos : c.position with
  | acquire | release | poll =>
    refine ⟨_,_,hlockStep (by simp [hpos]),?_,hsweep,rfl,rfl⟩
    simp only [lockStep,hi]
    rfl
  | delete lock ks =>
    cases ks with
    | nil =>
      refine ⟨s,{ c with position := .release lock .broke },cleanUp_alone options ser i 0 hactions hpos rfl,?_,
        hsweep,rfl,rfl⟩
      simp [CleanUp.execute,ExpirationExecute.advance,hpos,ExpirationExecute.deleteStep]
    | cons k ks =>
      obtain ⟨sweeps,hdel⟩ := deleteStep_alone options ser hactions hpos hsweep hnow
      refine ⟨_,_,hdel,?_,hsweep,rfl,rfl⟩
      simp only [ExpirationExecute.advance,CleanUp.execute,hpos,ExpirationExecute.deleteStep]
      cases ExpirationExecute.callDeleteEntities (numberOfRecordsInSinglePass c.deleteExpiredBatchSize)
        k i s.db with
      | mk db result => cases result <;> rfl

/-- `Execute` by calls is `Execute` by statements where nothing else works on the storage. -/
theorem execute_alone (size : ℤ) (m : ℕ)
    {is : ℕ → ExpirationExecute.Circumstance} {s : StorageState}
    (h : ExpirationExecute.InOrder s.now is) :
    ∃ s' p', Alone options ser s .idle s' p' ∧
      match ExpirationExecute.execute size m is s.db with
      | (r,none) => ∃ c, p' = .cleanUp c ∧ c.execute s'.db = r
      | (r,some ()) => p' = .idle ∧ s'.db = r.db := by
  have hrun (c : CleanUp) (hsweep : c.sweep = none) (hsize : c.deleteExpiredBatchSize = size) :
      ∃ s' p', Alone options ser s (.cleanUp c) s' p' ∧
        match Loop.run (ExpirationExecute.step (numberOfRecordsInSinglePass size)) m is
          (c.execute s.db) with
        | (r,none) => ∃ c, p' = .cleanUp c ∧ c.execute s'.db = r
        | (r,some ()) => p' = .idle ∧ s'.db = r.db := by
    induction m generalizing is s c with
    | zero => exact ⟨s,.cleanUp c,.refl _ _,c,rfl,rfl⟩
    | succ m ih =>
      cases hactions : c.actions with
      | nil =>
        have hstop : ExpirationExecute.step (numberOfRecordsInSinglePass size) (is 0) (c.execute s.db) =
            (c.execute s.db,some ()) := by
          simp [ExpirationExecute.step,CleanUp.execute,hactions]
        rw [Loop.run_of_stop hstop]
        refine ⟨s,.idle,.step (.cleanUpStep (is 0) 0) ?_,rfl,rfl⟩
        simp [processStep,cleanUpStep,hactions]
      | cons a as =>
        have hgo : ExpirationExecute.step (numberOfRecordsInSinglePass size) (is 0) (c.execute s.db) =
            (ExpirationExecute.advance (numberOfRecordsInSinglePass size) a (is 0) (c.execute s.db),
              none) := by
          simp [ExpirationExecute.step,CleanUp.execute,hactions]
        obtain ⟨d,hd⟩ := Int.eq_ofNat_of_zero_le (Int.sub_nonneg.mpr h.start)
        have hnow : (is 0).utcNow = s.now+d := by omega
        obtain ⟨s₁,c₁,halone,hadvance,hsweep₁,hnow₁,hsize₁⟩ := advance_alone options ser (i := is 0)
          (s := { s with now := s.now+d }) hactions hsweep hnow
        rw [Loop.run_of_go hgo]
        rw [hsize] at hadvance
        have hlater : ExpirationExecute.InOrder s₁.now (Loop.later is) := by
          rw [hnow₁,← hnow]
          exact ⟨h.mono 0,fun k => h.mono (k+1)⟩
        obtain ⟨s',p',hrest,hout⟩ := ih hlater c₁ hsweep₁ (hsize₁.trans hsize)
        refine ⟨s',p',((Alone.wait d s _).trans halone).trans hrest,?_⟩
        rw [hadvance] at hout
        exact hout
  obtain ⟨s',p',halone,hout⟩ := hrun ⟨size,ExpirationExecute.actions,.acquire,[],none,0,0⟩ rfl rfl
  exact ⟨s',p',(Alone.step (.cleanUp size) rfl).trans halone,hout⟩

end Calls

end Processes
end HangfireStorage
