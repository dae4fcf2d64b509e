import HangfireStorage.JobStorageConnection

/-!
# What commands do to jobs

Every write command acts on the job tables in one of five ways. Later modules
split cases on this relation and never on the commands themselves.
-/

namespace HangfireStorage

open WriteOnlyTransaction StringToInt32Converter

def WriteCommand.isOnJobs : WriteCommand → Bool
  | .expireJob _ _ | .persistJob _ | .setJobState _ _ | .addJobState _ _ | .addToQueue _ _ => true
  | _ => false

structure Db.SameJobs (db db' : Db) : Prop where
  job : db'.job = db.job
  jobParameter : db'.jobParameter = db.jobParameter
  jobState : db'.jobState = db.jobState
  jobQueue : db'.jobQueue = db.jobQueue

inductive JobEffect (ser : SerializationHelper) (db : Db) : WriteCommand → Db → Prop
  | same {c : WriteCommand} {db' : Db} (h : db.SameJobs db')
      (hset : ∀ j state, c = .setJobState j state → ∀ v, convert j = some v → ¬ db.jobExists v) :
      JobEffect ser db c db'
  | expiry {c : WriteCommand} (v : ℤ) (e : Option ℤ)
      (hset : ∀ j state, c ≠ .setJobState j state) : JobEffect ser db c (setJobExpireAt v e db)
  | setState {j : String} {state : State} {v : ℤ} {job : JobRow} (now : ℤ) (hj : convert j = some v)
      (hjob : db.job.byId v = some job) : JobEffect ser db (.setJobState j state)
        { db with
          jobState := db.jobState.insert (stateRow ser v state now)
          job := db.job.put (withState ser state job) }
  | addState {j : String} {state : State} {v : ℤ} (now : ℤ) (hj : convert j = some v)
      (hjob : db.jobExists v) : JobEffect ser db (.addJobState j state)
        { db with jobState := db.jobState.insert (stateRow ser v state now) }
  | enqueue {queue j : String} {v : ℤ} (hj : convert j = some v) :
      JobEffect ser db (.addToQueue queue j)
        { db with jobQueue := db.jobQueue.insert ⟨0,(db.job.byId v).map JobRow.id,queue,none,none⟩ }

theorem Db.SameJobs.refl (db : Db) : db.SameJobs db := ⟨rfl,rfl,rfl,rfl⟩

section Effects

variable {ser : SerializationHelper} {now : ℤ} {db db' : Db}

/-- Commands on collections leave the job tables alone. -/
theorem run_sameJobs {c : WriteCommand} (hc : c.isOnJobs = false) (h : run ser now db c = .ok db') :
    db.SameJobs db' := by
  cases c with
  | expireJob | persistJob | setJobState | addJobState | addToQueue => cases hc
  | incrementCounter k span | decrementCounter k span =>
    rw [insertCounter_eq_ok h]
    exact ⟨rfl,rfl,rfl,rfl⟩
  | addToSet | addRangeToSet | expireSet | expireList | setRangeInHash | expireHash =>
    obtain ⟨t,-,rfl⟩ := map_eq_ok h
    exact ⟨rfl,rfl,rfl,rfl⟩
  | removeFromSet | persistSet | removeSet | insertToList | removeFromList | trimList | persistList
  | persistHash | removeHash =>
    cases h
    exact ⟨rfl,rfl,rfl,rfl⟩

theorem run_effect {c : WriteCommand} (h : run ser now db c = .ok db') : JobEffect ser db c db' := by
  cases c with
  | expireJob j span =>
    obtain ⟨-,rfl⟩ | ⟨v,-,rfl⟩ := expireJob_eq_ok h
    · exact .same (.refl _) (by simp)
    · exact .expiry v _ (by simp)
  | persistJob j =>
    cases h
    obtain ⟨-,h⟩ | ⟨v,-,h⟩ := persistJob_eq j db <;> rw [h]
    · exact .same (.refl _) (by simp)
    · exact .expiry v none (by simp)
  | setJobState j state =>
    obtain ⟨hmissing,rfl⟩ | ⟨v,job,hj,hjob,rfl⟩ := setJobState_eq_ok h
    · refine .same (.refl _) fun j' s' hc v hv => ?_
      cases hc
      simp [Db.jobExists_iff_byId,hmissing v hv]
    · exact .setState now hj hjob
  | addJobState j state =>
    obtain ⟨-,rfl⟩ | ⟨v,hj,hex,rfl⟩ := addJobState_eq_ok h
    · exact .same (.refl _) (by simp)
    · exact .addState now hj hex
  | addToQueue q j =>
    obtain ⟨-,rfl⟩ | ⟨v,hj,rfl⟩ := JobQueue.enqueue_eq_ok h
    · exact .same (.refl _) (by simp)
    · exact .enqueue hj
  | _ => exact .same (run_sameJobs rfl h) (by simp)

/-- Jobs are neither inserted nor given parameters by a command. -/
theorem run_jobParameter {c : WriteCommand} (h : run ser now db c = .ok db') :
    db'.jobParameter = db.jobParameter ∧ db'.job.nextId = db.job.nextId := by
  cases run_effect h with
  | same hs _ => exact ⟨hs.jobParameter,by rw [hs.job]⟩
  | expiry v e _ => exact ⟨rfl,rfl⟩
  | setState now _ _ => exact ⟨rfl,rfl⟩
  | addState now _ _ => exact ⟨rfl,rfl⟩
  | enqueue _ => exact ⟨rfl,rfl⟩

end Effects
end HangfireStorage
