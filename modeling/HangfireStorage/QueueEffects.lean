import HangfireStorage.StepEffects

/-!
# What steps do to the queue

Every step acts on the queue table, the handles and the clock in one of eight
ways. Later modules split cases on this relation and never on the steps.
-/

namespace HangfireStorage
namespace StorageSystem

open JobQueue DistributedLock ExpirationManager

def Event.AboutQueue : Event → Prop
  | .advanced _ | .fetched _ _ _ | .removed _ _ | .requeued _ _ | .disposed _ _ _ => True
  | .deleted k _ => k = .jobQueue
  | _ => False

/-- The handle ran `Requeue`, by itself or inside `Dispose`. -/
def Event.RequeuedBy (i : ℕ) (row : ℤ) (e : Event) : Prop :=
  e = .requeued i row ∨ e = .disposed i row true

/-- The handle on which an action runs a `Requeue` statement that does not fail. -/
def requeues (s : StorageState) (a : Action) : Option (ℕ × Handle) :=
  match a with
  | .requeue i false => if i ∈ s.crashed then none else s.handles[i]?.map fun h => (i,h)
  | .dispose i false => if i ∈ s.crashed then none else
    (s.handles[i]?.filter Handle.disposeRequeues).map fun h => (i,h)
  | _ => none

/-- Rows come only with new ids and unfetched; the rows there are stay as they are. -/
inductive Grown (t : Table JobQueueRow) : Table JobQueueRow → Prop
  | refl : Grown t t
  | insert {t' : Table JobQueueRow} (job : Option ℤ) (queue : String) :
      Grown t t' → Grown t (t'.insert ⟨0,job,queue,none,none⟩)

theorem commit_grown {ser : SerializationHelper} {cmds : List (ℤ × WriteCommand)} {db db' : Db}
    (h : WriteOnlyTransaction.commit ser cmds db = .ok db') : Grown db.jobQueue db'.jobQueue := by
  refine WriteOnlyTransaction.commit_induction (P := fun d => Grown db.jobQueue d.jobQueue)
    (Q := fun _ => True) ?_ (by simp) .refl h
  intro now c d d' _ hg hr
  cases run_effect hr with
  | same hs => rw [hs.jobQueue]; exact hg
  | expiry => exact hg
  | setState => exact hg
  | addState => exact hg
  | enqueue => exact .insert _ _ hg

theorem deleteRows_jobQueue (batch : List ℤ) (db : Db) (k : Kind) :
    (deleteRows batch db k).jobQueue =
      if k = .jobQueue then db.jobQueue.delete fun i => batch.contains i.id else db.jobQueue := by
  cases k <;> rfl

/-- Everything a step can do to the queue table, the handles and the clock. -/
inductive QueueEffect (T : ℤ) (s : StorageState) (a : Action) (s' : StorageState) : Event → Prop
  | idle {e : Event} (hq : s'.db.jobQueue = s.db.jobQueue) (hn : s'.now = s.now)
      (hh : s'.handles = s.handles) (he : ¬ e.AboutQueue) : QueueEffect T s a s' e
  | advanced (hq : s'.db.jobQueue = s.db.jobQueue) (hn : s.now ≤ s'.now)
      (hh : s'.handles = s.handles) : QueueEffect T s a s' (.advanced s'.now)
  | grown {cmds : List (ℤ × WriteCommand)} (ha : a = .commit cmds)
      (hq : Grown s.db.jobQueue s'.db.jobQueue) (hn : s'.now = s.now)
      (hh : s'.handles = s.handles) : QueueEffect T s a s' (.committed cmds)
  | fetched {i : JobQueueRow} {j : ℤ} {token : String} (hi : i ∈ s.db.jobQueue.rows)
      (hel : eligible (cutoffAt T s.now) i = true)
      (hq : s'.db.jobQueue = s.db.jobQueue.put (marked token s.now i)) (hn : s'.now = s.now)
      (hh : s'.handles = s.handles ++ [Handle.new ⟨i.id,j,i.queue⟩]) :
      QueueEffect T s a s' (.fetched s.handles.length i.id s.now)
  | removed {i : ℕ} {h : Handle} (hi : s.handles[i]? = some h)
      (hq : s'.db.jobQueue = s.db.jobQueue.delete fun r => r.id = h.job.id) (hn : s'.now = s.now)
      (hh : s'.handles = s.handles.set i { h with removedFromQueue := true }) :
      QueueEffect T s a s' (.removed i h.job.id)
  | requeued {i : ℕ} {h h' : Handle} {e : Event} (ha : requeues s a = some (i,h))
      (hi : s.handles[i]? = some h)
      (hq : s'.db.jobQueue =
        s.db.jobQueue.modify (fun r => r.id = h.job.id) (setFetchedAt none)) (hn : s'.now = s.now)
      (hh : s'.handles = s.handles.set i h')
      (he : e = .requeued i h.job.id ∧ h' = { h with requeued := true } ∨
        e = .disposed i h.job.id true ∧ h' = { h with requeued := true, disposed := true } ∧
          h.disposeRequeues = true) :
      QueueEffect T s a s' e
  | disposed {i : ℕ} {h : Handle} (hi : s.handles[i]? = some h) (hd : h.disposeRequeues = false)
      (hq : s'.db.jobQueue = s.db.jobQueue) (hn : s'.now = s.now)
      (hh : s'.handles = s.handles.set i { h with disposed := true }) :
      QueueEffect T s a s' (.disposed i h.job.id false)
  | deleted {rows : List ℤ} (ha : ∃ i, a = .deleteBatch i)
      (hr : ∀ k ∈ rows, ∃ r ∈ s.db.jobQueue.rows, r.id = k)
      (hq : s'.db.jobQueue = s.db.jobQueue.delete fun r => rows.contains r.id)
      (hn : s'.now = s.now) (hh : s'.handles = s.handles) :
      QueueEffect T s a s' (.deleted .jobQueue rows)

variable {T : ℤ} {s : StorageState}

theorem deleted_effect {i : ℕ} {k : Kind} (batch : List ℤ) {s' : StorageState} (hn : s'.now = s.now)
    (hh : s'.handles = s.handles) (hdb : s'.db = deleteRows batch s.db k) :
    QueueEffect T s (.deleteBatch i) s' (.deleted k (batch.filter (ids k s.db).contains)) := by
  have hq := deleteRows_jobQueue batch s.db k
  rw [← hdb] at hq
  by_cases hk : k = .jobQueue
  · subst hk
    rw [if_pos rfl] at hq
    refine .deleted ⟨i,rfl⟩ ?_ (hq.trans (Table.delete_congr ?_)) hn hh
    · intro k hk
      obtain ⟨r,hr,he⟩ : ∃ r ∈ s.db.jobQueue.rows, Row.id r = k := by
        simpa [ids] using (List.mem_filter.mp hk).2
      exact ⟨r,hr,he⟩
    · intro r hr
      have hid : r.id ∈ ids .jobQueue s.db := List.mem_map_of_mem (f := Row.id) hr
      simp [hid]
  · exact .idle (by rw [hq,if_neg hk]) hn hh hk

theorem step_queueEffect (ser : SerializationHelper) (a : Action) :
    QueueEffect T s a (step ser T s a).1 (step ser T s a).2 := by
  have h : StepEffect ser T s a _ _ := step_effect a
  generalize (step ser T s a).1 = s', (step ser T s a).2 = e at h ⊢
  cases h with
  | advanced d => exact .advanced rfl (by simp) rfl
  | committed h => exact .grown rfl (commit_grown h) rfl rfl
  | fetched hi hel hq hj => exact .fetched hi hel rfl rfl rfl
  | removed hc hi => exact .removed hi rfl rfl rfl
  | requeued hc hi =>
    exact .requeued (by simp [requeues,hc,hi]) hi rfl rfl rfl (.inl ⟨rfl,rfl⟩)
  | disposeRequeued hc hi hd =>
    exact .requeued (by simp [requeues,hc,hi,hd]) hi rfl rfl rfl (.inr ⟨rfl,rfl,hd⟩)
  | disposed hi hd => exact .disposed hi hd rfl rfl rfl
  | aggregated h =>
    obtain ⟨items,t,-,-,rfl⟩ := CountersAggregator.pass_eq_ok h
    exact .idle rfl rfl rfl id
  | deleted hi hp hr => exact deleted_effect _ rfl rfl rfl
  | deletedNothing k => exact deleted_effect [] rfl rfl (deleteRows_nil s.db k).symm
  | idle | failed | created | crashed | inserted | reused | released | releasedAgain | selected
  | deleteFailed => exact .idle rfl rfl rfl id

end StorageSystem
end HangfireStorage
