import HangfireStorage.NoJobLost
import HangfireStorage.QueueReferences

/-!
# Waiting rows are served

As long as no timeout has passed, every fetch hides one row more. What lets rows be visible that
were not is the enqueueing of new ones and the requeueing of others, so that a row waits only for
as many fetches as there are rows.
-/

namespace HangfireStorage
namespace StorageSystem

open JobQueue Machine

/-- The row has been fetched at that time or later. -/
def hiddenSince (start : ℤ) (r : JobQueueRow) : Bool := r.fetchedAt.elim false fun t => start ≤ t

def visibleRows (start : ℤ) (t : Table JobQueueRow) : ℕ := t.rows.countP fun r => !hiddenSince start r

def Event.isFetch : Event → Bool
  | .fetched _ _ _ => true
  | _ => false

def Event.isRequeue : Event → Bool
  | .requeued _ _ => true
  | .disposed _ _ again => again
  | _ => false

/-- The row does not wait any longer. -/
def Event.Takes (k : ℤ) : Event → Prop
  | .fetched _ row _ | .removed _ row => row = k
  | .deleted kind rows => kind = .jobQueue ∧ k ∈ rows
  | _ => False

/-- A Dequeue attempt on an array that names the queue. -/
def Action.asks (queue : String) : Action → Bool
  | .dequeue _ queues _ => queues.contains queue
  | _ => false

def Waits (T : ℤ) (k : ℤ) (queue : String) (s : StorageState) : Prop :=
  ∃ r ∈ s.db.jobQueue.rows, r.id = k ∧ r.queue = queue ∧ eligible (cutoffAt T s.now) r = true

section Visible

variable {t : Table JobQueueRow} {r r' : JobQueueRow}

theorem visibleRows_put (start : ℤ) (hr : r ∈ t.rows) (hid : r'.id = r.id) :
    (visibleRows start (t.put r') : ℤ) + (if hiddenSince start r then 0 else 1) =
      visibleRows start t + if hiddenSince start r' then 0 else 1 := by
  obtain ⟨l₁,l₂,hrows,hput⟩ := Table.rows_put_of_mem r' hr hid
  rw [visibleRows,visibleRows,hrows,hput]
  simp only [List.countP_append,List.countP_cons]
  cases hiddenSince start r <;> cases hiddenSince start r' <;> simp <;> omega

theorem visibleRows_insert (start : ℤ) (job : Option ℤ) (queue : String) :
    visibleRows start (t.insert ⟨0,job,queue,none,none⟩) = visibleRows start t + 1 := by
  simp [visibleRows,Row.withId,hiddenSince]

theorem visibleRows_grown (start : ℤ) {t' : Table JobQueueRow} (h : Grown t t') :
    (visibleRows start t' : ℤ) = visibleRows start t + (t'.nextId - t.nextId) := by
  induction h with
  | refl => simp
  | insert job queue _ ih =>
    rw [visibleRows_insert,Table.nextId_insert]
    omega

theorem visibleRows_delete (start : ℤ) (p : JobQueueRow → Bool) :
    visibleRows start (t.delete p) ≤ visibleRows start t := by
  rw [visibleRows,visibleRows,Table.rows_delete]
  exact List.filter_sublist.countP_le

theorem visibleRows_requeue (start : ℤ) (t : Table JobQueueRow) (k : ℤ) :
    visibleRows start (t.modify (fun r => r.id = k) (setFetchedAt none)) ≤ visibleRows start t + 1 := by
  by_cases hk : ∃ r ∈ t.rows, r.id = k
  · obtain ⟨r,hr,rfl⟩ := hk
    have hput : t.modify (fun a => a.id = r.id) (setFetchedAt none) =
        t.put ((setFetchedAt none).apply r) := Table.modify_eq_put _ hr
    have hcount := visibleRows_put start hr
      (rfl : ((setFetchedAt none).apply r).id = r.id)
    rw [hput]
    split_ifs at hcount <;> omega
  · have hsame : t.modify (fun r => r.id = k) (setFetchedAt none) = t := by
      refine Table.ext ((List.map_congr_left fun r hr => ?_).trans (List.map_id _)) rfl
      exact if_neg fun h => hk ⟨r,hr,by simpa using h⟩
    rw [hsame]
    omega

/-- Within the timeout a row that is up for a fetch has not been fetched since the start. -/
theorem not_hiddenSince_of_eligible {T now start : ℤ} (hnow : now ≤ start + roundedTimeout T)
    (h : eligible (cutoffAt T now) r = true) : hiddenSince start r = false := by
  cases hf : r.fetchedAt with
  | none => simp [hiddenSince,hf]
  | some t =>
    simp only [eligible,hf,Option.isNone_some,expiredBefore,Bool.false_or,decide_eq_true_eq] at h
    simp only [cutoffAt] at h
    simp only [roundedTimeout] at hnow
    simp only [hiddenSince,hf,Option.elim_some,decide_eq_false_iff_not]
    omega

end Visible

section Steps

variable {ser : SerializationHelper} {T start : ℤ} {s s' : StorageState} {a : Action} {e : Event}

/-- What one step does to the number of visible rows. -/
theorem visibleRows_step (he : QueueEffect T s a s' e) (hstart : start ≤ s.now)
    (hnow : s.now ≤ start + roundedTimeout T) :
    (visibleRows start s'.db.jobQueue : ℤ) + e.isFetch.toNat ≤ visibleRows start s.db.jobQueue +
      (s'.db.jobQueue.nextId - s.db.jobQueue.nextId) + e.isRequeue.toNat := by
  cases he with
  | idle hq _ _ habout =>
    have hfetch : e.isFetch = false := by
      cases e <;> first | rfl | exact absurd trivial habout
    simp [hq,hfetch]
  | advanced hq => simp [hq,Event.isFetch]
  | grown _ hq =>
    have hcount := visibleRows_grown start hq
    simp [Event.isFetch,Event.isRequeue,hcount]
  | @fetched i j token hi hel hq =>
    have hcount := visibleRows_put start hi (rfl : (marked token s.now i).id = i.id)
    have hhidden : hiddenSince start (marked token s.now i) = true := by
      simp [hiddenSince,marked,hstart]
    rw [hhidden,not_hiddenSince_of_eligible hnow hel] at hcount
    rw [hq]
    simp [Event.isFetch,Event.isRequeue] at hcount ⊢
    omega
  | removed _ hq =>
    rw [hq]
    simpa [Event.isFetch,Event.isRequeue] using visibleRows_delete start _
  | @requeued i h h' e _ _ hq _ _ he =>
    have hcount := visibleRows_requeue start s.db.jobQueue h.job.id
    have hfetch : e.isFetch = false := by obtain ⟨rfl,-⟩ | ⟨rfl,-⟩ := he <;> rfl
    have hrequeue : e.isRequeue = true := by obtain ⟨rfl,-⟩ | ⟨rfl,-⟩ := he <;> rfl
    rw [hq,hfetch,hrequeue]
    simp only [Bool.toNat_false,Bool.toNat_true,Table.nextId_modify]
    omega
  | disposed _ _ hq => simp [hq,Event.isFetch,Event.isRequeue]
  | deleted _ _ hq =>
    rw [hq]
    simpa [Event.isFetch,Event.isRequeue] using visibleRows_delete start _

theorem eligible_mono {T now now' : ℤ} {r : JobQueueRow} (hle : now ≤ now')
    (h : eligible (cutoffAt T now) r = true) : eligible (cutoffAt T now') r = true := by
  have hcut : cutoffAt T now ≤ cutoffAt T now' := by
    simp only [cutoffAt]
    omega
  rw [eligible,Bool.or_eq_true] at h ⊢
  exact h.imp_right (expiredBefore_mono hcut)

theorem Grown.subset {t t' : Table JobQueueRow} (h : Grown t t') : t.rows ⊆ t'.rows := by
  induction h with
  | refl => exact List.Subset.refl _
  | insert job queue _ ih => exact fun r hr => List.mem_append_left _ (ih hr)

/-- A row that no event takes goes on waiting. -/
theorem waits_step {k : ℤ} {queue : String} (he : QueueEffect T s a s' e) (hw : Waits T k queue s)
    (hk : ¬ e.Takes k) : Waits T k queue s' := by
  obtain ⟨r,hr,rfl,rfl,hel⟩ := hw
  have hsame : s'.now = s.now → r ∈ s'.db.jobQueue.rows → Waits T r.id r.queue s' :=
    fun hn hr => ⟨r,hr,rfl,rfl,hn ▸ hel⟩
  cases he with
  | idle hq hn => exact hsame hn (hq ▸ hr)
  | advanced hq hn => exact ⟨r,hq ▸ hr,rfl,rfl,eligible_mono hn hel⟩
  | grown _ hq hn => exact hsame hn (hq.subset hr)
  | fetched hi _ hq hn =>
    refine hsame hn (hq ▸ List.mem_map.mpr ⟨r,hr,if_neg fun hid => hk hid.symm⟩)
  | removed _ hq hn =>
    refine hsame hn (hq ▸ List.mem_filter.mpr ⟨hr,?_⟩)
    simpa using fun hid => hk (Eq.symm hid)
  | requeued _ _ hq hn =>
    rw [Waits,hq,hn]
    refine ⟨_,List.mem_map_of_mem hr,?_⟩
    split_ifs
    · exact ⟨rfl,rfl,rfl⟩
    · exact ⟨rfl,rfl,hel⟩
  | disposed _ _ hq hn => exact hsame hn (hq ▸ hr)
  | deleted _ _ hq hn =>
    refine hsame hn (hq ▸ List.mem_filter.mpr ⟨hr,?_⟩)
    simpa [Event.Takes] using hk

theorem now_le_step (he : QueueEffect T s a s' e) : s.now ≤ s'.now := by
  cases he with
  | advanced _ hn => exact hn
  | idle _ hn | grown _ _ hn | fetched _ _ _ hn | removed _ _ hn | requeued _ _ _ hn
  | disposed _ _ _ hn | deleted _ _ _ hn => exact hn.ge

/-- An attempt that finds a row waiting fetches one, not always that one. -/
theorem dequeue_fetches {k : ℤ} {queue : String} (hw : Waits T k queue s)
    (hn : NoNullJob s.db.jobQueue) (hc : DateTime.InRange (cutoffAt T s.now))
    (ha : a.asks queue = true) : (step ser T s a).2.isFetch = true := by
  cases a with
  | dequeue o queues token =>
    obtain ⟨r,hr,-,hqueue,hel⟩ := hw
    have hqueues : r.queue ∈ queues := by simpa [Action.asks,hqueue] using ha
    have hcut : cutoff T s.now = .ok (cutoffAt T s.now) := DateTime.add_of_inRange hc
    have hmem : r ∈ candidates (cutoffAt T s.now) queues s.db := mem_candidates.mpr ⟨hr,hel,hqueues⟩
    cases ho : o.firstOrDefault (candidates (cutoffAt T s.now) queues s.db) with
    | none =>
      rw [RowOrder.firstOrDefault_eq_none.mp ho] at hmem
      cases hmem
    | some i =>
      have hi := (mem_candidates.mp (RowOrder.firstOrDefault_mem ho)).1
      obtain ⟨j,hj⟩ := Option.ne_none_iff_exists'.mp (hn i hi)
      simp only [step,fetch,hcut,ho,hj]
      rfl
  | _ => cases ha

end Steps

section Runs

variable {ser : SerializationHelper} {T : ℤ} {s : StorageState} {as : List Action}

theorem now_le_exec (as : List Action) : s.now ≤ (exec (step ser T) s as).now := by
  refine exec_invariant (C := fun _ _ => True) (I := fun s' : StorageState => s.now ≤ s'.now) ?_
    (along_of_forall fun _ _ _ => trivial) le_rfl
  exact fun s' a hle _ => hle.trans (now_le_step (step_queueEffect ser a))

/-- The clock of a run that ends in time is in time all along. -/
theorem along_now_le {b : ℤ} (h : (exec (step ser T) s as).now ≤ b) :
    Along (step ser T) (fun s _ => s.now ≤ b) s as := by
  induction as generalizing s with
  | nil => trivial
  | cons a as ih => exact ⟨(now_le_exec (a::as)).trans h,ih h⟩

/-- What holds as long as no event takes the row. -/
structure Unserved (T k : ℤ) (queue : String) (s : StorageState) (as : List Action)
    (s' : StorageState) (es : List Event) : Prop where
  waits : Waits T k queue s'
  noNullJob : NoNullJob s'.db.jobQueue
  attempts : as.countP (Action.asks queue) ≤ es.countP Event.isFetch
  visible : (visibleRows s.now s'.db.jobQueue : ℤ) + es.countP Event.isFetch ≤
    visibleRows s.now s.db.jobQueue + (s'.db.jobQueue.nextId - s.db.jobQueue.nextId) +
      es.countP Event.isRequeue

theorem unserved_step {k : ℤ} {queue : String} {s' : StorageState} {es : List Event}
    (h : Unserved T k queue s as s' es) (hstart : s.now ≤ s'.now)
    (hnow : s'.now ≤ s.now + roundedTimeout T) (hr : DateTime.InRange s.now)
    (hc : DateTime.InRange (cutoffAt T s.now)) {a : Action} (hC : CommitsNameJobs ser s' a)
    (hk : ¬ (step ser T s' a).2.Takes k) :
    Unserved T k queue s (as ++ [a]) (step ser T s' a).1 (es ++ [(step ser T s' a).2]) := by
  have he : QueueEffect T s' a _ _ := step_queueEffect ser a
  have hcut : DateTime.InRange (cutoffAt T s'.now) := by
    simp only [DateTime.InRange,cutoffAt,roundedTimeout] at hr hc hnow ⊢
    omega
  refine ⟨waits_step he h.waits hk,noNullJob_step h.noNullJob hC,?_,?_⟩
  · rw [List.countP_append,List.countP_append,List.countP_singleton,List.countP_singleton]
    refine Nat.add_le_add h.attempts ?_
    by_cases ha : a.asks queue = true
    · rw [if_pos ha,if_pos (dequeue_fetches h.waits h.noNullJob hcut ha)]
    · rw [if_neg ha]
      exact Nat.zero_le _
  · have hvisible := h.visible
    have hstep := visibleRows_step he hstart hnow
    simp only [List.countP_append,List.countP_singleton,Nat.cast_add]
    generalize (step ser T s' a).2.isFetch = f, (step ser T s' a).2.isRequeue = q at hstep ⊢
    cases f <;> cases q <;> simp at hstep ⊢ <;> omega

theorem unserved_exec {k : ℤ} {queue : String} (hw : Waits T k queue s)
    (hn : NoNullJob s.db.jobQueue) (hr : DateTime.InRange s.now)
    (hc : DateTime.InRange (cutoffAt T s.now)) (hC : Along (step ser T) (CommitsNameJobs ser) s as)
    (hclock : Along (step ser T) (fun s' _ => s'.now ≤ s.now + roundedTimeout T) s as)
    (hk : ∀ e ∈ trace (step ser T) s as, ¬ e.Takes k) :
    Unserved T k queue s as (exec (step ser T) s as) (trace (step ser T) s as) := by
  induction as using List.reverseRecOn with
  | nil => exact ⟨hw,hn,le_rfl,by simp⟩
  | append_singleton as a ih =>
    obtain ⟨hC,hCa,-⟩ := (along_append as [a]).mp hC
    obtain ⟨hclock,hnow,-⟩ := (along_append as [a]).mp hclock
    rw [trace_append] at hk ⊢
    rw [exec_append]
    refine unserved_step (ih hC hclock fun e he => hk e (List.mem_append_left _ he)) (now_le_exec as)
      hnow hr hc hCa (hk _ ?_)
    simp

/-- A row that is up for a fetch is taken before more attempts have been made on its queue than
there are rows, counted with repetition: those there at first, those inserted meanwhile, and those
requeued. The run lasts no longer than the timeout, its transactions queue only jobs that exist,
and the cut-off of its fetches can be computed. -/
theorem waiting_row_is_served {r : JobQueueRow} (hrow : r ∈ s.db.jobQueue.rows)
    (hel : eligible (cutoffAt T s.now) r = true) (hn : NoNullJob s.db.jobQueue)
    (hC : Along (step ser T) (CommitsNameJobs ser) s as) (hr : DateTime.InRange s.now)
    (hc : DateTime.InRange (cutoffAt T s.now))
    (hclock : (exec (step ser T) s as).now ≤ s.now + roundedTimeout T)
    (hmany : (s.db.jobQueue.rows.length : ℤ) +
      ((exec (step ser T) s as).db.jobQueue.nextId - s.db.jobQueue.nextId) +
      (trace (step ser T) s as).countP Event.isRequeue ≤ as.countP (Action.asks r.queue)) :
    ∃ e ∈ trace (step ser T) s as, e.Takes r.id := by
  by_contra hno
  push Not at hno
  have h := unserved_exec ⟨r,hrow,rfl,rfl,hel⟩ hn hr hc hC (along_now_le hclock) hno
  obtain ⟨r',hrow',-,-,hel'⟩ := h.waits
  have hpos : 0 < visibleRows s.now (exec (step ser T) s as).db.jobQueue :=
    List.countP_pos_iff.mpr ⟨r',hrow',by simp [not_hiddenSince_of_eligible hclock hel']⟩
  have hle : visibleRows s.now s.db.jobQueue ≤ s.db.jobQueue.rows.length := List.countP_le_length
  have hattempts := h.attempts
  have hvisible := h.visible
  omega

/-- Two jobs wait, and two attempts fetch both in whatever order. -/
theorem waiting_row_is_served_second : ∃ e ∈ trace (step Json.helper 100000)
    (exec (step Json.helper 100000) (initial 1000000)
      (oneJobQueued ++ [.commit [(0,.addToQueue "default" "1")]]))
    [dequeueDefault,dequeueDefault], e.Takes 2 :=
  waiting_row_is_served (r := ⟨2,some 1,"default",none,none⟩) (by decide) (by decide)
    (by unfold NoNullJob; decide) (by decide) (by decide) (by decide) (by decide) (by decide)

end Runs

end StorageSystem
end HangfireStorage
