import HangfireStorage.QueueEffects
import HangfireStorage.Lease

/-!
# Exclusive ownership of fetched rows

The queue and its handles refine the ledger of timed leases: a marked row is held
by the handle built for it last, until its mark is `InvisibilityTimeout` old.
-/

namespace HangfireStorage
namespace StorageSystem

open JobQueue Machine Lease

/-- A `Requeue` takes effect only through the last handle on its row, or where the row is
gone or up for a fetch anyway. -/
def OwnRequeue (T : ℤ) (s : StorageState) (a : Action) : Prop :=
  ∀ p ∈ requeues s a,
    p.2.job.id ∉ (s.handles.map fun h => h.job.id).drop (p.1+1) ∨
      ∀ r ∈ s.db.jobQueue.byId p.2.job.id, eligible (cutoffAt T s.now) r = true

instance (T : ℤ) (s : StorageState) (a : Action) : Decidable (OwnRequeue T s a) := by
  unfold OwnRequeue
  infer_instance

def handleRows (s : StorageState) : List ℤ := s.handles.map fun h => h.job.id

/-- An id that stands for no row has been used up or is still to come. -/
def goneSlot (nextId r : ℤ) : Slot (Option ℕ) ℤ := if r < nextId then .retired else .free

/-- The lease on the row with a given id. -/
def rowSlot (T : ℤ) (t : Table JobQueueRow) (holders : List ℤ) (r : ℤ) : Slot (Option ℕ) ℤ :=
  match t.byId r with
  | some i => match i.fetchedAt with
    | none => .free
    | some f => .held (lastIndexOf r holders) (f+T)
  | none => goneSlot t.nextId r

def rowLedger (T : ℤ) (s : StorageState) : Ledger ℤ (Option ℕ) ℤ :=
  ⟨s.now,rowSlot T s.db.jobQueue (handleRows s)⟩

def rowEvent (T : ℤ) : Event → Option (Lease.Event ℤ (Option ℕ) ℤ)
  | .advanced t => some (.tick t)
  | .fetched i r t => some (.acquire (some i) r t (t+T))
  | .removed _ r => some (.retire fun k => k = r)
  | .requeued i r => some (.release (some i) r)
  | .disposed i r true => some (.release (some i) r)
  | .deleted .jobQueue rows => some (.retire rows.contains)
  | _ => none

/-- Handles are built for rows that exist or have existed. -/
def HandlesKnown (s : StorageState) : Prop := ∀ r ∈ handleRows s, r < s.db.jobQueue.nextId

section Slots

variable {T : ℤ} {t : Table JobQueueRow} {holders : List ℤ}

theorem rowSlot_insert (job : Option ℤ) (queue : String) :
    rowSlot T (t.insert ⟨0,job,queue,none,none⟩) holders = rowSlot T t holders := by
  funext r
  unfold rowSlot
  rw [Table.byId_insert]
  by_cases hr : r = t.nextId
  · rw [if_pos hr,Table.byId_nextId t (le_of_eq hr.symm)]
    simp [hr,Row.withId,goneSlot]
  · rw [if_neg hr]
    cases h : t.byId r with
    | none =>
      have hlt : r < t.nextId+1 ↔ r < t.nextId := by omega
      simp [goneSlot,hlt]
    | some i => rfl

theorem rowSlot_grown {t' : Table JobQueueRow} (h : Grown t t') :
    rowSlot T t' holders = rowSlot T t holders := by
  induction h with
  | refl => rfl
  | insert job queue _ ih => rw [rowSlot_insert,ih]

theorem rowSlot_put_marked {i : JobQueueRow} (hi : i ∈ t.rows) (token : String) (now : ℤ) :
    rowSlot T (t.put (marked token now i)) (holders ++ [i.id]) =
      Function.update (rowSlot T t holders) i.id (.held (some holders.length) (now+T)) := by
  funext r
  unfold rowSlot
  rw [byId_put_marked hi]
  by_cases hr : r = i.id
  · simp [hr,marked,lastIndexOf_append]
  · simp [hr,Ne.symm hr,lastIndexOf_append]

theorem rowSlot_delete {p : ℤ → Bool} (hp : ∀ r, p r = true → r < t.nextId) :
    rowSlot T (t.delete fun i => p i.id) holders =
      fun r => if p r then .retired else rowSlot T t holders r := by
  funext r
  unfold rowSlot
  rw [Table.byId_delete]
  cases h : t.byId r with
  | none =>
    by_cases hr : p r = true
    · simp [hr,hp r hr,goneSlot]
    · simp [hr]
  | some i =>
    obtain rfl : i.id = r := Table.id_of_byId h
    have hlt : i.id < t.nextId := Table.lt_of_byId h
    by_cases hr : p i.id = true
    · simp [Option.filter,hr,hlt,goneSlot]
    · simp [Option.filter,hr]

theorem rowSlot_requeue (k : ℤ) :
    rowSlot T (t.modify (fun i => i.id = k) (setFetchedAt none)) holders =
      Function.update (rowSlot T t holders) k (rowSlot T t holders k).released := by
  funext r
  unfold rowSlot
  rw [Table.byId_modify]
  by_cases hr : r = k
  · subst hr
    cases h : t.byId r with
    | none => by_cases hlt : r < t.nextId <;> simp [goneSlot,hlt,Slot.released]
    | some i =>
      obtain rfl : i.id = r := Table.id_of_byId h
      cases hf : i.fetchedAt <;> simp [hf,setFetchedAt,Slot.released]
  · cases h : t.byId r with
    | none => simp [hr,h]
    | some i =>
      obtain rfl : i.id = r := Table.id_of_byId h
      simp [hr,h]

theorem cutoffAt_whole (hT : DateTime.ticksPerMillisecond ∣ T) (now : ℤ) :
    cutoffAt T now = now - T := by
  rw [cutoffAt,DateTime.roundToMilliseconds_of_dvd (Int.dvd_neg.mpr hT)]
  ring

/-- What the query of a fetch lets through is available. -/
theorem rowSlot_available (hT : DateTime.ticksPerMillisecond ∣ T) {now r : ℤ} {i : JobQueueRow}
    (hi : t.byId r = some i) (he : eligible (cutoffAt T now) i = true) :
    (rowSlot T t holders r).Available now := by
  rw [cutoffAt_whole hT] at he
  unfold rowSlot
  cases hf : i.fetchedAt with
  | none => simp [hi,hf,Slot.Available]
  | some f =>
    simp only [hi,hf,Slot.Available]
    simp only [eligible,hf,expiredBefore,Option.isNone_some,Bool.false_or,decide_eq_true_eq] at he
    omega

end Slots

section Refinement

variable {T : ℤ} {s s' : StorageState} {a : Action} {e : Event}

theorem handleRows_set {i : ℕ} {h h' : Handle} (hi : s.handles[i]? = some h)
    (hh : s'.handles = s.handles.set i h') (hj : h'.job = h.job) : handleRows s' = handleRows s := by
  obtain ⟨hlt,rfl⟩ := List.getElem?_eq_some_iff.mp hi
  rw [handleRows,hh,List.map_set,hj,← List.map_set (f := fun h : Handle => h.job.id),
    List.set_getElem_self]
  rfl

theorem mem_handleRows {i : ℕ} {h : Handle} (hi : s.handles[i]? = some h) : h.job.id ∈ handleRows s :=
  List.mem_map.mpr ⟨h,List.mem_of_getElem? hi,rfl⟩

theorem Grown.nextId_le {t t' : Table JobQueueRow} (h : Grown t t') : t.nextId ≤ t'.nextId := by
  induction h with
  | refl => rfl
  | insert job queue _ ih => simp only [Table.nextId_insert]; omega

theorem handlesKnown_step (hk : HandlesKnown s) (he : QueueEffect T s a s' e) :
    HandlesKnown s' := by
  have keep : ∀ {t : Table JobQueueRow}, s'.db.jobQueue = t → t.nextId = s.db.jobQueue.nextId →
      handleRows s' = handleRows s → HandlesKnown s' := by
    intro t hq hn hh r hr
    rw [hq,hn]
    exact hk r (hh ▸ hr)
  cases he with
  | idle hq _ hh => exact keep hq rfl (by rw [handleRows,hh]; rfl)
  | advanced hq _ hh => exact keep hq rfl (by rw [handleRows,hh]; rfl)
  | grown _ hq _ hh =>
    intro r hr
    rw [handleRows,hh] at hr
    exact (hk r hr).trans_le hq.nextId_le
  | @fetched i j token hi _ hq _ hh =>
    intro r hr
    simp only [handleRows,hh,List.map_append,List.mem_append,List.map_cons,List.map_nil,
      List.mem_singleton,Handle.new] at hr
    rw [hq,Table.nextId_put]
    rcases hr with hr | rfl
    · exact hk r hr
    · exact s.db.jobQueue.fresh i hi
  | removed hi hq _ hh => exact keep hq rfl (handleRows_set hi hh rfl)
  | requeued _ hi hq _ hh he =>
    exact keep hq rfl (handleRows_set hi hh (by rcases he with ⟨-,rfl⟩ | ⟨-,rfl,-⟩ <;> rfl))
  | disposed hi _ hq _ hh => exact keep hq rfl (handleRows_set hi hh rfl)
  | deleted _ _ hq _ hh => exact keep hq rfl (by rw [handleRows,hh]; rfl)

theorem releasable (hT : DateTime.ticksPerMillisecond ∣ T) {i : ℕ} {h : Handle}
    (ha : requeues s a = some (i,h)) (hi : s.handles[i]? = some h) (hC : OwnRequeue T s a) :
    (rowSlot T s.db.jobQueue (handleRows s) h.job.id).ReleasableBy (some i) s.now := by
  rcases hC (i,h) ha with hlast | hel
  · have hj := lastIndexOf_eq_some (l := handleRows s) (by simp [handleRows,hi]) hlast
    unfold rowSlot goneSlot
    rw [hj]
    split <;> split <;> simp [Slot.ReleasableBy]
  · cases hr : s.db.jobQueue.byId h.job.id with
    | none =>
      unfold rowSlot goneSlot
      rw [hr]
      split_ifs <;> simp [Slot.ReleasableBy]
    | some i' =>
      have hav : (rowSlot T s.db.jobQueue (handleRows s) h.job.id).Available s.now :=
        rowSlot_available hT hr (hel i' hr)
      revert hav
      cases rowSlot T s.db.jobQueue (handleRows s) h.job.id with
      | free | retired => simp [Slot.ReleasableBy]
      | held h' e => exact .inr

/-- Every step under the condition is a step of the ledger, or leaves it alone. -/
theorem rowLedger_step (hT : DateTime.ticksPerMillisecond ∣ T) (hk : HandlesKnown s)
    (hC : OwnRequeue T s a) (he : QueueEffect T s a s' e) :
    Stutter Lease.Step (rowLedger T s) (rowEvent T e) (rowLedger T s') := by
  cases he with
  | idle hq hn hh hab =>
    have hv : rowEvent T e = none := by
      cases e with
      | deleted k rows => cases k <;> first | rfl | exact absurd rfl hab
      | silent | failed | committed | created | acquired | released => rfl
      | advanced | fetched | removed | requeued | disposed => exact absurd trivial hab
    simp only [hv,stutter_none,rowLedger,handleRows,hq,hn,hh]
  | advanced hq hn hh =>
    simpa only [rowEvent,stutter_some,rowLedger,handleRows,hq,hh] using Step.tick (l := rowLedger T s) hn
  | grown _ hq hn hh => simp only [rowEvent,stutter_none,rowLedger,handleRows,hn,hh,rowSlot_grown hq]
  | @fetched i j token hi hel hq hn hh =>
    have hav : (rowSlot T s.db.jobQueue (handleRows s) i.id).Available s.now :=
      rowSlot_available hT (Table.byId_of_mem hi) hel
    have hr : handleRows s' = handleRows s ++ [i.id] := by simp [handleRows,hh,Handle.new]
    have hl : s.handles.length = (handleRows s).length := by simp [handleRows]
    have hst := Step.acquire (l := rowLedger T s) (h := some s.handles.length) (e := s.now+T) hav
    simpa only [rowEvent,stutter_some,rowLedger,hq,hn,hr,rowSlot_put_marked hi,hl] using hst
  | @removed i h hi hq hn hh =>
    have hp : ∀ r, decide (r = h.job.id) = true → r < s.db.jobQueue.nextId := by
      intro r hr
      rw [of_decide_eq_true hr]
      exact hk _ (mem_handleRows hi)
    have hst := Step.retire (l := rowLedger T s) (p := fun r => r = h.job.id)
    simpa only [rowEvent,stutter_some,rowLedger,hq,hn,handleRows_set hi hh rfl,rowSlot_delete hp] using hst
  | @requeued i h h' e ha hi hq hn hh he =>
    have hst := Step.release (l := rowLedger T s) (releasable hT ha hi hC)
    have hj : h'.job = h.job := by rcases he with ⟨-,rfl⟩ | ⟨-,rfl,-⟩ <;> rfl
    have hv : rowEvent T e = some (.release (some i) h.job.id) := by
      rcases he with ⟨rfl,-⟩ | ⟨rfl,-,-⟩ <;> rfl
    simpa only [hv,stutter_some,rowLedger,hq,hn,handleRows_set hi hh hj,rowSlot_requeue] using hst
  | disposed hi _ hq hn hh => simp only [rowEvent,stutter_none,rowLedger,hq,hn,handleRows_set hi hh rfl]
  | @deleted rows _ hr hq hn hh =>
    have hp : ∀ r, rows.contains r = true → r < s.db.jobQueue.nextId := by
      intro r hmem
      obtain ⟨i,hi,rfl⟩ := hr r (by simpa using hmem)
      exact s.db.jobQueue.fresh i hi
    have hst := Step.retire (l := rowLedger T s) (p := rows.contains)
    simpa only [rowEvent,stutter_some,rowLedger,handleRows,hq,hn,hh,rowSlot_delete hp] using hst

end Refinement

/-- Two fetches of one row are more than `T` apart, or the first handle requeued the row
in between. -/
def Exclusive (T : ℤ) (es : List Event) : Prop :=
  ∀ pre mid post i j r t t', es = pre ++ .fetched i r t :: (mid ++ .fetched j r t' :: post) →
    T < t' - t ∨ ∃ e ∈ mid, e.RequeuedBy i r

/-- A fetched row is owned exclusively in every run without stale requeues. -/
theorem fetched_exclusive {ser : SerializationHelper} {T : ℤ} {s : StorageState} {as : List Action}
    (hT : DateTime.ticksPerMillisecond ∣ T) (hs : s.handles = [])
    (hC : Along (step ser T) (OwnRequeue T) s as) : Exclusive T (trace (step ser T) s as) := by
  have h₀ : HandlesKnown s := by simp [HandlesKnown,handleRows,hs]
  have hpath := simulate (R := Lease.Step) (rowLedger T) (rowEvent T)
    (fun s a hI _ => handlesKnown_step hI (step_queueEffect ser a))
    (fun s a hI hC => rowLedger_step hT hI hC (step_queueEffect ser a)) hC h₀
  intro pre mid post i j r t t' htr
  rw [htr] at hpath
  simp only [List.filterMap_append,List.filterMap_cons,rowEvent] at hpath
  rcases Lease.exclusive hpath with hlt | hrel
  · exact .inl (by omega)
  · right
    obtain ⟨e,he,hv⟩ := List.mem_filterMap.mp hrel
    refine ⟨e,he,?_⟩
    cases e with
    | requeued i' r' => simp_all [rowEvent,Event.RequeuedBy]
    | disposed i' r' b => cases b <;> simp_all [rowEvent,Event.RequeuedBy]
    | deleted k rows => cases k <;> simp [rowEvent] at hv
    | _ => simp [rowEvent] at hv

section Runs

/-- One job in one queue. -/
def oneJobQueued : List Action :=
  [.createExpiredJob "job" "[]" .empty 0 1,.commit [(0,.addToQueue "default" "1")]]

def dequeueDefault : Action := .dequeue .stored ["default"] "token"

theorem fetched_exclusive_two_workers :
    Exclusive 100000 (trace (step Json.helper 100000) (initial 1000000) (oneJobQueued ++
      [dequeueDefault,.advance 100001,dequeueDefault,.dispose 1 false,dequeueDefault])) :=
  fetched_exclusive (by decide) rfl (by decide)

/-- A requeue through a handle whose window has lapsed frees the row of the next one. -/
theorem stale_requeue_not_exclusive :
    ¬ Exclusive 100000 (trace (step Json.helper 100000) (initial 1000000) (oneJobQueued ++
      [dequeueDefault,.advance 100001,dequeueDefault,.requeue 0 false,dequeueDefault])) := by
  have htr : trace (step Json.helper 100000) (initial 1000000) (oneJobQueued ++
      [dequeueDefault,.advance 100001,dequeueDefault,.requeue 0 false,dequeueDefault]) =
      [.created 1,.committed [(0,.addToQueue "default" "1")],.fetched 0 1 1000000,
        .advanced 1100001] ++ .fetched 1 1 1100001 :: ([.requeued 0 1] ++
        .fetched 2 1 1100001 :: []) := by
    decide
  intro h
  have h₁ := h _ _ _ _ _ _ _ _ htr
  simp [Event.RequeuedBy] at h₁

end Runs

end StorageSystem
end HangfireStorage
