import HangfireStorage.QueueExclusion

/-!
# No queued job is lost

The history of a run accounts for every mark on a queue row, every flag of a
handle and every row that is gone.
-/

namespace HangfireStorage
namespace StorageSystem

open JobQueue Machine

def mark (t : Table JobQueueRow) (k : ℤ) : Option (Option ℤ) := (t.byId k).map JobQueueRow.fetchedAt

/-- What a step can do to the mark of one row. -/
inductive MarkStep (s : StorageState) (k : ℤ) (e : Event) (m m' : Option (Option ℤ)) : Prop
  | same (h : m' = m)
  | inserted (hk : s.db.jobQueue.nextId ≤ k) (h : m' = some none)
  | fetched (he : e = .fetched s.handles.length k s.now) (h : m' = some (some s.now))
  | removed (i : ℕ) (he : e = .removed i k) (h : m' = none)
  | requeued (i : ℕ) (he : e.RequeuedBy i k) (h : m' = m.map fun _ => none)

/-- What a step can do to the handle with one number. -/
inductive HandleStep (s s' : StorageState) (e : Event) (i : ℕ) (h' : Handle) : Prop
  | same (hi : s.handles[i]? = some h')
  | built (hi : i = s.handles.length) (he : e = .fetched i h'.job.id s.now)
      (hm : mark s'.db.jobQueue h'.job.id = some (some s.now)) (hr : h'.removedFromQueue = false)
      (hq : h'.requeued = false) (hd : h'.disposed = false)
  | removed {h : Handle} (hi : s.handles[i]? = some h) (he : e = .removed i h.job.id)
      (hh : h' = { h with removedFromQueue := true })
  | requeued {h : Handle} (hi : s.handles[i]? = some h) (he : e.RequeuedBy i h.job.id)
      (hj : h'.job = h.job) (hr : h'.removedFromQueue = h.removedFromQueue) (hq : h'.requeued = true)
      (hm : mark s'.db.jobQueue h.job.id = (mark s.db.jobQueue h.job.id).map fun _ => none)
  | disposed {h : Handle} (hi : s.handles[i]? = some h) (hd : h.disposeRequeues = false)
      (hh : h' = { h with disposed := true })

section Steps

variable {T : ℤ} {s s' : StorageState} {a : Action} {e : Event}

theorem mark_grown {t t' : Table JobQueueRow} (h : Grown t t') (k : ℤ) :
    mark t' k = mark t k ∨ t.nextId ≤ k ∧ mark t' k = some none := by
  induction h with
  | refl => exact .inl rfl
  | @insert t' job queue hg ih =>
    by_cases hk : k = t'.nextId
    · subst hk
      exact .inr ⟨hg.nextId_le,by simp [mark,Table.byId_insert,Row.withId]⟩
    · simpa [mark,Table.byId_insert,hk] using ih

theorem mark_put_marked {t : Table JobQueueRow} {i : JobQueueRow} (hi : i ∈ t.rows)
    (token : String) (now k : ℤ) :
    mark (t.put (marked token now i)) k = if k = i.id then some (some now) else mark t k := by
  rw [mark,byId_put_marked hi]
  split_ifs <;> rfl

theorem mark_delete (t : Table JobQueueRow) (j k : ℤ) :
    mark (t.delete fun r => r.id = j) k = if k = j then none else mark t k := by
  rw [mark,mark,Table.byId_delete]
  cases hr : t.byId k with
  | none => simp
  | some r =>
    have hid : r.id = k := Table.id_of_byId hr
    by_cases hk : k = j <;> simp [Option.filter,hid,hk]

theorem mark_requeue (t : Table JobQueueRow) (j k : ℤ) :
    mark (t.modify (fun r => r.id = j) (setFetchedAt none)) k =
      if k = j then (mark t k).map fun _ => none else mark t k := by
  rw [mark,mark,Table.byId_modify,Option.map_map]
  cases hr : t.byId k with
  | none => simp
  | some r =>
    have hid : r.id = k := Table.id_of_byId hr
    by_cases hk : k = j <;> simp [hid,hk,setFetchedAt]

theorem mark_step (he : QueueEffect T s a s' e) (ha : a.isCleanup = false) (k : ℤ) :
    MarkStep s k e (mark s.db.jobQueue k) (mark s'.db.jobQueue k) := by
  cases he with
  | idle hq | advanced hq => exact .same (by rw [hq])
  | disposed _ _ hq => exact .same (by rw [hq])
  | grown _ hq =>
    rcases mark_grown hq k with h | ⟨hk,h⟩
    · exact .same h
    · exact .inserted hk h
  | @fetched i j token hi _ hq =>
    rw [hq,mark_put_marked hi]
    split_ifs with hk
    · exact .fetched (by rw [hk]) rfl
    · exact .same rfl
  | @removed i h _ hq =>
    rw [hq,mark_delete]
    split_ifs with hk
    · exact .removed i (by rw [hk]) rfl
    · exact .same rfl
  | @requeued i h h' e _ _ hq _ _ he =>
    rw [hq,mark_requeue]
    split_ifs with hk
    · exact .requeued i (hk ▸ he.imp And.left And.left) rfl
    · exact .same rfl
  | deleted hdel =>
    obtain ⟨i,rfl⟩ := hdel
    cases ha

theorem handle_set {i j : ℕ} {h h' h'' : Handle} (hj : (s.handles.set i h')[j]? = some h'')
    (hi : s.handles[i]? = some h) : s.handles[j]? = some h'' ∨ j = i ∧ h'' = h' := by
  by_cases hij : i = j
  · subst hij
    obtain ⟨hlt,-⟩ := List.getElem?_eq_some_iff.mp hi
    rw [List.getElem?_set_self hlt,Option.some.injEq] at hj
    exact .inr ⟨rfl,hj.symm⟩
  · rw [List.getElem?_set_ne hij] at hj
    exact .inl hj

theorem handle_step (he : QueueEffect T s a s' e) {j : ℕ} {h'' : Handle}
    (hj : s'.handles[j]? = some h'') : HandleStep s s' e j h'' := by
  cases he with
  | idle _ _ hh | advanced _ _ hh | grown _ _ _ hh | deleted _ _ _ _ hh => exact .same (hh ▸ hj)
  | fetched hi _ hq _ hh =>
    rw [hh] at hj
    rcases Nat.lt_or_ge j s.handles.length with hlt | hge
    · exact .same (by rwa [List.getElem?_append_left hlt] at hj)
    · have hlen := (List.getElem?_eq_some_iff.mp hj).1
      simp only [List.length_append,List.length_singleton] at hlen
      obtain rfl : j = s.handles.length := by omega
      simp only [List.getElem?_concat_length,Option.some.injEq] at hj
      subst hj
      refine .built rfl rfl ?_ rfl rfl rfl
      rw [hq,mark_put_marked hi]
      exact if_pos rfl
  | removed hi _ _ hh =>
    rcases handle_set (hh ▸ hj) hi with hs | ⟨rfl,rfl⟩
    · exact .same hs
    · exact .removed hi rfl rfl
  | @requeued i h h' e _ hi hq _ hh he =>
    rcases handle_set (hh ▸ hj) hi with hs | ⟨rfl,rfl⟩
    · exact .same hs
    · have hm : mark s'.db.jobQueue h.job.id = (mark s.db.jobQueue h.job.id).map fun _ => none := by
        rw [hq,mark_requeue,if_pos rfl]
      rcases he with ⟨he,rfl⟩ | ⟨he,rfl,-⟩
      · exact .requeued hi (.inl he) rfl rfl rfl hm
      · exact .requeued hi (.inr he) rfl rfl rfl hm
  | disposed hi hd _ _ hh =>
    rcases handle_set (hh ▸ hj) hi with hs | ⟨rfl,rfl⟩
    · exact .same hs
    · exact .disposed hi hd rfl

end Steps

/-- Handle `i` has requeued row `k`, and `P` holds of what was shown since. -/
def SinceRequeue (i : ℕ) (k : ℤ) (es : List Event) (P : List Event → Prop) : Prop :=
  ∃ xs e ys, es = xs ++ e::ys ∧ e.RequeuedBy i k ∧ P ys

def RemovedByOther (i : ℕ) (k : ℤ) (es : List Event) : Prop := ∃ j, j ≠ i ∧ .removed j k ∈ es

def FetchedByOther (i : ℕ) (k : ℤ) (es : List Event) : Prop :=
  ∃ j t, j ≠ i ∧ .fetched j k t ∈ es

/-- The history accounts for what handle `i` remembers and for its row. -/
structure HandleOk (t : Table JobQueueRow) (es : List Event) (i : ℕ) (h : Handle) : Prop where
  fetched : ∃ now, .fetched i h.job.id now ∈ es
  removed : h.removedFromQueue = true → .removed i h.job.id ∈ es
  requeued : h.requeued = true → SinceRequeue i h.job.id es fun ys =>
    mark t h.job.id = some none ∨ (∃ j, .removed j h.job.id ∈ es) ∨ FetchedByOther i h.job.id ys
  disposed : h.disposed = true → h.removedFromQueue = true ∨ h.requeued = true
  gone : mark t h.job.id = none → ∃ j, .removed j h.job.id ∈ es

structure Accounted (s : StorageState) (es : List Event) : Prop where
  known : HandlesKnown s
  handles : ∀ i h, s.handles[i]? = some h → HandleOk s.db.jobQueue es i h
  marks : ∀ k f, mark s.db.jobQueue k = some (some f) → ∃ i, .fetched i k f ∈ es
  removals : ∀ i k, .removed i k ∈ es → ∃ now, .fetched i k now ∈ es

section Accounting

variable {T : ℤ} {s s' : StorageState} {a : Action} {e : Event} {es : List Event}

theorem mem_snoc {e' : Event} (h : e' ∈ es) : e' ∈ es ++ [e] := List.mem_append_left _ h

theorem SinceRequeue.snoc {i : ℕ} {k : ℤ} {P Q : List Event → Prop} (h : SinceRequeue i k es P)
    (hPQ : ∀ ys, P ys → Q (ys ++ [e])) : SinceRequeue i k (es ++ [e]) Q := by
  obtain ⟨xs,e',ys,rfl,he,hP⟩ := h
  exact ⟨xs,e',ys ++ [e],by simp,he,hPQ ys hP⟩

theorem FetchedByOther.snoc {i : ℕ} {k : ℤ} (h : FetchedByOther i k es) :
    FetchedByOther i k (es ++ [e]) := by
  obtain ⟨j,t,hj,hm⟩ := h
  exact ⟨j,t,hj,mem_snoc hm⟩

theorem HandleOk.keep {t' : Table JobQueueRow} {i : ℕ} {h : Handle}
    (ok : HandleOk s.db.jobQueue es i h) (hk : h.job.id < s.db.jobQueue.nextId)
    (hi : i < s.handles.length)
    (hm : MarkStep s h.job.id e (mark s.db.jobQueue h.job.id) (mark t' h.job.id)) :
    HandleOk t' (es ++ [e]) i h where
  fetched := ok.fetched.imp fun _ => mem_snoc
  removed hr := mem_snoc (ok.removed hr)
  requeued hr := by
    refine (ok.requeued hr).snoc fun ys hys => ?_
    rcases hys with hy | ⟨j,hj⟩ | hy
    · cases hm with
      | same h => exact .inl (h.trans hy)
      | inserted hn => omega
      | fetched he =>
        exact .inr (.inr ⟨s.handles.length,s.now,by omega,by rw [he]; simp⟩)
      | removed j he => exact .inr (.inl ⟨j,by rw [he]; simp⟩)
      | requeued j _ h => exact .inl (by rw [h,hy]; rfl)
    · exact .inr (.inl ⟨j,mem_snoc hj⟩)
    · exact .inr (.inr hy.snoc)
  disposed := ok.disposed
  gone hg := by
    cases hm with
    | same h => exact (ok.gone (h ▸ hg)).imp fun _ => mem_snoc
    | inserted hn => omega
    | fetched _ h => simp [h] at hg
    | removed j he => exact ⟨j,by rw [he]; simp⟩
    | requeued _ _ h =>
      rw [h,Option.map_eq_none_iff] at hg
      exact (ok.gone hg).imp fun _ => mem_snoc

theorem HandleOk.of_requeued {t' : Table JobQueueRow} {i : ℕ} {h h' : Handle}
    {m : Option (Option ℤ)} (ok : HandleOk t' (es ++ [e]) i h) (he : e.RequeuedBy i h.job.id)
    (hj : h'.job = h.job) (hr : h'.removedFromQueue = h.removedFromQueue)
    (hq : h'.requeued = true) (hm : mark t' h.job.id = m.map fun _ => none) :
    HandleOk t' (es ++ [e]) i h' where
  fetched := hj ▸ ok.fetched
  removed hf := hj ▸ ok.removed (hr ▸ hf)
  requeued _ := by
    rw [hj]
    refine ⟨es,e,[],rfl,he,?_⟩
    cases m with
    | none => exact .inr (.inl (ok.gone hm))
    | some f => exact .inl hm
  disposed _ := .inr hq
  gone := hj ▸ ok.gone

theorem accounted_step (hA : Accounted s es) (hc : a.isCleanup = false)
    (he : QueueEffect T s a s' e) : Accounted s' (es ++ [e]) where
  known := handlesKnown_step hA.known he
  marks k f hk := by
    have hm := mark_step he hc k
    rw [hk] at hm
    cases hm with
    | same h => exact (hA.marks k f h.symm).imp fun _ => mem_snoc
    | inserted _ h => simp at h
    | fetched he h =>
      simp only [Option.some.injEq] at h
      exact ⟨s.handles.length,by rw [he,h]; simp⟩
    | removed _ _ h => simp at h
    | requeued _ _ h => cases hm' : mark s.db.jobQueue k <;> simp [hm'] at h
  removals i k hr := by
    rcases List.mem_append.mp hr with hr | hr
    · exact (hA.removals i k hr).imp fun _ => mem_snoc
    · rw [List.mem_singleton] at hr
      subst hr
      cases he with
      | idle _ _ _ hab => exact absurd trivial hab
      | removed hi => exact (hA.handles _ _ hi).fetched.imp fun _ => mem_snoc
      | requeued _ _ _ _ _ he => rcases he with ⟨he,-⟩ | ⟨he,-⟩ <;> cases he
  handles i h' hi' := by
    have hkeep : ∀ h, s.handles[i]? = some h → HandleOk s'.db.jobQueue (es ++ [e]) i h :=
      fun h hi => (hA.handles i h hi).keep (hA.known _ (mem_handleRows hi))
        (List.getElem?_eq_some_iff.mp hi).1 (mark_step he hc _)
    cases handle_step he hi' with
    | same hi => exact hkeep h' hi
    | built _ hev hm hr hq hd =>
      exact ⟨⟨s.now,by rw [hev]; simp⟩,by simp [hr],by simp [hq],by simp [hd],by simp [hm]⟩
    | removed hi hev hh =>
      subst hh
      have ok := hkeep _ hi
      exact ⟨ok.fetched,fun _ => by rw [hev]; simp,ok.requeued,fun _ => .inl rfl,ok.gone⟩
    | requeued hi hev hj hr hq hm => exact (hkeep _ hi).of_requeued hev hj hr hq hm
    | @disposed h hi hd hh =>
      subst hh
      have ok := hkeep h hi
      refine ⟨ok.fetched,ok.removed,ok.requeued,fun _ => ?_,ok.gone⟩
      cases hdis : h.disposed with
      | true => exact ok.disposed hdis
      | false => simpa [Handle.disposeRequeues,hdis,or_iff_not_imp_left] using hd

theorem disposed_handle (he : QueueEffect T s a s' e) {i : ℕ} {k : ℤ} {b : Bool}
    (hd : e = .disposed i k b) :
    ∃ h, s'.handles[i]? = some h ∧ h.job.id = k ∧ h.disposed = true := by
  subst hd
  cases he with
  | idle _ _ _ hab => exact absurd trivial hab
  | @requeued _ h h' _ _ hi _ _ hh he =>
    rcases he with ⟨he,-⟩ | ⟨he,rfl,-⟩
    · cases he
    · cases he
      obtain ⟨hlt,-⟩ := List.getElem?_eq_some_iff.mp hi
      exact ⟨{ h with requeued := true, disposed := true },
        by rw [hh,List.getElem?_set_self hlt],rfl,rfl⟩
  | @disposed _ h hi _ _ _ hh =>
    obtain ⟨hlt,-⟩ := List.getElem?_eq_some_iff.mp hi
    exact ⟨{ h with disposed := true },by rw [hh,List.getElem?_set_self hlt],rfl,rfl⟩

theorem exists_eligible {t : Table JobQueueRow} {k c : ℤ} (h : mark t k = some none) :
    ∃ r ∈ t.rows, r.id = k ∧ eligible c r = true := by
  obtain ⟨r,hr,hf⟩ := Option.map_eq_some_iff.mp h
  exact ⟨r,Table.mem_of_byId hr,Table.id_of_byId hr,by simp [eligible,hf]⟩

end Accounting

def Unfetched (s : StorageState) : Prop :=
  s.handles = [] ∧ ∀ r ∈ s.db.jobQueue.rows, r.fetchedAt = none

/-- What a run owes to every queued job: a row goes only by a removal through a handle
built for it, a row that no fetch marked within `window` is visible, and so is the row
of a handle that was disposed of and never removed it, unless `excused`. -/
structure NoJobLost (ser : SerializationHelper) (T window : ℤ)
    (excused : ℕ → ℤ → List Event → Prop) (s : StorageState) (as : List Action) : Prop where
  disappears : ∀ pre mid post, as = pre ++ (mid ++ post) → ∀ k,
    mark (exec (step ser T) s pre).db.jobQueue k ≠ none →
    mark (exec (step ser T) s (pre ++ mid)).db.jobQueue k = none →
    ∃ i, .removed i k ∈ trace (step ser T) (exec (step ser T) s pre) mid ∧
      ∃ t, .fetched i k t ∈ trace (step ser T) s (pre ++ mid)
  visible : ∀ pre post, as = pre ++ post → ∀ r ∈ (exec (step ser T) s pre).db.jobQueue.rows,
    eligible (cutoffAt T (exec (step ser T) s pre).now) r = true ∨
      ∃ i t, .fetched i r.id t ∈ trace (step ser T) s pre ∧
        (exec (step ser T) s pre).now - t ≤ window
  recovered : ∀ pre a post, as = pre ++ a::post → ∀ i k b,
    (step ser T (exec (step ser T) s pre) a).2 = .disposed i k b →
    .removed i k ∉ trace (step ser T) s pre →
    (∃ r ∈ (exec (step ser T) s (pre ++ [a])).db.jobQueue.rows, r.id = k ∧
      eligible (cutoffAt T (exec (step ser T) s (pre ++ [a])).now) r = true) ∨
    excused i k (trace (step ser T) s (pre ++ [a]))

/-- `InvisibilityTimeout` to the nearest millisecond. -/
def roundedTimeout (T : ℤ) : ℤ :=
  -(DateTime.roundToMilliseconds (-T) * DateTime.ticksPerMillisecond)

/-- Another handle removed the row at some time, or fetched it after the requeue. -/
def Excused (i : ℕ) (k : ℤ) (es : List Event) : Prop :=
  RemovedByOther i k es ∨ SinceRequeue i k es (FetchedByOther i k)

/-- Another handle removed or fetched the row after the requeue. -/
def ExcusedSinceRequeue (i : ℕ) (k : ℤ) (es : List Event) : Prop :=
  SinceRequeue i k es fun ys => RemovedByOther i k ys ∨ FetchedByOther i k ys

section Runs

variable {ser : SerializationHelper} {T : ℤ} {s : StorageState} {as : List Action}

theorem accounted_run (hs : Unfetched s) (hc : ∀ a ∈ as, a.isCleanup = false) :
    Accounted (exec (step ser T) s as) (trace (step ser T) s as) := by
  have h₀ : Accounted s [] := by
    refine ⟨by simp [HandlesKnown,handleRows,hs.1],by simp [hs.1],fun k f hk => ?_,by simp⟩
    obtain ⟨r,hr,hf⟩ := Option.map_eq_some_iff.mp hk
    simp [hs.2 r (Table.mem_of_byId hr)] at hf
  exact exec_trace_invariant (C := fun _ a => a.isCleanup = false)
    (fun s a es hA ha => accounted_step hA ha (step_queueEffect ser a))
    (along_of_forall fun a ha _ => hc a ha) h₀

theorem mark_run {k : ℤ} (hk : mark s.db.jobQueue k ≠ none) (hc : ∀ a ∈ as, a.isCleanup = false) :
    mark (exec (step ser T) s as).db.jobQueue k ≠ none ∨
      ∃ i, .removed i k ∈ trace (step ser T) s as := by
  have h₀ : mark s.db.jobQueue k ≠ none ∨ ∃ i, Event.removed i k ∈ [] := .inl hk
  refine exec_trace_invariant (C := fun _ a => a.isCleanup = false)
    (I := fun (s : StorageState) es => mark s.db.jobQueue k ≠ none ∨ ∃ i, Event.removed i k ∈ es)
    ?_ (along_of_forall fun a ha _ => hc a ha) h₀
  intro s a es hI ha
  have hstep := mark_step (s := s) (T := T) (step_queueEffect ser a) ha k
  rcases hI with hm | ⟨i,hi⟩
  · cases hstep with
    | same h => exact .inl (by rwa [h])
    | inserted _ h | fetched _ h => exact .inl (by simp [h])
    | removed i he => exact .inr ⟨i,by simp [he]⟩
    | requeued _ _ h => exact .inl (by simpa [h] using hm)
  · exact .inr ⟨i,mem_snoc hi⟩

theorem no_job_lost (hs : Unfetched s) (hc : ∀ a ∈ as, a.isCleanup = false) :
    NoJobLost ser T (roundedTimeout T) Excused s as where
  disappears pre mid post has k hpre hmid := by
    subst has
    have hA : Accounted (exec (step ser T) s (pre ++ mid)) (trace (step ser T) s (pre ++ mid)) :=
      accounted_run hs fun a ha => hc a (by simp only [List.mem_append] at ha ⊢; tauto)
    rw [exec_append] at hmid
    rcases mark_run hpre (fun a (ha : a ∈ mid) => hc a (by simp [ha])) with hm | ⟨i,hi⟩
    · exact absurd hmid hm
    · exact ⟨i,hi,hA.removals i k (by rw [trace_append]; exact List.mem_append_right _ hi)⟩
  visible pre post has r hr := by
    subst has
    have hA : Accounted (exec (step ser T) s pre) (trace (step ser T) s pre) :=
      accounted_run hs fun a ha => hc a (by simp [ha])
    cases hf : r.fetchedAt with
    | none => exact .inl (by simp [eligible,hf])
    | some f =>
      obtain ⟨i,hi⟩ := hA.marks r.id f (by
        rw [mark,show Table.byId r.id _ = some r from Table.byId_of_mem hr,Option.map_some,hf])
      by_cases hel : f < cutoffAt T (exec (step ser T) s pre).now
      · exact .inl (by simp [eligible,hf,expiredBefore,hel])
      · refine .inr ⟨i,f,hi,?_⟩
        simp only [cutoffAt] at hel
        simp only [roundedTimeout]
        omega
  recovered pre a post has i k b he hrm := by
    subst has
    have hA : Accounted (exec (step ser T) s (pre ++ [a])) (trace (step ser T) s (pre ++ [a])) :=
      accounted_run hs fun a ha =>
        hc a (by simp only [List.mem_append,List.mem_singleton] at ha; simp; tauto)
    obtain ⟨h,hi,rfl,hd⟩ := disposed_handle (step_queueEffect ser a) he
    have htr : trace (step ser T) s (pre ++ [a]) =
        trace (step ser T) s pre ++ [.disposed i h.job.id b] := by
      rw [trace_append,trace_cons,trace_nil,he]
    have hst : exec (step ser T) s (pre ++ [a]) = (step ser T (exec (step ser T) s pre) a).1 := by
      rw [exec_append,exec_cons,exec_nil]
    have hown : .removed i h.job.id ∉ trace (step ser T) s (pre ++ [a]) := by simp [htr,hrm]
    have ok := hA.handles i h (hst ▸ hi)
    rcases ok.disposed hd with hr | hr
    · exact absurd (ok.removed hr) hown
    · obtain ⟨xs,e,ys,hes,hreq,hrow | ⟨j,hj⟩ | hf⟩ := ok.requeued hr
      · exact .inl (exists_eligible hrow)
      · exact .inr (.inl ⟨j,fun hij => hown (hij ▸ hj),hj⟩)
      · exact .inr (.inr ⟨xs,e,ys,hes,hreq,hf⟩)

/-- Crash, lapse, take-over and a late dispose on one row. -/
theorem no_job_lost_late_dispose :
    NoJobLost Json.helper 100000 (roundedTimeout 100000) Excused (initial 1000000) (oneJobQueued ++
      [dequeueDefault,.advance 100001,dequeueDefault,.crash 1,.removeFromQueue 0 true,
        .dispose 0 false,dequeueDefault]) :=
  no_job_lost ⟨rfl,by decide⟩ (by decide)

/-- The window of handle 0 lapses and handle 1 removes the row. -/
def removedMeanwhile : List Action :=
  oneJobQueued ++ [dequeueDefault,.advance 100001,dequeueDefault,.removeFromQueue 1 false]

/-- A timeout of 0.6 ms hides a row for longer than that, and a handle whose row another
one has removed cannot make it visible again. -/
theorem no_job_lost_too_strict :
    (¬ NoJobLost Json.helper 6000 6000 Excused (initial 1000000)
      (oneJobQueued ++ [dequeueDefault,.advance 8000])) ∧
    ¬ NoJobLost Json.helper 100000 (roundedTimeout 100000) ExcusedSinceRequeue (initial 1000000)
      (removedMeanwhile ++ [.dispose 0 false]) := by
  constructor
  · intro h
    have hrows : ⟨1,some 1,"default",some 1000000,some "token"⟩ ∈
        (exec (step Json.helper 6000) (initial 1000000)
          (oneJobQueued ++ [dequeueDefault,.advance 8000])).db.jobQueue.rows := by decide
    have hnow : (exec (step Json.helper 6000) (initial 1000000)
        (oneJobQueued ++ [dequeueDefault,.advance 8000])).now = 1008000 := by decide
    have htr : trace (step Json.helper 6000) (initial 1000000)
        (oneJobQueued ++ [dequeueDefault,.advance 8000]) =
        [.created 1,.committed [(0,.addToQueue "default" "1")],.fetched 0 1 1000000,
          .advanced 1008000] := by decide
    rcases h.visible _ [] (List.append_nil _).symm _ hrows with hel | ⟨i,t,ht,hle⟩
    · rw [hnow] at hel
      exact absurd hel (by decide)
    · rw [htr] at ht
      simp at ht
      omega
  · intro h
    have hrows : (exec (step Json.helper 100000) (initial 1000000) (removedMeanwhile ++
        [.dispose 0 false])).db.jobQueue.rows = [] := by decide
    have htr : trace (step Json.helper 100000) (initial 1000000) (removedMeanwhile ++
        [.dispose 0 false]) = [.created 1,.committed [(0,.addToQueue "default" "1")],
          .fetched 0 1 1000000,.advanced 1100001,.fetched 1 1 1100001,.removed 1 1] ++
        [.disposed 0 1 true] := by decide
    rcases h.recovered removedMeanwhile _ [] rfl 0 1 true (by decide) (by decide) with
      ⟨r,hr,-⟩ | ⟨xs,e,ys,hes,he,hys⟩
    · simp [hrows] at hr
    · rw [htr] at hes
      rcases List.eq_nil_or_concat ys with rfl | ⟨ys,y,rfl⟩
      · simp [RemovedByOther,FetchedByOther] at hys
      · have hinit := List.append_inj_left' (hes.trans (by simp) : _ = (xs ++ e::ys) ++ [y]) rfl
        have hmem : e ∈ xs ++ e::ys := by simp
        rw [← hinit] at hmem
        rcases he with rfl | rfl <;> simp at hmem

end Runs

end StorageSystem
end HangfireStorage
