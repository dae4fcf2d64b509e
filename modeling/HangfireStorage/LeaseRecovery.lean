import HangfireStorage.LockDecisions
import HangfireStorage.QueueProgress
import HangfireStorage.ServerClocks

/-!
# What vanished holders leave behind

A worker that crashes keeps its row hidden, and a lock object that is never released its resource,
no longer than the lease and twice the error of the clocks. Then whoever asks is served.
-/

namespace HangfireStorage

namespace StorageSystem

open JobQueue Lifespan

def fetchStart (k : ℤ) : Event → Option ℤ
  | .fetched _ row now => if row = k then some now else none
  | _ => none

def SparesFetch (k _ : ℤ) : Event → Prop
  | .requeued _ row => row ≠ k
  | .disposed _ row again => ¬ (row = k ∧ again = true)
  | _ => True

instance (k t : ℤ) (e : Event) : Decidable (SparesFetch k t e) := by
  unfold SparesFetch
  split <;> infer_instance

/-- The last fetch of the row, if nothing has requeued the row since. -/
def lastFetch (k : ℤ) (es : List Event) : Option ℤ := current (fetchStart k) keepLease (SparesFetch k) es

structure ShowsFetches (s : StorageState) (es : List Event) : Prop where
  rows : ∀ r ∈ s.db.jobQueue.rows, r.fetchedAt = lastFetch r.id es
  fresh : ∀ k, s.db.jobQueue.nextId ≤ k → lastFetch k es = none

section Fetches

variable {T k t : ℤ} {s s' : StorageState} {a : Action} {e : Event} {es : List Event}

theorem fetchStart_eq_some (h : fetchStart k e = some t) : ∃ i, e = .fetched i k t := by
  cases e with
  | fetched i row now =>
    simp only [fetchStart,Option.ite_none_right_eq_some,Option.some.injEq] at h
    exact ⟨i,by rw [h.1,h.2]⟩
  | _ => cases h

theorem leaseStart_eq_some {r : String} (h : leaseStart r e = some t) :
    ∃ i timeout now, e = .acquired i r timeout now ∧ now+timeout = t := by
  cases e with
  | acquired i resource timeout now =>
    simp only [leaseStart,Option.ite_none_right_eq_some,Option.some.injEq] at h
    exact ⟨i,timeout,now,by rw [h.1],h.2⟩
  | _ => cases h

theorem lastFetch_eq_some : lastFetch k es = some t ↔
    ∃ before e after, es = before ++ e::after ∧ fetchStart k e = some t ∧
      ∀ e' ∈ after, fetchStart k e' = none ∧ SparesFetch k t e' := current_constant fun _ _ => rfl

theorem lastFetch_keep (hs : fetchStart k e = none) (hk : ∀ t, SparesFetch k t e) :
    lastFetch k (es ++ [e]) = lastFetch k es := current_keep (fun _ _ => rfl) hs hk

theorem lastFetch_fetched (i : ℕ) (row now : ℤ) :
    lastFetch k (es ++ [.fetched i row now]) = if k = row then some now else lastFetch k es := by
  split_ifs with hk
  · exact current_start (by simp [fetchStart,hk])
  · exact lastFetch_keep (by simp [fetchStart,Ne.symm hk]) fun _ => trivial

theorem lastFetch_requeued {i : ℕ} {row : ℤ} (he : e = .requeued i row ∨ e = .disposed i row true) :
    lastFetch k (es ++ [e]) = if k = row then none else lastFetch k es := by
  have hs : fetchStart k e = none := by obtain rfl | rfl := he <;> rfl
  split_ifs with hk
  · exact current_end hs fun t => by obtain rfl | rfl := he <;> simp [SparesFetch,hk]
  · exact lastFetch_keep hs fun t => by obtain rfl | rfl := he <;> simp [SparesFetch,Ne.symm hk]

theorem Grown.mem {t t' : Table JobQueueRow} (h : Grown t t') {r : JobQueueRow} (hr : r ∈ t'.rows) :
    r ∈ t.rows ∨ t.nextId ≤ r.id ∧ r.fetchedAt = none := by
  induction h with
  | refl => exact .inl hr
  | insert job queue hg ih =>
    obtain hr | hr := List.mem_append.mp hr
    · exact ih hr
    · rw [List.mem_singleton.mp hr]
      exact .inr ⟨hg.nextId_le,rfl⟩

theorem ShowsFetches.keep (h : ShowsFetches s es) (hr : ∀ r ∈ s'.db.jobQueue.rows, r ∈ s.db.jobQueue.rows)
    (hn : s.db.jobQueue.nextId ≤ s'.db.jobQueue.nextId)
    (he : ∀ k, fetchStart k e = none ∧ ∀ t, SparesFetch k t e) : ShowsFetches s' (es ++ [e]) where
  rows r hmem := by rw [lastFetch_keep (he _).1 (he _).2,h.rows r (hr r hmem)]
  fresh k hk := by rw [lastFetch_keep (he k).1 (he k).2,h.fresh k (hn.trans hk)]

theorem showsFetches_step (h : ShowsFetches s es) (he : QueueEffect T s a s' e) :
    ShowsFetches s' (es ++ [e]) := by
  cases he with
  | idle hq _ _ hab =>
    refine h.keep (fun r hr => hq ▸ hr) (congrArg Table.nextId hq).ge fun k => ?_
    cases e <;> first | exact ⟨rfl,fun _ => trivial⟩ | exact absurd trivial hab
  | advanced hq => exact h.keep (fun r hr => hq ▸ hr) (congrArg Table.nextId hq).ge fun _ => ⟨rfl,fun _ => trivial⟩
  | @grown cmds _ hg =>
    have hkeep (k : ℤ) : lastFetch k (es ++ [.committed cmds]) = lastFetch k es :=
      lastFetch_keep rfl fun _ => trivial
    constructor
    · intro r hr
      rw [hkeep]
      obtain hr | ⟨hid,hf⟩ := hg.mem hr
      · exact h.rows r hr
      · rw [hf,h.fresh _ hid]
    · intro k hk
      rw [hkeep]
      exact h.fresh k (hg.nextId_le.trans hk)
  | @fetched i j token hi _ hq =>
    constructor
    · intro r hr
      rw [hq] at hr
      obtain ⟨r₀,hr₀,rfl⟩ := List.mem_map.mp hr
      rw [lastFetch_fetched]
      split_ifs with hid hid' hid'
      · rfl
      · exact absurd rfl hid'
      · exact absurd hid' hid
      · exact h.rows r₀ hr₀
    · intro k hk
      rw [hq] at hk
      have hlt : i.id < s.db.jobQueue.nextId := s.db.jobQueue.fresh i hi
      rw [lastFetch_fetched,if_neg (hlt.trans_le hk).ne']
      exact h.fresh k hk
  | removed _ hq =>
    refine h.keep (fun r hr => ?_) (by rw [hq]; rfl) fun _ => ⟨rfl,fun _ => trivial⟩
    rw [hq] at hr
    exact List.mem_of_mem_filter hr
  | @requeued i w w' _ _ _ hq _ _ he =>
    have he' := he.imp And.left fun hd => hd.1
    constructor
    · intro r hr
      rw [hq] at hr
      obtain ⟨r₀,hr₀,rfl⟩ := List.mem_map.mp hr
      rw [lastFetch_requeued he']
      split_ifs with hid hid' hid'
      · rfl
      · exact absurd (of_decide_eq_true hid) hid'
      · exact absurd (decide_eq_true hid') hid
      · exact h.rows r₀ hr₀
    · intro k hk
      rw [hq] at hk
      rw [lastFetch_requeued he',h.fresh k hk,ite_self]
  | disposed _ _ hq =>
    exact h.keep (fun r hr => hq ▸ hr) (congrArg Table.nextId hq).ge fun _ => ⟨rfl,fun _ => by simp [SparesFetch]⟩
  | deleted _ _ hq =>
    refine h.keep (fun r hr => ?_) (by rw [hq]; rfl) fun _ => ⟨rfl,fun _ => trivial⟩
    rw [hq] at hr
    exact List.mem_of_mem_filter hr

end Fetches

def Event.deletesLocks : Event → Bool
  | .deleted k _ => k = .distributedLock
  | _ => false

end StorageSystem

namespace ServerClocks

open JobQueue Lifespan Machine StorageSystem

/-- Every fetch of the row has been undone by a requeue since or is longer ago. -/
def FetchesOver (length now : ℤ) (es : List Observed) (k : ℤ) : Prop :=
  ∀ pre x post i t, es = pre ++ x :: post → x.event = .fetched i k t →
    length < now - x.now ∨ ∃ y ∈ post, ∃ j, y.event.RequeuedBy j k

/-- Every grant of the lock has been ended by a release since or its lease is longer ago. -/
def GrantsOver (error now : ℤ) (es : List Observed) (r : String) : Prop :=
  ∀ pre x post i timeout t, es = pre ++ x :: post → x.event = .acquired i r timeout t →
    timeout + error < now - x.now ∨ ∃ y ∈ post, ∃ j, y.event = .released j r true

abbrev reached {ι : Type} [DecidableEq ι] (ser : SerializationHelper) (T : ℤ) (systemClock : ι → ℤ → ℤ)
    (now : ℤ) (as : List (ClockedAction ι)) : ClockedState ι :=
  exec (clockedStep ser T systemClock) (started ι (initial now)) as

abbrev observed {ι : Type} [DecidableEq ι] (ser : SerializationHelper) (T : ℤ) (systemClock : ι → ℤ → ℤ)
    (now : ℤ) (as : List (ClockedAction ι)) : List Observed :=
  trace (clockedStep ser T systemClock) (started ι (initial now)) as

section Recovery

variable {ι : Type} [DecidableEq ι] {ser : SerializationHelper} {T now : ℤ} {systemClock : ι → ℤ → ℤ}
  {S η ρ : ℕ} {as : List (ClockedAction ι)} {i : ι}

/-- A call at the end of a timely run reads a close clock. -/
theorem lastCall_close {a : Action} (hdrift : Drifts systemClock S ρ)
    (htime : Along (clockedStep ser T systemClock) (Timely systemClock S η) (started ι (initial now))
      (as ++ [.call i a])) :
    |utcNow systemClock (reached ser T systemClock now as) i -
      (reached ser T systemClock now as).storage.now| ≤ η+ρ := by
  obtain ⟨htime,⟨t,ht,hS⟩,-⟩ := (along_append as [.call i a]).mp htime
  have hm := exec_invariant (fun _ a h ha => measured_step h a ha) htime (measured_started (initial now))
  exact utcNow_close hdrift hm ht hS

theorem observed_close {a : Action} (hdrift : Drifts systemClock S ρ)
    (htime : Along (clockedStep ser T systemClock) (Timely systemClock S η) (started ι (initial now))
      (as ++ [.call i a])) :
    ∀ x ∈ observed ser T systemClock now as,
      |x.utcNow - x.now| ≤ η+ρ ∧ ∀ t ∈ timeKept x.event, t = x.utcNow := fun x hx =>
  ((observed_run hdrift (measured_started (initial now)) ((along_append _ _).mp htime).1).1 x hx).2

theorem observed_of_event {es : List Observed} {before after : List Event} {e : Event}
    (h : es.map Observed.event = before ++ e::after) :
    ∃ pre x post, es = pre ++ x :: post ∧ x.event = e ∧ post.map Observed.event = after := by
  obtain ⟨pre,rest,rfl,-,hrest⟩ := List.map_eq_append_iff.mp h
  obtain ⟨x,post,rfl,hx,hpost⟩ := List.map_eq_cons_iff.mp hrest
  exact ⟨pre,x,post,rfl,hx,hpost⟩

theorem showsFetches_clocked
    (hjobs : Along (clockedStep ser T systemClock) (OfCalls systemClock (CommitsNameJobs ser))
      (started ι (initial now)) as) :
    NoNullJob (reached ser T systemClock now as).storage.db.jobQueue ∧
      ShowsFetches (reached ser T systemClock now as).storage
        ((observed ser T systemClock now as).map Observed.event) := by
  refine clocked_invariant (I := fun s es => NoNullJob s.db.jobQueue ∧ ShowsFetches s es)
    (fun s es now h => ⟨h.1,h.2.rows,h.2.fresh⟩) (fun s es h => ⟨h.1,?_⟩) (fun s a es h hC => ⟨?_,?_⟩) hjobs ?_
  · exact h.2.keep (fun r hr => hr) le_rfl fun _ => ⟨rfl,fun _ => trivial⟩
  · exact noNullJob_step h.1 hC
  · exact showsFetches_step h.2 (step_queueEffect ser a)
  · exact ⟨nofun,nofun,fun _ _ => rfl⟩

/-- While there is a row that nobody has fetched within the timeout and twice the error, without its
being requeued since, every attempt on its queue fetches a row, whatever became of the workers. -/
theorem abandoned_row_is_fetched (hdrift : Drifts systemClock S ρ) {o : RowOrder JobQueueRow}
    {queues : List String} {token : String}
    (htime : Along (clockedStep ser T systemClock) (Timely systemClock S η) (started ι (initial now))
      (as ++ [.call i (.dequeue o queues token)]))
    (hjobs : Along (clockedStep ser T systemClock) (OfCalls systemClock (CommitsNameJobs ser))
      (started ι (initial now)) as)
    (hc : DateTime.InRange (cutoffAt T (utcNow systemClock (reached ser T systemClock now as) i)))
    {r : JobQueueRow} (hr : r ∈ (reached ser T systemClock now as).storage.db.jobQueue.rows)
    (hq : r.queue ∈ queues) (hover : FetchesOver (roundedTimeout T + 2*(η+ρ))
      (reached ser T systemClock now as).storage.now (observed ser T systemClock now as) r.id) :
    (clockedStep ser T systemClock (reached ser T systemClock now as)
      (.call i (.dequeue o queues token))).2.event.isFetch = true := by
  have hclose := lastCall_close hdrift htime
  have hobs := observed_close hdrift htime
  obtain ⟨hnull,hshows⟩ := showsFetches_clocked hjobs
  generalize reached ser T systemClock now as = s at *
  generalize observed ser T systemClock now as = es at *
  have hel : eligible (cutoffAt T (utcNow systemClock s i)) r = true := by
    rw [eligible,hshows.rows r hr]
    cases hlast : lastFetch r.id (es.map Observed.event) with
    | none => rfl
    | some u =>
      obtain ⟨before,e,after,hes,hstart,hafter⟩ := lastFetch_eq_some.mp hlast
      obtain ⟨pre,x,post,hsplit,rfl,hpost⟩ := observed_of_event hes
      obtain ⟨j,hx⟩ := fetchStart_eq_some hstart
      obtain ⟨hxclose,hkept⟩ := hobs x (by simp [hsplit])
      obtain rfl : u = x.utcNow := hkept u (by simp [hx,timeKept])
      obtain hlong | ⟨y,hy,j',hrequeued⟩ := hover pre x post j x.utcNow hsplit hx
      · have hlt : x.utcNow < cutoffAt T (utcNow systemClock s i) := by
          simp only [cutoffAt,roundedTimeout] at hlong ⊢
          linarith [le_abs_self (x.utcNow - x.now),neg_abs_le (utcNow systemClock s i - s.storage.now)]
        simp [expiredBefore,hlt]
      · have hspared := (hafter y.event (hpost ▸ List.mem_map_of_mem hy)).2
        obtain he | he := hrequeued <;> simp [he,SparesFetch] at hspared
  have hwaits : Waits T r.id r.queue (seenBy systemClock s i) := ⟨r,hr,rfl,rfl,hel⟩
  exact dequeue_fetches hwaits hnull hc (by simpa [Action.asks] using hq)

theorem showsLeases_clocked
    (hkept : Along (clockedStep ser T systemClock)
      (OfCalls systemClock fun s a => (step ser T s a).2.deletesLocks = false) (started ι (initial now)) as) :
    ShowsLeases (reached ser T systemClock now as).storage
      ((observed ser T systemClock now as).map Observed.event) := by
  refine clocked_invariant (I := ShowsLeases) (fun s es now h => ?_) (fun s es h => ?_)
    (fun s a es h hC => ?_) hkept ?_
  · exact ⟨⟨h.ok.unique,h.ok.owner,h.ok.known,h.ok.resource⟩,h.rows⟩
  · exact h.keep h.ok rfl fun _ => ⟨rfl,fun _ => trivial⟩
  · refine showsLeases_step h (lockEffect_of_step ser a fun rows he => ?_)
    rw [he] at hC
    cases hC
  · exact ⟨⟨List.Pairwise.nil,nofun,nofun,nofun⟩,fun _ => rfl⟩

/-- A lock whose leases are all released or over, by twice the error and the millisecond that is
rounded off, is granted to whoever asks, whatever became of the objects that held it. -/
theorem abandoned_lock_is_granted (hdrift : Drifts systemClock S ρ) {o : RowOrder DistributedLockRow}
    {r : String} {timeout : ℤ}
    (htime : Along (clockedStep ser T systemClock) (Timely systemClock S η) (started ι (initial now))
      (as ++ [.call i (.acquireLock o r timeout)]))
    (hkept : Along (clockedStep ser T systemClock)
      (OfCalls systemClock fun s a => (step ser T s a).2.deletesLocks = false) (started ι (initial now)) as)
    (hr : DateTime.InRange (utcNow systemClock (reached ser T systemClock now as) i + timeout))
    (hover : GrantsOver (2*(η+ρ) + DateTime.ticksPerMillisecond)
      (reached ser T systemClock now as).storage.now (observed ser T systemClock now as) r) :
    ∃ j t, (clockedStep ser T systemClock (reached ser T systemClock now as)
      (.call i (.acquireLock o r timeout))).2.event = .acquired j r timeout t := by
  have hclose := lastCall_close hdrift htime
  have hobs := observed_close hdrift htime
  have hshows := showsLeases_clocked hkept
  generalize reached ser T systemClock now as = s at *
  generalize observed ser T systemClock now as = es at *
  obtain ⟨-,hacquired⟩ | ⟨⟨m,hm,hle⟩,-⟩ :=
    @acquireLock_event ser T (seenBy systemClock s i) hshows.ok.unique o r timeout hr
  · exact ⟨_,_,hacquired⟩
  · -- A lease that still runs by the caller's clock has begun too late.
    have hrows : (lease r (es.map Observed.event)).map DateTime.toEpochDate = some m := by
      rw [← hshows.rows r]
      exact hm
    obtain ⟨u,hlease,rfl⟩ := Option.map_eq_some_iff.mp hrows
    obtain ⟨before,e,after,hes,hstart,hafter⟩ := lease_eq_some.mp hlease
    obtain ⟨pre,x,post,hsplit,rfl,hpost⟩ := observed_of_event hes
    obtain ⟨j,timeout',v,hx,rfl⟩ := leaseStart_eq_some hstart
    obtain ⟨hxclose,hkept⟩ := hobs x (by simp [hsplit])
    obtain rfl : v = x.utcNow := hkept v (by simp [hx,timeKept])
    obtain hlong | ⟨y,hy,j',hreleased⟩ := hover pre x post j timeout' x.utcNow hsplit hx
    · have hlt : x.utcNow + timeout' + DateTime.ticksPerMillisecond < utcNow systemClock s i := by
        linarith [le_abs_self (x.utcNow - x.now),neg_abs_le (utcNow systemClock s i - s.storage.now)]
      have hle' : DateTime.toEpochDate (utcNow systemClock s i) ≤ DateTime.toEpochDate (x.utcNow + timeout') :=
        hle
      simp only [DateTime.toEpochDate,DateTime.ticksPerMillisecond] at hlt hle'
      omega
    · have hspared := (hafter y.event (hpost ▸ List.mem_map_of_mem hy)).2
      simp [hreleased,SparesLease] at hspared

end Recovery

section Runs

/-- A fetch by the server that is ahead; its worker crashes. -/
def fetchedOnce (d : ℕ) : List (ClockedAction Bool) :=
  measuredBadly ++ oneJobQueued.map (.call false) ++
    [.call true dequeueDefault,.call true (.crash 0),.advance d]

theorem abandoned_row_is_fetched_crashed : (clockedStep Json.helper 100000 slowClock
    (reached Json.helper 100000 slowClock 1000000 (fetchedOnce 102001))
      (.call false dequeueDefault)).2.event.isFetch = true := by
  refine abandoned_row_is_fetched (S := 200000) (η := 1000) (ρ := 0) (slowClock_drifts _ _) (by decide)
    (by decide) (by decide) (r := ⟨1,some 1,"default",some 1001000,some "token"⟩) (by decide) (by decide) ?_
  intro pre x post j t hes hx
  have hall : ∀ y ∈ observed Json.helper 100000 slowClock 1000000 (fetchedOnce 102001),
      y.event.isFetch = true → y.now = 1000000 := by decide
  have hnow : x.now = 1000000 := hall x (by simp [hes]) (by rw [hx]; rfl)
  rw [hnow]
  exact .inl (by decide)

/-- The bound is sharp. -/
example : (clockedStep Json.helper 100000 slowClock
    (reached Json.helper 100000 slowClock 1000000 (fetchedOnce 102000))
      (.call false dequeueDefault)).2.event = .silent := by decide

def grantedOnce : List (ClockedAction Bool) := measuredBadly ++ [.call true acquireJobs,.advance 112001]

theorem abandoned_lock_is_granted_vanished : ∃ j t, (clockedStep Json.helper 0 slowClock
    (reached Json.helper 0 slowClock 1000000 grantedOnce)
      (.call false acquireJobs)).2.event = .acquired j "jobs" 100000 t := by
  refine abandoned_lock_is_granted (S := 200000) (η := 1000) (ρ := 0) (slowClock_drifts _ _) (by decide)
    (by decide) (by decide) ?_
  intro pre x post j timeout t hes hx
  have hall : ∀ y ∈ observed Json.helper 0 slowClock 1000000 grantedOnce,
      timeKept y.event ≠ none → y.now = 1000000 ∧ y.event = .acquired 0 "jobs" 100000 1001000 := by decide
  obtain ⟨hnow,hev⟩ := hall x (by simp [hes]) (by simp [hx,timeKept])
  obtain ⟨-,-,rfl,-⟩ := Event.acquired.inj (hx.symm.trans hev)
  rw [hnow]
  exact .inl (by decide)

end Runs

end ServerClocks
end HangfireStorage
