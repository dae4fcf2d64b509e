import HangfireStorage.LeaseClocks
import HangfireStorage.LockExclusion
import HangfireStorage.QueueExclusion

/-!
# Clocks of the servers

Every storage object adds the offset to the clock of the database, as it measured it last, to the
system clock of its server. Fetches and locks of different servers compare such readings.
-/

namespace HangfireStorage
namespace ServerClocks

open Machine StorageSystem

/-- The storage goes by the clock of the database. No code reads `refreshed`, the time at which a
server measured its offset. -/
structure ClockedState (ι : Type) where
  storage : StorageState
  utcOffset : ι → ℤ
  refreshed : ι → Option ℤ

/-- The initial offset is `TimeSpan.Zero`. -/
def started (ι : Type) (s : StorageState) : ClockedState ι := ⟨s,fun _ => 0,fun _ => none⟩

/-- `measured` is what `GetUtcOffset` returns to a server. -/
inductive ClockedAction (ι : Type)
  | advance (d : ℕ)
  | refreshUtcOffset (i : ι) (measured : ℤ)
  | call (i : ι) (a : Action)

structure Observed where
  now : ℤ
  utcNow : ℤ
  event : Event
  deriving DecidableEq

section Steps

variable {ι : Type} [DecidableEq ι] (ser : SerializationHelper) (T : ℤ) (systemClock : ι → ℤ → ℤ)

def utcNow (s : ClockedState ι) (i : ι) : ℤ := systemClock i s.storage.now + s.utcOffset i

def seenBy (s : ClockedState ι) (i : ι) : StorageState :=
  { s.storage with now := utcNow systemClock s i }

def refreshUtcOffset (i : ι) (measured : ℤ) (s : ClockedState ι) : ClockedState ι :=
  { s with
    utcOffset := Function.update s.utcOffset i measured
    refreshed := Function.update s.refreshed i (some s.storage.now) }

def clockedStep (s : ClockedState ι) : ClockedAction ι → ClockedState ι × Observed
  | .advance d => ({ s with storage := { s.storage with now := s.storage.now+d } },
      ⟨s.storage.now+d,s.storage.now+d,.silent⟩)
  | .refreshUtcOffset i measured =>
    (refreshUtcOffset i measured s,⟨s.storage.now,s.storage.now,.silent⟩)
  | .call i a =>
    let r := step ser T (seenBy systemClock s i) a
    ({ s with storage := { r.1 with now := s.storage.now } },
      ⟨s.storage.now,utcNow systemClock s i,r.2⟩)

/-- A system clock moves by at most `ρ` against the clock of the database within `S`. -/
def Drifts (S ρ : ℕ) : Prop := ∀ i (t t' : ℤ), t ≤ t' → t' ≤ t+S →
  |(systemClock i t'-t') - (systemClock i t-t)| ≤ ρ

/-- Offsets are measured up to `η`, and no call comes later than `S` after the last measurement. -/
def Timely (S η : ℕ) (s : ClockedState ι) : ClockedAction ι → Prop
  | .advance _ => True
  | .refreshUtcOffset i measured => |measured - (s.storage.now - systemClock i s.storage.now)| ≤ η
  | .call i _ => ∃ t ∈ s.refreshed i, s.storage.now ≤ t+S

def OfCalls (P : StorageState → Action → Prop) (s : ClockedState ι) : ClockedAction ι → Prop
  | .call i a => P (seenBy systemClock s i) a
  | _ => True

instance (S η : ℕ) (s : ClockedState ι) (a : ClockedAction ι) :
    Decidable (Timely systemClock S η s a) := by
  unfold Timely
  split <;> infer_instance

instance (P : StorageState → Action → Prop) [∀ s a, Decidable (P s a)] (s : ClockedState ι)
    (a : ClockedAction ι) : Decidable (OfCalls systemClock P s a) := by
  unfold OfCalls
  split <;> infer_instance

def timeKept : Event → Option ℤ
  | .fetched _ _ t | .acquired _ _ _ t => some t
  | _ => none

end Steps

section Synchronisation

variable {ι : Type} [DecidableEq ι] {ser : SerializationHelper} {T : ℤ} {systemClock : ι → ℤ → ℤ}
  {s : ClockedState ι} {S η ρ : ℕ}

def Measured (systemClock : ι → ℤ → ℤ) (η : ℕ) (s : ClockedState ι) : Prop :=
  ∀ i, ∀ t ∈ s.refreshed i, t ≤ s.storage.now ∧ |s.utcOffset i - (t - systemClock i t)| ≤ η

omit [DecidableEq ι] in
theorem measured_started (st : StorageState) : Measured systemClock η (started ι st) := by
  intro i t ht
  simp [started] at ht

theorem measured_step (h : Measured systemClock η s) (a : ClockedAction ι)
    (ha : Timely systemClock S η s a) : Measured systemClock η (clockedStep ser T systemClock s a).1 := by
  intro i t ht
  cases a with
  | advance d =>
    obtain ⟨hle,hoff⟩ := h i t ht
    refine ⟨?_,hoff⟩
    show t ≤ s.storage.now + d
    omega
  | refreshUtcOffset j m =>
    by_cases hi : i = j
    · subst hi
      have hm : |m - (s.storage.now - systemClock i s.storage.now)| ≤ η := ha
      have hnow : s.storage.now = t := by simpa [clockedStep,refreshUtcOffset] using ht
      subst hnow
      simpa [clockedStep,refreshUtcOffset] using hm
    · simp only [clockedStep,refreshUtcOffset,Function.update_of_ne hi] at ht ⊢
      exact h i t ht
  | call j a => exact h i t ht

omit [DecidableEq ι] in
/-- A server that has measured its offset in time knows the time of the database up to the error
of the measurement and the drift since. -/
theorem utcNow_close (hdrift : Drifts systemClock S ρ) (h : Measured systemClock η s) {i : ι} {t : ℤ}
    (ht : t ∈ s.refreshed i) (hS : s.storage.now ≤ t+S) :
    |utcNow systemClock s i - s.storage.now| ≤ η+ρ := by
  obtain ⟨hle,hoff⟩ := h i t ht
  have hd := hdrift i t s.storage.now hle hS
  have hsplit : utcNow systemClock s i - s.storage.now = (s.utcOffset i - (t - systemClock i t)) +
      ((systemClock i s.storage.now - s.storage.now) - (systemClock i t - t)) := by
    rw [utcNow]
    ring
  rw [hsplit]
  exact (abs_add_le _ _).trans (add_le_add hoff hd)

omit [DecidableEq ι] in
theorem timeKept_step (s : StorageState) (a : Action) :
    ∀ t ∈ timeKept (step ser T s a).2, t = s.now := by
  have he : StepEffect ser T s a _ _ := step_effect a
  generalize (step ser T s a).1 = s', (step ser T s a).2 = e at he
  intro t ht
  cases he <;> simp_all [timeKept]

theorem observed_run (hdrift : Drifts systemClock S ρ) (h : Measured systemClock η s)
    {as : List (ClockedAction ι)}
    (hC : Along (clockedStep ser T systemClock) (Timely systemClock S η) s as) :
    (∀ x ∈ trace (clockedStep ser T systemClock) s as,
      s.storage.now ≤ x.now ∧ |x.utcNow - x.now| ≤ η+ρ ∧ ∀ t ∈ timeKept x.event, t = x.utcNow) ∧
    (trace (clockedStep ser T systemClock) s as).Pairwise fun x y => x.now ≤ y.now := by
  induction as generalizing s with
  | nil => simp
  | cons a as ih =>
    obtain ⟨hrest,hpair⟩ := ih (measured_step h a hC.1) hC.2
    let s' := (clockedStep ser T systemClock s a).1
    let x := (clockedStep ser T systemClock s a).2
    have hnow : s.storage.now ≤ x.now ∧ x.now = s'.storage.now := by
      cases a <;> simp [s',x,clockedStep,refreshUtcOffset]
    have hclose : |x.utcNow - x.now| ≤ η+ρ := by
      cases a with
      | advance d | refreshUtcOffset i m =>
        simp only [x,clockedStep,sub_self,abs_zero]
        omega
      | call i a =>
        obtain ⟨t,ht,hS⟩ := hC.1
        exact utcNow_close hdrift h ht hS
    have hkept : ∀ t ∈ timeKept x.event, t = x.utcNow := by
      cases a with
      | advance d | refreshUtcOffset i m => simp [x,clockedStep,timeKept]
      | call i a => exact timeKept_step _ a
    rw [trace_cons,List.forall_mem_cons,List.pairwise_cons]
    refine ⟨⟨⟨hnow.1,hclose,hkept⟩,fun y hy => ⟨?_,(hrest y hy).2⟩⟩,fun y hy => ?_,hpair⟩
    · exact hnow.1.trans (hnow.2 ▸ (hrest y hy).1)
    · exact hnow.2 ▸ (hrest y hy).1

/-- The invariant rule for what holds whatever the clock shows. -/
theorem clocked_invariant {I : StorageState → List Event → Prop} {C : StorageState → Action → Prop}
    (hnow : ∀ s es now, I s es → I { s with now := now } es)
    (hsilent : ∀ s es, I s es → I s (es ++ [.silent]))
    (hstep : ∀ s a es, I s es → C s a → I (step ser T s a).1 (es ++ [(step ser T s a).2]))
    {as : List (ClockedAction ι)}
    (hC : Along (clockedStep ser T systemClock) (OfCalls systemClock C) s as) (h₀ : I s.storage []) :
    I (exec (clockedStep ser T systemClock) s as).storage
      ((trace (clockedStep ser T systemClock) s as).map Observed.event) := by
  have hclocked (s : ClockedState ι) (a : ClockedAction ι) (xs : List Observed)
      (hI : I s.storage (xs.map Observed.event)) (hC : OfCalls systemClock C s a) :
      I (clockedStep ser T systemClock s a).1.storage
        ((xs ++ [(clockedStep ser T systemClock s a).2]).map Observed.event) := by
    rw [List.map_append]
    cases a with
    | advance d => exact hnow _ _ _ (hsilent _ _ hI)
    | refreshUtcOffset i m => exact hsilent _ _ hI
    | call i a => exact hnow _ _ _ (hstep _ a _ (hnow _ _ _ hI) hC)
  have hstart : I s.storage (([] : List Observed).map Observed.event) := h₀
  exact exec_trace_invariant (I := fun s xs => I s.storage (xs.map Observed.event)) hclocked hC hstart

end Synchronisation

section Calls

variable {ι κ θ : Type} [DecidableEq ι] [DecidableEq κ] {ser : SerializationHelper} {T : ℤ}
  {systemClock : ι → ℤ → ℤ} {s : ClockedState ι} {g : StorageState → κ → Lease.Slot θ ℤ}
  {f : ℤ → ℤ} {w : Event → Option (Lease.Event κ θ ℤ)} {I : StorageState → Prop}
  {C : StorageState → Action → Prop}

def leaseCall (f : ℤ → ℤ) (w : Event → Option (Lease.Event κ θ ℤ)) (x : Observed) :
    Option (ℤ × Lease.Event κ θ ℤ) :=
  (w x.event).map fun e => (f x.utcNow,e)

omit [DecidableEq κ] in
theorem leaseCall_eq_some {f : ℤ → ℤ} {x : Observed} {c : ℤ × Lease.Event κ θ ℤ} :
    leaseCall f w x = some c ↔ w x.event = some c.2 ∧ f x.utcNow = c.1 := by
  rw [leaseCall,Option.map_eq_some_iff]
  constructor
  · rintro ⟨e,he,rfl⟩
    exact ⟨he,rfl⟩
  · rintro ⟨he,hu⟩
    exact ⟨c.2,he,by rw [hu]⟩

/-- Servers with clocks of their own make the calls of a ledger with several clocks, if each
makes the steps of a ledger on its own clock. -/
theorem calls_path (hsilent : w .silent = none)
    (hslots : ∀ s now, g { s with now := now } = g s)
    (hnow : ∀ s now, I s → I { s with now := now })
    (hinv : ∀ s a, I s → C s a → I (step ser T s a).1)
    (hsim : ∀ s a, I s → C s a → Stutter Lease.Step ⟨f s.now,g s⟩ (w (step ser T s a).2)
      ⟨f (step ser T s a).1.now,g (step ser T s a).1⟩)
    {as : List (ClockedAction ι)}
    (hC : Along (clockedStep ser T systemClock) (OfCalls systemClock C) s as) (h₀ : I s.storage) :
    Path Lease.Call (g s.storage)
      ((trace (clockedStep ser T systemClock) s as).filterMap (leaseCall f w))
      (g (exec (clockedStep ser T systemClock) s as).storage) := by
  refine simulate (I := fun s => I s.storage) (fun s => g s.storage) (leaseCall f w)
    (fun s a hI hC => ?_) (fun s a hI hC => ?_) hC h₀
  · cases a with
    | advance d => exact hnow _ _ hI
    | refreshUtcOffset i m => exact hI
    | call i a => exact hnow _ _ (hinv _ _ (hnow _ _ hI) hC)
  · cases a with
    | advance d =>
      simp only [clockedStep,leaseCall,hsilent,Option.map_none,stutter_none]
      exact hslots _ _
    | refreshUtcOffset i m =>
      simp only [clockedStep,leaseCall,hsilent,Option.map_none,stutter_none]
      rfl
    | call i a =>
      have hstep := hsim (seenBy systemClock s i) a (hnow _ _ hI) hC
      simp only [clockedStep,leaseCall,hslots]
      rw [show g (seenBy systemClock s i) = g s.storage from hslots _ _] at hstep
      cases hv : w (step ser T (seenBy systemClock s i) a).2 with
      | none =>
        rw [hv] at hstep
        exact congrArg Lease.Ledger.slot hstep
      | some e =>
        rw [hv] at hstep
        exact ⟨_,hstep⟩

end Calls

section Distances

variable {S η ρ : ℕ} {es pre mid post : List Observed} {x x' : Observed}

theorem lt_of_over {now t length : ℤ} {y : Observed}
    (hobs : (∀ x ∈ es, now ≤ x.now ∧ |x.utcNow - x.now| ≤ η+ρ ∧ ∀ t ∈ timeKept x.event, t = x.utcNow) ∧
      es.Pairwise fun x y => x.now ≤ y.now) (hes : es = pre ++ x :: (mid ++ x' :: post))
    (ht : t ∈ timeKept x.event) (hy : y ∈ mid ++ [x']) (hover : t + length < y.utcNow) :
    length - 2*(η+ρ) < x'.now - x.now := by
  obtain ⟨hclose,hpair⟩ := hobs
  subst hes
  obtain ⟨-,hx,hkept⟩ := hclose x (by simp)
  obtain rfl := hkept t ht
  have hy' : y ∈ pre ++ x :: (mid ++ x' :: post) := by
    simp only [List.mem_append,List.mem_cons,List.not_mem_nil,or_false] at hy ⊢
    tauto
  have hle : y.now ≤ x'.now := by
    obtain hy | hy := List.mem_append.mp hy
    · have hrest := (List.pairwise_cons.mp (List.pairwise_append.mp hpair).2.1).2
      exact (List.pairwise_append.mp hrest).2.2 y hy x' (by simp)
    · rw [List.mem_singleton.mp hy]
  linarith [neg_abs_le (x.utcNow - x.now),le_abs_self (y.utcNow - y.now),(hclose y hy').2.1]

end Distances

/-- Two fetches of one row are more than `d` apart on the clock of the database, or the first handle
requeued the row in between. -/
def FetchesApart (d : ℤ) (es : List Observed) : Prop :=
  ∀ pre mid post x x' i j r t t', es = pre ++ x :: (mid ++ x' :: post) →
    x.event = .fetched i r t → x'.event = .fetched j r t' →
    d < x'.now - x.now ∨ ∃ y ∈ mid, y.event.RequeuedBy i r

/-- Two grants of one lock are further apart than its lease is long, but for the error, or the
first object was released in between. -/
def LockLeasesApart (error : ℤ) (es : List Observed) : Prop :=
  ∀ pre mid post x x' i j r timeout t timeout' t', es = pre ++ x :: (mid ++ x' :: post) →
    x.event = .acquired i r timeout t → x'.event = .acquired j r timeout' t' →
    timeout - error < x'.now - x.now ∨ ∃ y ∈ mid, y.event = .released i r true

section Exclusion

variable {ι : Type} [DecidableEq ι] {ser : SerializationHelper} {T : ℤ} {systemClock : ι → ℤ → ℤ}
  {S η ρ : ℕ} {s : StorageState} {as : List (ClockedAction ι)}

omit [DecidableEq ι] in
theorem requeuedBy_of_rowEvent {e : Event} {i : ℕ} {r : ℤ}
    (h : rowEvent T e = some (.release (some i) r)) : e.RequeuedBy i r := by
  cases e with
  | requeued i' r' => simp_all [rowEvent,Event.RequeuedBy]
  | disposed i' r' b => cases b <;> simp_all [rowEvent,Event.RequeuedBy]
  | deleted k rows => cases k <;> simp [rowEvent] at h
  | _ => simp [rowEvent] at h

omit [DecidableEq ι] in
theorem released_of_lockEvent {e : Event} {i : ℕ} {r : String}
    (h : lockEvent e = some (.release (some i) r)) : e = .released i r true := by
  cases e with
  | released i' r' b => cases b <;> simp_all [lockEvent]
  | _ => simp [lockEvent] at h

theorem leaseCall_fetched {x : Observed} {i : ℕ} {r t : ℤ} (hx : x.event = .fetched i r t) :
    leaseCall id (rowEvent T) x = some (x.utcNow,.acquire (some i) r t (t+T)) := by
  rw [leaseCall,hx]
  rfl

theorem leaseCall_acquired {x : Observed} {i : ℕ} {r : String} {timeout t : ℤ}
    (hx : x.event = .acquired i r timeout t) :
    leaseCall DateTime.toEpochDate lockEvent x = some (DateTime.toEpochDate x.utcNow,
      .acquire (some i) r (DateTime.toEpochDate t) (DateTime.toEpochDate (t+timeout))) := by
  rw [leaseCall,hx]
  rfl

/-- Two servers whose offsets are measured in time fetch a row more than `T` apart on the clock of
the database, less twice the error of their clocks, unless the first requeued it in between. -/
theorem fetches_apart (hT : DateTime.ticksPerMillisecond ∣ T) (hs : s.handles = [])
    (hdrift : Drifts systemClock S ρ)
    (htime : Along (clockedStep ser T systemClock) (Timely systemClock S η) (started ι s) as)
    (hown : Along (clockedStep ser T systemClock) (OfCalls systemClock (OwnRequeue T)) (started ι s) as) :
    FetchesApart (T - 2*(η+ρ)) (trace (clockedStep ser T systemClock) (started ι s) as) := by
  intro pre mid post x x' i j r t t' htr hx hx'
  have h₀ : HandlesKnown s := by simp [HandlesKnown,handleRows,hs]
  have hpath := calls_path (f := id) (w := rowEvent T) (I := HandlesKnown)
    (g := fun s => rowSlot T s.db.jobQueue (handleRows s)) (s := started ι s) rfl
    (fun _ _ => rfl) (fun _ _ h => h) (fun s a hI _ => handlesKnown_step hI (step_queueEffect ser a))
    (fun s a hI hC => rowLedger_step hT hI hC (step_queueEffect ser a)) hown h₀
  have hobs := observed_run hdrift (measured_started s) htime
  rw [htr] at hpath
  obtain hover | hreleased :=
    Lease.over_on_some_clock_of_trace hpath (leaseCall_fetched hx) (leaseCall_fetched hx')
  · left
    obtain ⟨y,hy,c,hc,hlt⟩ := hover
    rw [← (leaseCall_eq_some.mp hc).2] at hlt
    exact lt_of_over hobs htr (by simp [hx,timeKept]) hy hlt
  · right
    obtain ⟨y,hy,v,hv⟩ := hreleased
    exact ⟨y,hy,requeuedBy_of_rowEvent (leaseCall_eq_some.mp hv).1⟩

/-- The same of two grants of one lock, whose lease is as long as the timeout of the first. -/
theorem lock_leases_apart (hs : s.locks = []) (hu : UniqueResources s.db.distributedLock)
    (hdrift : Drifts systemClock S ρ)
    (htime : Along (clockedStep ser T systemClock) (Timely systemClock S η) (started ι s) as)
    (hown : Along (clockedStep ser T systemClock)
      (OfCalls systemClock fun s a => OwnRelease s a ∧ a.isCleanup = false) (started ι s) as) :
    LockLeasesApart (2*(η+ρ)) (trace (clockedStep ser T systemClock) (started ι s) as) := by
  intro pre mid post x x' i j r timeout t timeout' t' htr hx hx'
  have h₀ : LocksOk s := by
    refine ⟨hu,fun r _ j l _ hl => ?_,by simp [hs],by simp [hs]⟩
    simp [hs] at hl
  have hnow (s : StorageState) (now : ℤ) (h : LocksOk s) : LocksOk { s with now := now } :=
    ⟨h.unique,h.owner,h.known,h.resource⟩
  have hpath := calls_path (f := DateTime.toEpochDate) (w := lockEvent) (I := LocksOk)
    (g := fun s => lockSlot s.db.distributedLock (lockResources s)) (s := started ι s) rfl
    (fun _ _ => rfl) hnow (fun s a hI hC => locksOk_step hI (step_lockEffect ser a hC.2))
    (fun s a hI hC => lockLedger_step hI hC.1 (step_lockEffect ser a hC.2)) hown h₀
  have hobs := observed_run hdrift (measured_started s) htime
  rw [htr] at hpath
  obtain hover | hreleased :=
    Lease.over_on_some_clock_of_trace hpath (leaseCall_acquired hx) (leaseCall_acquired hx')
  · left
    obtain ⟨y,hy,c,hc,hlt⟩ := hover
    rw [← (leaseCall_eq_some.mp hc).2] at hlt
    exact lt_of_over hobs htr (by simp [hx,timeKept]) hy (DateTime.lt_of_toEpochDate_lt hlt)
  · right
    obtain ⟨y,hy,v,hv⟩ := hreleased
    exact ⟨y,hy,released_of_lockEvent (leaseCall_eq_some.mp hv).1⟩

end Exclusion

section Runs

/-- The system clock of one server is 500 ticks slow. -/
def slowClock (slow : Bool) (t : ℤ) : ℤ := if slow then t-500 else t

theorem slowClock_drifts (S ρ : ℕ) : Drifts slowClock S ρ := by
  rintro (_ | _) t t' - - <;> simp [slowClock]

/-- Both offsets are wrong by 1000 ticks, so that one reading is too early and the other too late. -/
def measuredBadly : List (ClockedAction Bool) :=
  [.refreshUtcOffset false (-1000),.refreshUtcOffset true 1500]

def fetchedTwice : List (ClockedAction Bool) :=
  measuredBadly ++ oneJobQueued.map (.call false) ++
    [.call false dequeueDefault,.advance 98001,.call true dequeueDefault]

theorem fetches_apart_badly : FetchesApart (100000 - 2*(1000+0))
    (trace (clockedStep Json.helper 100000 slowClock) (started Bool (initial 1000000)) fetchedTwice) :=
  fetches_apart (S := 100000) (η := 1000) (ρ := 0) (by decide) rfl (slowClock_drifts _ _) (by decide)
    (by decide)

/-- The bound is sharp. -/
example : (trace (clockedStep Json.helper 100000 slowClock) (started Bool (initial 1000000))
    fetchedTwice).filter (fun x => timeKept x.event ≠ none) =
      [⟨1000000,999000,.fetched 0 1 999000⟩,⟨1098001,1099001,.fetched 1 1 1099001⟩] := by decide

def grantedTwice : List (ClockedAction Bool) :=
  measuredBadly ++ [.call false acquireJobs,.advance 99000,.call true acquireJobs]

theorem lock_leases_apart_badly : LockLeasesApart (2*(1000+0))
    (trace (clockedStep Json.helper 0 slowClock) (started Bool (initial 1000000)) grantedTwice) :=
  lock_leases_apart (S := 200000) (η := 1000) (ρ := 0) rfl (by decide) (slowClock_drifts _ _) (by decide)
    (by decide)

end Runs

end ServerClocks
end HangfireStorage
