import HangfireStorage.LockScope
import HangfireStorage.Loops
import HangfireStorage.StorageOptions

/-!
# The wait for a distributed lock

The loop of `Initialize` and the loop of `WrapForDeadlock` inside it, as one loop over the
attempts. Only the outer one looks at the stopwatch. Times are ticks.
-/

namespace HangfireStorage
namespace LockWait

open LockScope Loop

/-- What `TryMutex` returns or throws, the time it takes, and that of the poll that may follow. -/
structure Attempt where
  outcome : Except Thrown Bool
  took : ℕ
  polled : ℕ

def Attempt.granted (a : Attempt) : Prop := a.outcome = .ok true

def Attempt.deadlocked (a : Attempt) : Prop := ∃ kind, a.outcome = .error ⟨kind,true⟩

inductive Result
  | acquired
  | timedOut
  | raised (e : Thrown)
  deriving DecidableEq, Repr

/-- One attempt and what comes of it, with the time elapsed since the start. -/
def attempt (options : FluentNHibernateStorageOptions) (a : Attempt) (elapsed : ℤ) :
    ℤ × Option Result :=
  match a.outcome with
  | .error ⟨_,true⟩ => (elapsed + a.took + a.polled,none)
  | outcome =>
    match wrapForTransaction false outcome with
    | .error e => (elapsed + a.took,some (.raised e))
    | .ok true => (elapsed + a.took,some .acquired)
    | .ok false =>
      if options.distributedLockWaitTimeout.ticks < elapsed + a.took then
        (elapsed + a.took,some .timedOut)
      else (elapsed + a.took + a.polled,none)

/-- `Initialize`, cut after `n` attempts. -/
def initializeLock (options : FluentNHibernateStorageOptions) (n : ℕ) (as : ℕ → Attempt) :
    ℤ × Option Result :=
  run (attempt options) n as 0

/-- The attempt is granted, refused or finds the mutex taken, or its exception is one that the
wrappers take care of. -/
def Attempt.Expected (a : Attempt) : Prop :=
  ∀ e, a.outcome = .error e → e.deadlock = true ∨ e.kind = .transaction

/-- A poll takes at least the interval it is asked for. -/
structure Attempt.Polls (options : FluentNHibernateStorageOptions) (a : Attempt) : Prop where
  deadlock : a.deadlocked → options.deadlockRetryInterval.ticks ≤ a.polled
  failure : ¬ a.granted → ¬ a.deadlocked → options.distributedLockPollInterval.ticks ≤ a.polled

def startOf (as : ℕ → Attempt) : ℕ → ℤ
  | 0 => 0
  | k+1 => startOf as k + (as k).took + (as k).polled

def endOf (as : ℕ → Attempt) (k : ℕ) : ℤ := startOf as k + (as k).took

def Late (options : FluentNHibernateStorageOptions) (as : ℕ → Attempt) (k : ℕ) : Prop :=
  options.distributedLockWaitTimeout.ticks < endOf as k

/-- Attempt `n` is the last: it is granted and the call returns, or it fails late and the call
throws the timeout exception. -/
structure EndsWith (options : FluentNHibernateStorageOptions) (as : ℕ → Attempt) (n : ℕ) : Prop where
  running : (initializeLock options n as).2 = none
  last : (as n).granted ∧ (initializeLock options (n+1) as).2 = some .acquired ∨
    ¬ (as n).granted ∧ Late options as n ∧ (initializeLock options (n+1) as).2 = some .timedOut
  earlier : ∀ k < n, ¬ (as k).granted

def GivesUp (options : FluentNHibernateStorageOptions) (as : ℕ → Attempt) : Prop :=
  ∃ n, EndsWith options as n

def GivesUpAtOnce (options : FluentNHibernateStorageOptions) (as : ℕ → Attempt) : Prop :=
  ∃ n, EndsWith options as n ∧ ∀ k < n, ¬ Late options as k

section Attempts

variable {options : FluentNHibernateStorageOptions} {as : ℕ → Attempt} {a : Attempt} {elapsed : ℤ}
  {n k : ℕ}

theorem Attempt.not_deadlocked_of_granted (h : a.granted) : ¬ a.deadlocked := by
  rintro ⟨kind,hd⟩
  cases h.symm.trans hd

theorem attempt_cases (options : FluentNHibernateStorageOptions) (h : a.Expected) (elapsed : ℤ) :
    (a.granted ∧ attempt options a elapsed = (elapsed + a.took,some .acquired)) ∨
      (a.deadlocked ∧ attempt options a elapsed = (elapsed + a.took + a.polled,none)) ∨
      ¬ a.granted ∧ ¬ a.deadlocked ∧ attempt options a elapsed =
        if options.distributedLockWaitTimeout.ticks < elapsed + a.took then
          (elapsed + a.took,some .timedOut)
        else (elapsed + a.took + a.polled,none) := by
  obtain ⟨outcome,took,polled⟩ := a
  cases outcome with
  | ok acquired =>
    cases acquired with
    | true => exact .inl ⟨rfl,rfl⟩
    | false => exact .inr (.inr ⟨nofun,nofun,rfl⟩)
  | error e =>
    obtain ⟨kind,deadlock⟩ := e
    cases deadlock with
    | true => exact .inr (.inl ⟨⟨kind,rfl⟩,rfl⟩)
    | false =>
      obtain hd | rfl : false = true ∨ kind = .transaction := h _ rfl
      · cases hd
      · exact .inr (.inr ⟨nofun,nofun,rfl⟩)

def Stops (options : FluentNHibernateStorageOptions) (as : ℕ → Attempt) (k : ℕ) : Prop :=
  (as k).granted ∨ Late options as k ∧ ¬ (as k).deadlocked

theorem attempt_of_not_stops (h : (as k).Expected) (hs : ¬ Stops options as k) :
    attempt options (as k) (startOf as k) = (startOf as (k+1),none) := by
  obtain ⟨hg,-⟩ | ⟨-,ha⟩ | ⟨-,hd,ha⟩ := attempt_cases options h (startOf as k)
  · exact absurd (.inl hg) hs
  · exact ha
  · have hintime : ¬ options.distributedLockWaitTimeout.ticks < startOf as k + (as k).took :=
      fun hlate => hs (.inr ⟨hlate,hd⟩)
    rw [ha,if_neg hintime]
    rfl

theorem attempt_of_stops (h : (as k).Expected) (hs : Stops options as k) :
    (as k).granted ∧ attempt options (as k) (startOf as k) = (endOf as k,some .acquired) ∨
      ¬ (as k).granted ∧ Late options as k ∧
        attempt options (as k) (startOf as k) = (endOf as k,some .timedOut) := by
  obtain ⟨hg,ha⟩ | ⟨hd,-⟩ | ⟨hg,-,ha⟩ := attempt_cases options h (startOf as k)
  · exact .inl ⟨hg,ha⟩
  · rcases hs with hg | ⟨-,hnd⟩
    · exact absurd hd (Attempt.not_deadlocked_of_granted hg)
    · exact absurd hd hnd
  · rcases hs with hg' | ⟨hlate,-⟩
    · exact absurd hg' hg
    · have hover : options.distributedLockWaitTimeout.ticks < startOf as k + (as k).took := hlate
      rw [if_pos hover] at ha
      exact .inr ⟨hg,hlate,ha⟩

theorem initializeLock_running (h : ∀ k, (as k).Expected) (hs : ∀ k < n, ¬ Stops options as k) :
    initializeLock options n as = (startOf as n,none) :=
  run_of_states (startOf as) fun k hk => attempt_of_not_stops (h k) (hs k hk)

theorem initializeLock_last (h : ∀ k, (as k).Expected) (hs : ∀ k < n, ¬ Stops options as k)
    (hn : Stops options as n) :
    (as n).granted ∧ initializeLock options (n+1) as = (endOf as n,some .acquired) ∨
      ¬ (as n).granted ∧ Late options as n ∧
        initializeLock options (n+1) as = (endOf as n,some .timedOut) := by
  have hgo : ∀ k < n, attempt options (as k) (startOf as k) = (startOf as (k+1),none) :=
    fun k hk => attempt_of_not_stops (h k) (hs k hk)
  obtain ⟨hg,ha⟩ | ⟨hg,hlate,ha⟩ := attempt_of_stops (h n) hn
  · exact .inl ⟨hg,run_of_states_stop (startOf as) hgo ha⟩
  · exact .inr ⟨hg,hlate,run_of_states_stop (startOf as) hgo ha⟩

theorem endsWith_iff (h : ∀ k, (as k).Expected) :
    EndsWith options as n ↔ Stops options as n ∧ ∀ k < n, ¬ Stops options as k := by
  constructor
  · intro hn
    have hrunning : ∀ k < n, ¬ Stops options as k := by
      intro k
      induction k using Nat.strong_induction_on with
      | _ k ih =>
        intro hk hs
        have hended : ∃ t r, initializeLock options (k+1) as = (t,some r) := by
          obtain ⟨-,he⟩ | ⟨-,-,he⟩ := initializeLock_last h (fun j hj => ih j hj (by omega)) hs
          · exact ⟨_,_,he⟩
          · exact ⟨_,_,he⟩
        obtain ⟨t,r,he⟩ := hended
        obtain ⟨m,rfl⟩ : ∃ m, n = k+1+m := ⟨n-(k+1),by omega⟩
        have hlive := hn.running
        rw [initializeLock,run_add_of_ended he] at hlive
        cases hlive
    refine ⟨?_,hrunning⟩
    by_contra hs
    have hnext : initializeLock options (n+1) as = (startOf as (n+1),none) :=
      initializeLock_running h fun k hk => by
        obtain hk | rfl := Nat.lt_succ_iff_lt_or_eq.mp hk
        · exact hrunning k hk
        · exact hs
    obtain ⟨-,hlast⟩ | ⟨-,-,hlast⟩ := hn.last <;> rw [hnext] at hlast <;> cases hlast
  · rintro ⟨hs,hrunning⟩
    refine ⟨by rw [initializeLock_running h hrunning],?_,fun k hk hg => hrunning k hk (.inl hg)⟩
    obtain ⟨hg,he⟩ | ⟨hg,hlate,he⟩ := initializeLock_last h hrunning hs
    · exact .inl ⟨hg,congrArg Prod.snd he⟩
    · exact .inr ⟨hg,hlate,congrArg Prod.snd he⟩

theorem exists_endsWith_iff (h : ∀ k, (as k).Expected) :
    GivesUp options as ↔ ∃ n, Stops options as n := by
  classical
  constructor
  · rintro ⟨n,hn⟩
    exact ⟨n,((endsWith_iff h).mp hn).1⟩
  · intro hstops
    exact ⟨Nat.find hstops,(endsWith_iff h).mpr
      ⟨Nat.find_spec hstops,fun k hk => Nat.find_min hstops hk⟩⟩

theorem le_startOf (hpoll : ∀ k, (as k).Polls options) (hg : ∀ k < n, ¬ (as k).granted) :
    (n : ℤ) ≤ startOf as n := by
  induction n with
  | zero => exact le_rfl
  | succ n ih =>
    have hle := ih fun k hk => hg k (by omega)
    have hpolled : 1 ≤ (as n).polled := by
      by_cases hd : (as n).deadlocked
      · have := (hpoll n).deadlock hd
        have := options.deadlockRetryInterval.pos
        omega
      · have := (hpoll n).failure (hg n (by omega)) hd
        have := options.distributedLockPollInterval.pos
        omega
    rw [startOf]
    push_cast
    omega

theorem late_of_lt (hpoll : ∀ k, (as k).Polls options) (hg : ∀ k < n, ¬ (as k).granted)
    (hn : options.distributedLockWaitTimeout.ticks < n) : Late options as n := by
  have hle := le_startOf hpoll hg
  unfold Late endOf
  omega

theorem exists_granted_or_late (hpoll : ∀ k, (as k).Polls options) :
    ∃ n, (as n).granted ∨ Late options as n := by
  by_contra hnone
  have hg : ∀ k, ¬ (as k).granted := fun k hg => hnone ⟨k,.inl hg⟩
  refine hnone ⟨options.distributedLockWaitTimeout.ticks.toNat+1,.inr ?_⟩
  exact late_of_lt hpoll (fun k _ => hg k) (by omega)

end Attempts

def attemptOf (resource : String) (timeout : ℤ) (i : Circumstance) (db : Db) (took polled : ℕ) :
    Attempt :=
  ⟨(tryMutex resource timeout i db).map fun r => r.1.isSome,took,polled⟩

/-- A round on the database ends as its attempt does, if it is told whether the time is up. -/
theorem acquire_attempt (options : FluentNHibernateStorageOptions) (resource : String) (timeout : ℤ)
    (i : Circumstance) (db : Db) (took polled : ℕ) (elapsed : ℤ)
    (hwait : i.waitExpired = decide (options.distributedLockWaitTimeout.ticks < elapsed + took)) :
    match (acquire resource timeout i db).2,
      (attempt options (attemptOf resource timeout i db took polled) elapsed).2 with
    | .granted _, r => r = some .acquired
    | .again, r => r = none
    | .raised e, r => r = some (.raised e) ∨
        r = some .timedOut ∧ e = ⟨.distributedLockTimeout,false⟩ := by
  unfold acquire attempt attemptOf
  rw [hwait]
  cases tryMutex resource timeout i db with
  | ok r =>
    obtain ⟨id,db'⟩ := r
    cases id with
    | some id => rfl
    | none =>
      by_cases hlate : options.distributedLockWaitTimeout.ticks < elapsed + took
      · simp [Except.map,wrapForTransaction,hlate]
      · simp [Except.map,wrapForTransaction,hlate]
  | error e =>
    obtain ⟨kind,deadlock⟩ := e
    cases deadlock with
    | true => rfl
    | false =>
      by_cases hlate : options.distributedLockWaitTimeout.ticks < elapsed + took
      · cases kind <;> simp [Except.map,wrapForTransaction,hlate]
      · cases kind <;> simp [Except.map,wrapForTransaction,hlate]

/-- The wait for a lock comes to an end exactly if an attempt is granted, or one that fails late
fails otherwise than by a deadlock. It ends with the first attempt that fails late exactly if
that one is no deadlock. -/
theorem initializeLock_gives_up_iff {options : FluentNHibernateStorageOptions} {as : ℕ → Attempt}
    (h : ∀ k, (as k).Expected) (hpoll : ∀ k, (as k).Polls options) :
    (GivesUp options as ↔
      ∃ n, (as n).granted ∨ Late options as n ∧ ¬ (as n).deadlocked) ∧
    (GivesUpAtOnce options as ↔
      ∀ n, ((as n).granted ∨ Late options as n) →
        (∀ k < n, ¬ (as k).granted ∧ ¬ Late options as k) → ¬ (as n).deadlocked) := by
  classical
  refine ⟨exists_endsWith_iff h,?_⟩
  constructor
  · rintro ⟨n,hn,hintime⟩ m hm hbefore
    obtain ⟨hs,-⟩ := (endsWith_iff h).mp hn
    have hmn : m = n := by
      rcases Nat.lt_trichotomy m n with hlt | heq | hgt
      · exact absurd hm (not_or.mpr ⟨hn.earlier m hlt,hintime m hlt⟩)
      · exact heq
      · obtain ⟨hg,hl⟩ := hbefore n hgt
        rcases hs with hs | hs
        · exact absurd hs hg
        · exact absurd hs.1 hl
    subst hmn
    rcases hs with hs | hs
    · exact Attempt.not_deadlocked_of_granted hs
    · exact hs.2
  · intro hall
    have hfirst := exists_granted_or_late hpoll
    let n := Nat.find hfirst
    have hn : (as n).granted ∨ Late options as n := Nat.find_spec hfirst
    have hbefore : ∀ k < n, ¬ (as k).granted ∧ ¬ Late options as k :=
      fun k hk => not_or.mp (Nat.find_min hfirst hk)
    have hnd := hall n hn hbefore
    refine ⟨n,(endsWith_iff h).mpr ⟨hn.imp_right fun hl => ⟨hl,hnd⟩,fun k hk hs => ?_⟩,
      fun k hk => (hbefore k hk).2⟩
    rcases hs with hg | hl
    · exact (hbefore k hk).1 hg
    · exact (hbefore k hk).2 hl.1

theorem givesUp_of_again {options : FluentNHibernateStorageOptions} {as : ℕ → Attempt}
    (h : ∀ k, (as k).Expected) (hpoll : ∀ k, (as k).Polls options)
    (hagain : ∀ m, ∃ n ≥ m, ¬ (as n).deadlocked) : GivesUp options as := by
  by_cases hg : ∃ n, (as n).granted
  · obtain ⟨n,hg⟩ := hg
    exact exists_endsWith_iff h |>.mpr ⟨n,.inl hg⟩
  · obtain ⟨n,hn,hd⟩ := hagain (options.distributedLockWaitTimeout.ticks.toNat+1)
    have hlate : Late options as n :=
      late_of_lt hpoll (fun k _ hk => hg ⟨k,hk⟩) (by omega)
    exact exists_endsWith_iff h |>.mpr ⟨n,.inr ⟨hlate,hd⟩⟩

open FluentNHibernateStorageOptions

/-- A deadlock, tried again after a second. -/
def deadlock : Attempt := ⟨.error ⟨.other,true⟩,0,10000000⟩

/-- A lock that somebody else holds, after five seconds; the poll takes fifteen. -/
def refused : Attempt := ⟨.ok false,50000000,150000000⟩

theorem initializeLock_gives_up_refused :
    (GivesUp defaults (fun _ => refused) ↔
      ∃ n, refused.granted ∨ Late defaults (fun _ => refused) n ∧ ¬ refused.deadlocked) ∧
    (GivesUpAtOnce defaults (fun _ => refused) ↔
      ∀ n, (refused.granted ∨ Late defaults (fun _ => refused) n) →
        (∀ k < n, ¬ refused.granted ∧ ¬ Late defaults (fun _ => refused) k) →
          ¬ refused.deadlocked) :=
  initializeLock_gives_up_iff (fun _ => nofun) fun _ => ⟨nofun,fun _ _ => by decide⟩

/-- Deadlocks keep the call in the inner loop for ever. -/
theorem deadlocks_never_give_up :
    deadlock.Expected ∧ deadlock.Polls defaults ∧
    (∀ n, (initializeLock defaults n fun _ => deadlock).2 = none) ∧
    ¬ GivesUp defaults fun _ => deadlock := by
  have hnone : ∀ n, (initializeLock defaults n fun _ => deadlock).2 = none := by
    intro n
    refine run_diverges (I := fun is _ => is = fun _ => deadlock) ?_ rfl n
    rintro is elapsed rfl
    exact ⟨_,rfl,rfl⟩
  refine ⟨fun e he => ?_,⟨fun _ => by decide,fun _ hd => absurd ⟨.other,rfl⟩ hd⟩,hnone,?_⟩
  · cases he
    exact .inl rfl
  · rintro ⟨n,hn⟩
    obtain ⟨-,hlast⟩ | ⟨-,-,hlast⟩ := hn.last <;> rw [hnone] at hlast <;> cases hlast

end LockWait
end HangfireStorage
