import HangfireStorage.Dequeue

/-!
# Cancellation

Polls look at the token after every wait, and a call of Dequeue looks at it in its polls and
before each attempt, but nowhere in between. Times are ticks of the stopwatch of the poll.
-/

namespace HangfireStorage

open LockScope Loop

namespace CancellationTokenExtensions

def pollInterval : ℤ := 10000000

/-- What a pass reads from the stopwatch, when its wait is over, and what the token says then. -/
structure Pass where
  elapsed : ℤ
  woke : ℤ
  cancelled : Bool

def operationCanceled : Thrown := ⟨.other,false⟩

def pass (interval : ℤ) (i : Pass) (s : Unit) : Unit × Option (Except Thrown Unit) :=
  if i.elapsed < interval then
    if i.cancelled then (s,some (.error operationCanceled)) else (s,none)
  else (s,some (.ok ()))

/-- The poll, cut after `n` passes. -/
def pollForCancellation (interval : ℤ) (n : ℕ) (is : ℕ → Pass) : Option (Except Thrown Unit) :=
  (run (pass interval) n is ()).2

/-- Time goes on, and a wait is cut short by the cancellation only, at the given time if at all. -/
structure Waits (cancelledAt : Option ℤ) (is : ℕ → Pass) : Prop where
  inner : ∀ k, (is k).elapsed ≤ (is k).woke
  outer : ∀ k, (is k).woke ≤ (is (k+1)).elapsed
  whole : ∀ k, (is k).cancelled = false → (is k).elapsed + pollInterval ≤ (is k).woke
  cancelled : ∀ k, (is k).cancelled = true ↔ ∃ t ∈ cancelledAt, t ≤ (is k).woke

/-- The poll ends in pass `n`: in time, or with the token cancelled since the last look at it. -/
structure EndsIn (interval : ℤ) (cancelledAt : Option ℤ) (is : ℕ → Pass) (n : ℕ) : Prop where
  running : pollForCancellation interval n is = none
  earlier : ∀ k < n, (is k).elapsed < interval ∧ ∀ t ∈ cancelledAt, (is k).woke < t
  last : pollForCancellation interval (n+1) is = some (.ok ()) ∧ interval ≤ (is n).elapsed ∨
    pollForCancellation interval (n+1) is = some (.error operationCanceled) ∧
      (is n).elapsed < interval ∧ ∃ t ∈ cancelledAt, t ≤ (is n).woke

section Polls

variable {interval : ℤ} {cancelledAt : Option ℤ} {is : ℕ → Pass} {n : ℕ}

/-- Each pass that goes on takes a whole wait. -/
theorem elapsed_le (hw : Waits cancelledAt is) (h : ∀ k < n, (is k).cancelled = false) :
    (is 0).elapsed + n * pollInterval ≤ (is n).elapsed := by
  induction n with
  | zero => simp
  | succ n ih =>
    have hle := ih fun k hk => h k (by omega)
    have hwhole := hw.whole n (h n (by omega))
    have houter := hw.outer n
    push_cast
    linarith

theorem exists_last (interval : ℤ) (hw : Waits cancelledAt is) :
    ∃ n, interval ≤ (is n).elapsed ∨ (is n).cancelled = true := by
  by_contra hnone
  push Not at hnone
  have hle := elapsed_le (n := (interval - (is 0).elapsed).toNat) hw
    fun k _ => Bool.eq_false_iff.mpr (hnone k).2
  have hlt := (hnone (interval - (is 0).elapsed).toNat).1
  unfold pollInterval at hle
  omega

theorem pollForCancellation_running
    (h : ∀ k < n, (is k).elapsed < interval ∧ (is k).cancelled = false) :
    run (pass interval) n is () = ((),none) :=
  run_of_states (fun _ => ()) fun k hk => by simp [pass,h k hk]

end Polls

/-- A poll ends. It has waited for the whole interval, or the token was cancelled during its last
wait, or before the only one; and all its waits but one fit into the interval. -/
theorem pollForCancellation_ends (interval : ℤ) {cancelledAt : Option ℤ} {is : ℕ → Pass}
    (hw : Waits cancelledAt is) : ∃ n, EndsIn interval cancelledAt is n ∧
      (0 < n → ((n : ℤ)-1) * pollInterval < interval - (is 0).elapsed) := by
  classical
  have hlast := exists_last interval hw
  let n := Nat.find hlast
  have hn : interval ≤ (is n).elapsed ∨ (is n).cancelled = true := Nat.find_spec hlast
  have hgo : ∀ k < n, (is k).elapsed < interval ∧ (is k).cancelled = false := by
    intro k hk
    have hno := Nat.find_min hlast hk
    push Not at hno
    exact ⟨hno.1,by simpa using hno.2⟩
  have hrun := pollForCancellation_running hgo
  refine ⟨n,⟨congrArg Prod.snd hrun,fun k hk => ⟨(hgo k hk).1,fun t ht => ?_⟩,?_⟩,fun hpos => ?_⟩
  · by_contra hle
    have hc := (hw.cancelled k).mpr ⟨t,ht,not_lt.mp hle⟩
    rw [(hgo k hk).2] at hc
    cases hc
  · have hstep (r : Except Thrown Unit) (h : pass interval (is n) () = ((),some r)) :
        pollForCancellation interval (n+1) is = some r :=
      congrArg Prod.snd (run_of_states_stop (fun _ => ())
        (fun k hk => by simp [pass,hgo k hk]) h)
    by_cases htime : (is n).elapsed < interval
    · have hc := hn.resolve_left (not_le.mpr htime)
      exact .inr ⟨hstep _ (by simp [pass,htime,hc]),htime,(hw.cancelled n).mp hc⟩
    · exact .inl ⟨hstep _ (by simp [pass,htime]),not_lt.mp htime⟩
  · obtain ⟨m,hm⟩ : ∃ m, n = m+1 := ⟨n-1,by omega⟩
    have hle := elapsed_le (n := m) hw fun k hk => (hgo k (by omega)).2
    have hlt := (hgo m (by omega)).1
    rw [hm]
    push_cast
    linarith

/-- The token is cancelled in the second of three waits. -/
theorem pollForCancellation_ends_cancelled :
    let is : ℕ → Pass := fun k => ⟨k*pollInterval,(k+1)*pollInterval,1 ≤ k⟩
    ∃ n, EndsIn 30000000 (some 15000000) is n ∧
      (0 < n → ((n : ℤ)-1) * pollInterval < 30000000 - (is 0).elapsed) := by
  refine pollForCancellation_ends 30000000 ⟨fun k => ?_,fun k => ?_,fun k _ => ?_,fun k => ?_⟩
  · simp only [pollInterval]
    omega
  · simp only [pollInterval]
    omega
  · simp only [pollInterval]
    omega
  · simp only [pollInterval,decide_eq_true_eq,Option.mem_def,Option.some.injEq,exists_eq_left']
    omega

end CancellationTokenExtensions

namespace Dequeue

open DistributedLock

/-- How far a call is from its next look at the token. -/
def Position.rank : Position → ℕ
  | .head => 0
  | .poll => 1
  | .release _ _ => 2
  | .fetch _ => 3
  | .acquire => 4

/-- The call does not wait for its lock, neither to get it nor to get rid of it. -/
def Position.Settled : Position → Prop
  | .acquire | .release _ _ => False
  | _ => True

def Position.IsFetch : Position → Prop
  | .fetch _ => True
  | _ => False

theorem Position.IsFetch.spec {p : Position} (h : p.IsFetch) : p.rank = 3 ∧ p.Settled := by
  cases p <;> first | exact ⟨rfl,trivial⟩ | exact h.elim

section Steps

variable {options : Options} {queues : List String} {i : Circumstance} {s s' : CallState}
  {lock : Lock} {pending : Option Thrown}

theorem leave_position {e : Thrown} (h : leave e s = (s',none)) : s'.position = .poll := by
  obtain ⟨-,⟨-,-,hp⟩ | ⟨-,hr⟩⟩ := leave_spec h
  · exact hp
  · cases hr

theorem acquireLock_rank (hp : s.position = .acquire) (h : acquireLock options i s = (s',none)) :
    s'.position.rank ≤ s.position.rank := by
  rw [hp]
  unfold acquireLock at h
  split at h
  · cases h
    simp [Position.rank]
  · cases h
    rw [hp]
  · rw [leave_position h]
    simp [Position.rank]

theorem fetchUnder_rank (hp : s.position = .fetch lock)
    (h : fetchUnder options queues lock i s = (s',none)) : s'.position.rank < s.position.rank := by
  rw [hp]
  unfold fetchUnder at h
  split at h <;> cases h <;> simp [Position.rank]

theorem afterUsing_position (h : afterUsing pending s = (s',none)) : s'.position = .poll := by
  unfold afterUsing at h
  split at h
  · exact leave_position h
  · cases h
  · cases h
    rfl

theorem disposeLock_rank (hp : s.position = .release lock pending)
    (h : disposeLock lock pending i s = (s',none)) : s'.position.rank ≤ s.position.rank := by
  rw [hp]
  unfold disposeLock at h
  split at h
  · rw [afterUsing_position h]
    simp [Position.rank]
  · cases h
    rw [hp]
  · rw [leave_position h]
    simp [Position.rank]

/-- With the token cancelled no step takes the call away from its next look at it. -/
theorem step_rank (hhead : s.position = .head → i.thrown ≠ none)
    (h : step options queues i s = (s',none)) :
    s'.position.rank ≤ s.position.rank ∧
      (s.position.Settled → s'.position.rank < s.position.rank) := by
  unfold step at h
  split at h <;> rename_i hp
  · obtain ⟨e,he⟩ := Option.ne_none_iff_exists'.mp (hhead hp)
    simp only [he] at h
    cases h
  · exact ⟨acquireLock_rank hp h,fun hs => by rw [hp] at hs; exact hs.elim⟩
  · exact ⟨(fetchUnder_rank hp h).le,fun _ => fetchUnder_rank hp h⟩
  · exact ⟨disposeLock_rank hp h,fun hs => by rw [hp] at hs; exact hs.elim⟩
  · split at h
    · cases h
    · split at h
      · cases h
      · cases h
        simp [hp,Position.rank]

end Steps

section Runs

variable {options : Options} {queues : List String} {is : ℕ → Circumstance} {s : CallState}

/-- From now on the test before an attempt throws. -/
def Cancelled (options : Options) (queues : List String) (is : ℕ → Circumstance) (s : CallState) :
    Prop :=
  ∀ k s', run (step options queues) k is s = (s',none) → s'.position = .head → (is k).thrown ≠ none

theorem Cancelled.later {s' : CallState} (h : Cancelled options queues is s)
    (hb : step options queues (is 0) s = (s',none)) : Cancelled options queues (later is) s' :=
  fun k s'' hk => h (k+1) s'' ((run_of_go hb k).trans hk)

/-- The token stays cancelled. -/
theorem Cancelled.after {k : ℕ} {s₁ : CallState} (h : Cancelled options queues is s)
    (hk : run (step options queues) k is s = (s₁,none)) :
    Cancelled options queues (fun j => is (k+j)) s₁ :=
  fun j s' hj => h (k+j) s' ((run_add_of_running hk j).trans hj)

theorem Cancelled.run_rank {n : ℕ} {s' : CallState} (h : Cancelled options queues is s)
    (hn : run (step options queues) n is s = (s',none)) : s'.position.rank ≤ s.position.rank := by
  induction n generalizing is s with
  | zero =>
    cases hn
    exact le_rfl
  | succ n ih =>
    cases hb : step options queues (is 0) s with
    | mk s₁ r =>
      cases r with
      | some r =>
        rw [run_of_stop hb] at hn
        cases hn
      | none =>
        rw [run_of_go hb] at hn
        exact (ih (h.later hb) hn).trans (step_rank (h 0 s rfl) hb).1

end Runs

/-- A call of Dequeue ends once its token is cancelled, wherever it stands, and fetches at most
once more; it only has to wait for its lock as long as these waits last. -/
theorem cancelled_call_ends {options : Options} {queues : List String} {is : ℕ → Circumstance}
    {s : CallState} (h : Cancelled options queues is s)
    (hwaits : Fair (step options queues) (fun s => s.position.Settled) is s) :
    (∃ n s' r, run (step options queues) n is s = (s',some r)) ∧
    ∀ k l s₁ s₂, k < l → run (step options queues) k is s = (s₁,none) →
      run (step options queues) l is s = (s₂,none) →
        ¬ (s₁.position.IsFetch ∧ s₂.position.IsFetch) := by
  constructor
  · refine run_ends_of_fair (I := Cancelled options queues) (fun _ s => s.position.rank) ?_ h hwaits
    intro is s s' hc hb
    obtain ⟨hle,hlt⟩ := step_rank (hc 0 s rfl) hb
    exact ⟨hc.later hb,hle,hlt⟩
  · rintro k l s₁ s₂ hkl hk hl ⟨hf₁,hf₂⟩
    obtain ⟨m,rfl⟩ : ∃ m, l = k+(m+1) := ⟨l-k-1,by omega⟩
    rw [run_add_of_running hk] at hl
    have hafter := h.after hk
    cases hb : step options queues (is (k+0)) s₁ with
    | mk s' r =>
      cases r with
      | some r =>
        rw [run_of_stop hb] at hl
        cases hl
      | none =>
        have hlt := (step_rank (hafter 0 s₁ rfl) hb).2
        rw [run_of_go hb] at hl
        have hle := (hafter.later hb).run_rank hl
        have hlt := hlt hf₁.spec.2
        rw [hf₁.spec.1] at hlt
        rw [hf₂.spec.1] at hle
        omega

/-- The token is cancelled while the call holds its lock. -/
def cancelledLater : ℕ → Circumstance
  | 0 | 1 | 2 | 3 => calm
  | _ => { calm with thrown := some ⟨.other,false⟩ }

theorem cancelled_call_ends_empty :
    (∃ n s' r, run (step defaults ["default"]) n cancelledLater ⟨.empty,.acquire,none⟩ =
      (s',some r)) ∧
    ∀ k l s₁ s₂, k < l → run (step defaults ["default"]) k cancelledLater ⟨.empty,.acquire,none⟩ =
        (s₁,none) →
      run (step defaults ["default"]) l cancelledLater ⟨.empty,.acquire,none⟩ = (s₂,none) →
        ¬ (s₁.position.IsFetch ∧ s₂.position.IsFetch) := by
  have hpos : ∀ k < 4, (run (step defaults ["default"]) k cancelledLater
      ⟨.empty,.acquire,none⟩).1.position ≠ .head := by decide
  refine cancelled_call_ends (fun k s' hk hp => ?_) (fair_of_ends _ (n := 5) (Prod.ext rfl rfl))
  by_cases hlt : k < 4
  · have hne := hpos k hlt
    rw [hk] at hne
    exact absurd hp hne
  · obtain ⟨m,rfl⟩ : ∃ m, k = m+4 := ⟨k-4,by omega⟩
    exact nofun

end Dequeue
end HangfireStorage
