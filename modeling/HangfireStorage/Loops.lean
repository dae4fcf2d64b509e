import Mathlib.Data.Nat.Init
import Mathlib.Order.WellFounded

/-!
# Loops fed by a stream

A pass takes its inputs, all that the loop does not choose itself, from a stream. It goes
on with a new state or stops with a result. Runs are cut after a number of passes.
-/

namespace HangfireStorage
namespace Loop

variable {ι σ ρ : Type*}

/-- The stream from the second pass on. -/
def later (is : ℕ → ι) : ℕ → ι := fun k => is (k+1)

@[simp] theorem later_apply (is : ℕ → ι) (k : ℕ) : later is k = is (k+1) := rfl

/-- The first `n` passes; there is no result while the loop is still running. -/
def run (body : ι → σ → σ × Option ρ) : ℕ → (ℕ → ι) → σ → σ × Option ρ
  | 0, _, s => (s,none)
  | n+1, is, s =>
    match body (is 0) s with
    | (s',some r) => (s',some r)
    | (s',none) => run body n (later is) s'

variable {body : ι → σ → σ × Option ρ} {is : ℕ → ι} {s s' : σ} {r : ρ} {n : ℕ}

@[simp] theorem run_zero : run body 0 is s = (s,none) := rfl

theorem run_of_stop (h : body (is 0) s = (s',some r)) (n : ℕ) :
    run body (n+1) is s = (s',some r) := by
  rw [run,h]

theorem run_of_go (h : body (is 0) s = (s',none)) (n : ℕ) :
    run body (n+1) is s = run body n (later is) s' := by
  rw [run,h]

theorem run_of_states (t : ℕ → σ) (h : ∀ k < n, body (is k) (t k) = (t (k+1),none)) :
    run body n is (t 0) = (t n,none) := by
  induction n generalizing is t with
  | zero => rfl
  | succ n ih =>
    rw [run_of_go (h 0 (by omega))]
    exact ih (fun k => t (k+1)) fun k hk => h (k+1) (by omega)

theorem run_of_states_stop (t : ℕ → σ) (h : ∀ k < n, body (is k) (t k) = (t (k+1),none))
    (hstop : body (is n) (t n) = (s',some r)) : run body (n+1) is (t 0) = (s',some r) := by
  induction n generalizing is t with
  | zero => exact run_of_stop hstop 0
  | succ n ih =>
    rw [run_of_go (h 0 (by omega))]
    exact ih (fun k => t (k+1)) (fun k hk => h (k+1) (by omega)) hstop

theorem run_invariant {I : (ℕ → ι) → σ → Prop}
    (hgo : ∀ is s s', I is s → body (is 0) s = (s',none) → I (later is) s')
    (h₀ : I is s) (h : run body n is s = (s',none)) : ∃ is', I is' s' := by
  induction n generalizing is s with
  | zero =>
    cases h
    exact ⟨is,h₀⟩
  | succ n ih =>
    cases hb : body (is 0) s with
    | mk s₁ r₁ =>
      cases r₁ with
      | none =>
        rw [run_of_go hb] at h
        exact ih (hgo is s s₁ h₀ hb) h
      | some r₁ =>
        rw [run_of_stop hb] at h
        cases h

/-- The exit rule: a loop that ends does so in a pass from a state that meets the invariant. -/
theorem run_exit {I : (ℕ → ι) → σ → Prop}
    (hgo : ∀ is s s', I is s → body (is 0) s = (s',none) → I (later is) s')
    (h₀ : I is s) (h : run body n is s = (s',some r)) :
    ∃ is' s₀, I is' s₀ ∧ body (is' 0) s₀ = (s',some r) := by
  induction n generalizing is s with
  | zero => cases h
  | succ n ih =>
    cases hb : body (is 0) s with
    | mk s₁ r₁ =>
      cases r₁ with
      | none =>
        rw [run_of_go hb] at h
        exact ih (hgo is s s₁ h₀ hb) h
      | some r₁ =>
        rw [run_of_stop hb] at h
        cases h
        exact ⟨is,s,h₀,hb⟩

/-- The termination rule: every pass that goes on makes a measure smaller. -/
theorem run_ends {κ : Type*} [WellFoundedRelation κ] {I : (ℕ → ι) → σ → Prop} (μ : (ℕ → ι) → σ → κ)
    (hgo : ∀ is s s', I is s → body (is 0) s = (s',none) →
      I (later is) s' ∧ WellFoundedRelation.rel (μ (later is) s') (μ is s))
    (h₀ : I is s) : ∃ n s' r, run body n is s = (s',some r) := by
  obtain ⟨m,hm⟩ : ∃ m, μ is s = m := ⟨_,rfl⟩
  induction m using (WellFoundedRelation.wf (α := κ)).induction generalizing is s with
  | h m ih =>
    cases hb : body (is 0) s with
    | mk s₁ r₁ =>
      cases r₁ with
      | some r₁ => exact ⟨1,s₁,r₁,run_of_stop hb 0⟩
      | none =>
        obtain ⟨hI,hlt⟩ := hgo is s s₁ h₀ hb
        obtain ⟨n,s',r,h⟩ := ih _ (hm ▸ hlt) hI rfl
        exact ⟨n+1,s',r,(run_of_go hb n).trans h⟩

/-- Again and again the loop is over or in a state of `B`: no wait goes on for ever. -/
def Fair (body : ι → σ → σ × Option ρ) (B : σ → Prop) (is : ℕ → ι) (s : σ) : Prop :=
  ∀ k, ∃ m ≥ k, ∀ s', run body m is s = (s',none) → B s'

theorem Fair.later {B : σ → Prop} (h : Fair body B is s) (hb : body (is 0) s = (s',none)) :
    Fair body B (later is) s' := by
  intro k
  obtain ⟨m,hm,hB⟩ := h (k+1)
  obtain ⟨m,rfl⟩ := Nat.exists_eq_succ_of_ne_zero (by omega : m ≠ 0)
  exact ⟨m,by omega,fun s'' hs => hB s'' ((run_of_go hb m).trans hs)⟩

theorem run_add_of_ended (h : run body n is s = (s',some r)) (m : ℕ) :
    run body (n+m) is s = (s',some r) := by
  induction n generalizing is s with
  | zero => cases h
  | succ n ih =>
    cases hb : body (is 0) s with
    | mk s₁ r₁ =>
      rw [show n+1+m = n+m+1 by omega]
      cases r₁ with
      | none =>
        rw [run_of_go hb] at h ⊢
        exact ih h
      | some r₁ =>
        rw [run_of_stop hb] at h ⊢
        exact h

theorem run_add_of_running (h : run body n is s = (s',none)) (m : ℕ) :
    run body (n+m) is s = run body m (fun k => is (n+k)) s' := by
  induction n generalizing is s with
  | zero =>
    cases h
    simp
  | succ n ih =>
    cases hb : body (is 0) s with
    | mk s₁ r₁ =>
      rw [show n+1+m = n+m+1 by omega]
      cases r₁ with
      | none =>
        rw [run_of_go hb] at h ⊢
        rw [ih h]
        congr 1
        funext k
        rw [later_apply]
        congr 1
        omega
      | some r₁ =>
        rw [run_of_stop hb] at h
        cases h

theorem ends_from {m : ℕ} {s'' : σ} (h : run body n is s = (s',none))
    (hend : run body m is s = (s'',some r)) :
    ∃ j, run body j (fun k => is (n+k)) s' = (s'',some r) := by
  obtain hnm | hmn := Nat.le_total n m
  · obtain ⟨j,rfl⟩ := Nat.exists_eq_add_of_le hnm
    exact ⟨j,(run_add_of_running h j).symm.trans hend⟩
  · obtain ⟨j,rfl⟩ := Nat.exists_eq_add_of_le hmn
    rw [run_add_of_ended hend] at h
    cases h

theorem fair_of_ends (B : σ → Prop) (h : run body n is s = (s',some r)) : Fair body B is s := by
  refine fun k => ⟨n+k,by omega,fun s'' hs => ?_⟩
  rw [run_add_of_ended h] at hs
  cases hs

/-- The termination rule for loops that wait: no pass makes the measure larger, and a pass from
a state of `B` makes it smaller. -/
theorem run_ends_of_fair {κ : Type*} [Preorder κ] [WellFoundedLT κ] {I : (ℕ → ι) → σ → Prop}
    {B : σ → Prop} (μ : (ℕ → ι) → σ → κ)
    (hgo : ∀ is s s', I is s → body (is 0) s = (s',none) →
      I (later is) s' ∧ μ (later is) s' ≤ μ is s ∧ (B s → μ (later is) s' < μ is s))
    (h₀ : I is s) (hfair : Fair body B is s) : ∃ n s' r, run body n is s = (s',some r) := by
  obtain ⟨x,hx⟩ : ∃ x, μ is s ≤ x := ⟨_,le_rfl⟩
  induction x using WellFoundedLT.induction generalizing is s with
  | ind x ih =>
    obtain ⟨m,-,hB⟩ := hfair 0
    -- the wait for the next state of `B`, after which the measure is below `x`
    induction m generalizing is s with
    | zero =>
      cases hb : body (is 0) s with
      | mk s₁ r₁ =>
        cases r₁ with
        | some r₁ => exact ⟨1,s₁,r₁,run_of_stop hb 0⟩
        | none =>
          obtain ⟨hI,-,hlt⟩ := hgo is s s₁ h₀ hb
          obtain ⟨n,s',r,h⟩ := ih _ ((hlt (hB s rfl)).trans_le hx) hI (hfair.later hb) le_rfl
          exact ⟨n+1,s',r,(run_of_go hb n).trans h⟩
    | succ m ihm =>
      cases hb : body (is 0) s with
      | mk s₁ r₁ =>
        cases r₁ with
        | some r₁ => exact ⟨1,s₁,r₁,run_of_stop hb 0⟩
        | none =>
          obtain ⟨hI,hle,-⟩ := hgo is s s₁ h₀ hb
          obtain ⟨n,s',r,h⟩ := ihm hI (hfair.later hb) (hle.trans hx)
            fun s'' hs => hB s'' ((run_of_go hb m).trans hs)
          exact ⟨n+1,s',r,(run_of_go hb n).trans h⟩

/-- What a loop leaves behind when it ends is told from its steps: `C` holds of every step that
goes on, and of the last one exactly if the result is as it should be. -/
theorem run_exit_iff {I : σ → Prop} {C : ι → σ → Prop} {Q : σ → ρ → Prop}
    (hgo : ∀ i s s', I s → body i s = (s',none) → I s' ∧ C i s)
    (hstop : ∀ i s s' r, I s → body i s = (s',some r) → (Q s' r ↔ C i s))
    (h₀ : I s) (h : run body n is s = (s',some r)) :
    Q s' r ↔ ∀ k < n, ∀ s₁, run body k is s = (s₁,none) → C (is k) s₁ := by
  induction n generalizing is s with
  | zero => cases h
  | succ n ih =>
    cases hb : body (is 0) s with
    | mk s₁ r₁ =>
      cases r₁ with
      | none =>
        obtain ⟨hI,hC⟩ := hgo (is 0) s s₁ h₀ hb
        rw [run_of_go hb] at h
        rw [ih hI h]
        constructor
        · intro hall k hk s₂ hs₂
          cases k with
          | zero =>
            cases hs₂
            exact hC
          | succ k =>
            rw [run_of_go hb] at hs₂
            exact hall k (by omega) s₂ hs₂
        · intro hall k hk s₂ hs₂
          exact hall (k+1) (by omega) s₂ ((run_of_go hb k).trans hs₂)
      | some r₁ =>
        rw [run_of_stop hb] at h
        cases h
        rw [hstop (is 0) s s' r h₀ hb]
        constructor
        · intro hC k _ s₂ hs₂
          cases k with
          | zero =>
            cases hs₂
            exact hC
          | succ k =>
            rw [run_of_stop hb] at hs₂
            cases hs₂
        · exact fun hall => hall 0 (by omega) s rfl

/-- A loop that never leaves a set of states in which it goes on does not end. -/
theorem run_diverges {I : (ℕ → ι) → σ → Prop}
    (hgo : ∀ is s, I is s → ∃ s', body (is 0) s = (s',none) ∧ I (later is) s')
    (h₀ : I is s) (n : ℕ) : (run body n is s).2 = none := by
  induction n generalizing is s with
  | zero => rfl
  | succ n ih =>
    obtain ⟨s₁,hb,hI⟩ := hgo is s h₀
    rw [run_of_go hb]
    exact ih hI

end Loop
end HangfireStorage
