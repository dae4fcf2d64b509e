import HangfireStorage.Machine
import Mathlib.Logic.Function.Basic

/-!
# Processes that share a machine

Each process has a state of its own and works on the machine, among the others and among clients
that take steps of the machine.
-/

namespace HangfireStorage
namespace Machine

structure Pool (ι π σ : Type*) where
  shared : σ
  own : ι → π

inductive PoolAction (ι κ α : Type*)
  | client (a : α)
  | process (i : ι) (k : κ)

section Steps

variable {ι π κ ο σ α ε : Type*} [DecidableEq ι] (step : σ → α → σ × ε)
  (proc : κ → σ → π → (σ × π) × ο)

def poolStep (p : Pool ι π σ) : PoolAction ι κ α → Pool ι π σ × (ε ⊕ ι × ο)
  | .client a => ({ p with shared := (step p.shared a).1 },.inl (step p.shared a).2)
  | .process i k => (⟨(proc k p.shared (p.own i)).1.1,
      Function.update p.own i (proc k p.shared (p.own i)).1.2⟩,.inr (i,(proc k p.shared (p.own i)).2))

end Steps

section Invariants

variable {ι π σ : Type*} [DecidableEq ι]

/-- What each process relies on, and what keeps two of them apart. -/
structure Peaceful (I : σ → π → Prop) (D : π → π → Prop) (p : Pool ι π σ) : Prop where
  own : ∀ i, I p.shared (p.own i)
  apart : ∀ i j, i ≠ j → D (p.own i) (p.own j)

variable {I : σ → π → Prop} {D : π → π → Prop} {p : Pool ι π σ} {s : σ}

omit [DecidableEq ι] in
theorem Peaceful.client (h : Peaceful I D p) (hI : ∀ i, I p.shared (p.own i) → I s (p.own i)) :
    Peaceful I D { p with shared := s } :=
  ⟨fun i => hI i (h.own i),h.apart⟩

/-- A process that works keeps what the others rely on. -/
theorem Peaceful.process (h : Peaceful I D p) (hsymm : ∀ x y, D x y → D y x) {i : ι} {x : π}
    (hown : I s x) (hothers : ∀ y, I p.shared y → D (p.own i) y → I s y ∧ D x y) :
    Peaceful I D ⟨s,Function.update p.own i x⟩ := by
  constructor
  · intro j
    by_cases hj : j = i
    · subst hj
      simpa using hown
    · simpa [Function.update_of_ne hj] using (hothers _ (h.own j) (h.apart i j (Ne.symm hj))).1
  · intro j k hjk
    by_cases hj : j = i
    · subst hj
      simpa [Function.update_of_ne (Ne.symm hjk)] using (hothers _ (h.own k) (h.apart j k hjk)).2
    · by_cases hk : k = i
      · subst hk
        simpa [Function.update_of_ne hj] using
          hsymm _ _ (hothers _ (h.own j) (h.apart k j (Ne.symm hj))).2
      · simpa [Function.update_of_ne hj,Function.update_of_ne hk] using h.apart j k hjk

end Invariants

/-- A machine whose steps are runs of another one has only such runs, and these show what `view`
shows of it. -/
theorem exec_refines {σ τ α β ε φ : Type*} {step : σ → α → σ × ε} {step' : τ → β → τ × φ}
    {C : τ → β → Prop} {J : τ → Prop} (abs : τ → σ) (view : φ → Option ε)
    (hinv : ∀ t b, J t → C t b → J (step' t b).1)
    (hstep : ∀ t b, J t → C t b → ∃ as, abs (step' t b).1 = exec step (abs t) as ∧
      (view (step' t b).2).toList.Sublist (trace step (abs t) as))
    {t : τ} {bs : List β} (hC : Along step' C t bs) (h₀ : J t) :
    ∃ as, abs (exec step' t bs) = exec step (abs t) as ∧
      ((trace step' t bs).filterMap view).Sublist (trace step (abs t) as) := by
  induction bs generalizing t with
  | nil => exact ⟨[],rfl,.slnil⟩
  | cons b bs ih =>
    obtain ⟨as,has,hshown⟩ := hstep t b h₀ hC.1
    obtain ⟨as',has',hshown'⟩ := ih hC.2 (hinv t b h₀ hC.1)
    refine ⟨as ++ as',by rw [exec_append,← has,exec_cons,has'],?_⟩
    rw [trace_append,← has,trace_cons]
    have hsplit : ((step' t b).2::trace step' (step' t b).1 bs).filterMap view =
        (view (step' t b).2).toList ++ (trace step' (step' t b).1 bs).filterMap view := by
      cases hv : view (step' t b).2 <;> simp [hv]
    rw [hsplit]
    exact hshown.append hshown'

end Machine
end HangfireStorage
