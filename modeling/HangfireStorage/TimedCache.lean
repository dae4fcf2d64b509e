import HangfireStorage.Machine
import Mathlib.Data.List.Induction
import Mathlib.Data.Int.Notation

/-!
# A cache with a time to live

A value read from a changing state is kept with the time at which it was stored. A lookup reads
anew if the value is blank or its time is over. Whatever a lookup returns has been read from a
recent state.
-/

namespace HangfireStorage
namespace TimedCache

open Machine

/-- How a state is read, how time passes on it, and until when a value is kept. The type `γ` is
for choices that a reading leaves open. -/
structure Policy (σ β γ φ : Type*) where
  now : σ → ℤ
  wait : σ → ℕ → σ
  now_wait : ∀ s n, now (wait s n) = now s + n
  fetch : γ → σ → β
  blank : β → Bool
  deadline : ℤ → Except φ ℤ
  timeout : ℤ
  deadline_eq : ∀ u d, deadline u = .ok d → d = u + timeout

structure CacheState (σ β : Type*) where
  state : σ
  value : β
  updated : ℤ

variable {σ α ε β γ φ : Type*}

/-- An action on the state, or a lookup, which takes some time if it reads. -/
inductive Action (α γ : Type*)
  | env (a : α)
  | lookup (choice : γ) (elapsed : ℕ)

inductive Event (ε β φ : Type*)
  | env (e : ε)
  | found (value : β)
  | failed (f : φ)
  deriving DecidableEq

section Steps

variable (p : Policy σ β γ φ) (envStep : σ → α → σ × ε)

def refresh (choice : γ) (elapsed : ℕ) (c : CacheState σ β) : CacheState σ β × Event ε β φ :=
  let value := p.fetch choice c.state
  (⟨p.wait c.state elapsed,value,p.now (p.wait c.state elapsed)⟩,.found value)

def lookup (choice : γ) (elapsed : ℕ) (c : CacheState σ β) : CacheState σ β × Event ε β φ :=
  if p.blank c.value then refresh p choice elapsed c
  else match p.deadline c.updated with
    | .error f => (c,.failed f)
    | .ok deadline =>
      if deadline < p.now c.state then refresh p choice elapsed c else (c,.found c.value)

def step (c : CacheState σ β) : Action α γ → CacheState σ β × Event ε β φ
  | .env a => ({ c with state := (envStep c.state a).1 },.env (envStep c.state a).2)
  | .lookup choice elapsed => lookup p choice elapsed c

end Steps

variable {p : Policy σ β γ φ} {envStep : σ → α → σ × ε} {c : CacheState σ β}

/-- The cache is blank, or was filled by a lookup of the run. -/
def FilledBy (p : Policy σ β γ φ) (envStep : σ → α → σ × ε) (c : CacheState σ β)
    (as : List (Action α γ)) (value : β) (updated : ℤ) : Prop :=
  p.blank value = true ∨ ∃ before choice, ∃ elapsed : ℕ, before ++ [.lookup choice elapsed] <+: as ∧
    value = p.fetch choice (exec (step p envStep) c before).state ∧
    updated = p.now (exec (step p envStep) c before).state + elapsed

theorem FilledBy.append {as : List (Action α γ)} {value : β} {updated : ℤ}
    (h : FilledBy p envStep c as value updated) (a : Action α γ) :
    FilledBy p envStep c (as ++ [a]) value updated :=
  h.imp_right fun ⟨before,choice,elapsed,hpre,hvalue,hupdated⟩ =>
    ⟨before,choice,elapsed,hpre.trans (List.prefix_append as [a]),hvalue,hupdated⟩

theorem lookup_cases (p : Policy σ β γ φ) (choice : γ) (elapsed : ℕ) (c : CacheState σ β) :
    (lookup p choice elapsed c : CacheState σ β × Event ε β φ) = refresh p choice elapsed c ∨
    (∃ f, lookup p choice elapsed c = ((c,.failed f) : CacheState σ β × Event ε β φ)) ∨
    (lookup p choice elapsed c = ((c,.found c.value) : CacheState σ β × Event ε β φ) ∧
      p.blank c.value = false ∧ p.now c.state ≤ c.updated + p.timeout) := by
  unfold lookup
  by_cases hb : p.blank c.value
  · exact .inl (if_pos hb)
  · rw [if_neg hb]
    cases hd : p.deadline c.updated with
    | error f => exact .inr (.inl ⟨f,rfl⟩)
    | ok deadline =>
      simp only
      split_ifs with hlt
      · exact .inl rfl
      · rw [p.deadline_eq _ _ hd] at hlt
        exact .inr (.inr ⟨rfl,by simpa using hb,Int.not_lt.mp hlt⟩)

theorem filledBy_exec (hc : p.blank c.value = true) (as : List (Action α γ)) :
    FilledBy p envStep c as (exec (step p envStep) c as).value
      (exec (step p envStep) c as).updated := by
  induction as using List.reverseRecOn with
  | nil => exact .inl hc
  | append_singleton as a ih =>
    rw [exec_append]
    simp only [exec_cons,exec_nil]
    cases a with
    | env a => exact ih.append _
    | lookup choice elapsed =>
      simp only [step]
      rcases lookup_cases p choice elapsed (exec (step p envStep) c as) with h | ⟨f,h⟩ | ⟨h,-,-⟩
      · rw [h]
        exact .inr ⟨as,choice,elapsed,List.prefix_refl _,rfl,p.now_wait _ _⟩
      · rw [h]
        exact ih.append _
      · rw [h]
        exact ih.append _

/-- What a lookup finds has just been read, or is not blank and was read by an earlier lookup, no
longer ago than the time to live and the time that lookup took. -/
theorem lookup_recent (hc : p.blank c.value = true) (as : List (Action α γ)) {choice : γ}
    {elapsed : ℕ} {value : β}
    (h : (lookup p choice elapsed (exec (step p envStep) c as)).2 = (.found value : Event ε β φ)) :
    value = p.fetch choice (exec (step p envStep) c as).state ∨
    (p.blank value = false ∧ ∃ before choice', ∃ elapsed' : ℕ,
      before ++ [.lookup choice' elapsed'] <+: as ∧
      value = p.fetch choice' (exec (step p envStep) c before).state ∧
      p.now (exec (step p envStep) c as).state ≤
        p.now (exec (step p envStep) c before).state + elapsed' + p.timeout) := by
  rcases lookup_cases p choice elapsed (exec (step p envStep) c as) with hl | ⟨f,hl⟩ | ⟨hl,hb,hle⟩
  · rw [hl,refresh,Event.found.injEq] at h
    exact .inl h.symm
  · rw [hl] at h
    cases h
  · rw [hl,Event.found.injEq] at h
    subst h
    have hfilled : FilledBy p envStep c as _ _ := filledBy_exec hc as
    rcases hfilled with hblank | ⟨before,choice',elapsed',hpre,hval,hupd⟩
    · rw [hblank] at hb
      cases hb
    · exact .inr ⟨hb,before,choice',elapsed',hpre,hval,by rw [← hupd]; exact hle⟩

end TimedCache
end HangfireStorage
