import HangfireStorage.Machine
import Mathlib.Data.List.Induction

/-!
# Lifespans

Something that some actions start, that others change, and that ends at the first action that
does not spare it. What there is after a run was started at the last start and was spared since.
-/

namespace HangfireStorage
namespace Lifespan

open Machine

variable {σ α ε : Type*} (start : α → Option σ) (step : σ → α → σ × ε) (Spares : σ → α → Prop)
  [∀ s a, Decidable (Spares s a)]

def next (s? : Option σ) (a : α) : Option σ :=
  match start a with
  | some s => some s
  | none => s?.bind fun s => if Spares s a then some (step s a).1 else none

/-- What there is after a run, if there is nothing before it. -/
def current (as : List α) : Option σ := as.foldl (next start step Spares) none

/-- The action starts nothing anew and spares what there is. -/
def Continues (s : σ) (a : α) : Prop := start a = none ∧ Spares s a

variable {start step Spares} {s : σ} {as : List α} {a : α}

theorem current_append (as : List α) (a : α) :
    current start step Spares (as ++ [a]) = next start step Spares (current start step Spares as) a := by
  simp [current]

theorem next_eq_some {s? : Option σ} (ha : start a = none) :
    next start step Spares s? a = some s ↔
      ∃ s₀, s? = some s₀ ∧ Spares s₀ a ∧ (step s₀ a).1 = s := by
  cases s? with
  | none => simp [next,ha]
  | some s₀ => by_cases hs : Spares s₀ a <;> simp [next,ha,hs]

theorem append_singleton_eq_iff {before after : List α} {b : α} : as ++ [b] = before ++ a::after ↔
    (after = [] ∧ before = as ∧ a = b) ∨ ∃ after', after = after' ++ [b] ∧ as = before ++ a::after' := by
  constructor
  · intro h
    rcases List.eq_nil_or_concat after with rfl | ⟨after',c,rfl⟩
    · obtain ⟨has,hab⟩ := List.append_inj' h rfl
      exact .inl ⟨rfl,has.symm,(List.cons.inj hab).1.symm⟩
    · rw [List.concat_eq_append] at h ⊢
      rw [← List.cons_append,← List.append_assoc] at h
      obtain ⟨has,hbc⟩ := List.append_inj' h rfl
      exact .inr ⟨after',by rw [(List.cons.inj hbc).1],has⟩
  · rintro (⟨rfl,rfl,rfl⟩ | ⟨after',rfl,rfl⟩)
    · rfl
    · simp

theorem current_eq_some : current start step Spares as = some s ↔
    ∃ before a after s₀, as = before ++ a::after ∧ start a = some s₀ ∧
      Along step (Continues start Spares) s₀ after ∧ exec step s₀ after = s := by
  induction as using List.reverseRecOn generalizing s with
  | nil => simp [current]
  | append_singleton as b ih =>
    rw [current_append]
    simp only [append_singleton_eq_iff]
    cases hb : start b with
    | some s₁ =>
      have hnext : next start step Spares (current start step Spares as) b = some s₁ := by
        simp [next,hb]
      rw [hnext,Option.some.injEq]
      constructor
      · rintro rfl
        exact ⟨as,b,[],s₁,.inl ⟨rfl,rfl,rfl⟩,hb,trivial,rfl⟩
      · rintro ⟨before,a,after,s₀,⟨rfl,-,rfl⟩ | ⟨after,rfl,-⟩,ha,halong,rfl⟩
        · rw [hb] at ha
          exact Option.some.inj ha
        · have hlast := ((along_append after [b]).mp halong).2.1.1
          rw [hb] at hlast
          cases hlast
    | none =>
      rw [next_eq_some hb]
      constructor
      · rintro ⟨s₁,hcur,hspare,rfl⟩
        obtain ⟨before,a,after,s₀,rfl,ha,halong,rfl⟩ := ih.mp hcur
        refine ⟨before,a,after ++ [b],s₀,.inr ⟨after,rfl,rfl⟩,ha,?_,?_⟩
        · exact (along_append after [b]).mpr ⟨halong,⟨hb,hspare⟩,trivial⟩
        · simp [exec_append]
      · rintro ⟨before,a,after,s₀,⟨-,-,rfl⟩ | ⟨after,rfl,has⟩,ha,halong,rfl⟩
        · rw [hb] at ha
          cases ha
        · obtain ⟨halong,hlast,-⟩ := (along_append after [b]).mp halong
          refine ⟨exec step s₀ after,ih.mpr ⟨before,a,after,s₀,has,ha,halong,rfl⟩,hlast.2,?_⟩
          simp [exec_append]

section Constant

theorem exec_constant (hstep : ∀ s a, (step s a).1 = s) (as : List α) : exec step s as = s := by
  induction as with
  | nil => rfl
  | cons a as ih => rw [exec_cons,hstep,ih]

theorem along_constant {C : σ → α → Prop} (hstep : ∀ s a, (step s a).1 = s) :
    Along step C s as ↔ ∀ a ∈ as, C s a := by
  induction as with
  | nil => simp [Along]
  | cons a as ih => simp [Along,hstep,ih]

theorem current_constant (hstep : ∀ s a, (step s a).1 = s) : current start step Spares as = some s ↔
    ∃ before a after, as = before ++ a::after ∧ start a = some s ∧
      ∀ b ∈ after, start b = none ∧ Spares s b := by
  rw [current_eq_some]
  simp only [along_constant hstep,exec_constant hstep]
  constructor
  · rintro ⟨before,a,after,s₀,rfl,ha,hafter,rfl⟩
    exact ⟨before,a,after,rfl,ha,hafter⟩
  · rintro ⟨before,a,after,rfl,ha,hafter⟩
    exact ⟨before,a,after,s,rfl,ha,hafter,rfl⟩

theorem current_keep (hstep : ∀ s a, (step s a).1 = s) (ha : start a = none) (hk : ∀ s, Spares s a) :
    current start step Spares (as ++ [a]) = current start step Spares as := by
  rw [current_append,next,ha]
  cases current start step Spares as with
  | none => rfl
  | some s => simp [hk s,hstep]

theorem current_start (ha : start a = some s) : current start step Spares (as ++ [a]) = some s := by
  rw [current_append,next,ha]

theorem current_end (ha : start a = none) (hk : ∀ s, ¬ Spares s a) :
    current start step Spares (as ++ [a]) = none := by
  rw [current_append,next,ha]
  cases current start step Spares as with
  | none => rfl
  | some s => simp [hk s]

end Constant

section Comparison

variable {σ' α' ε' β : Type*} {start' : α' → Option σ'} {step' : σ' → α' → σ' × ε'}
  {Spares' : σ' → α' → Prop} [∀ s a, Decidable (Spares' s a)] {f : β → α} {g : β → α'}
  {R : σ → σ' → Prop}

/-- If what starts or spares the one also starts or spares a related other, the one does not
outlive the other. -/
theorem current_imp {bs : List β}
    (hstart : ∀ b ∈ bs, ∀ s, start (f b) = some s → ∃ s', start' (g b) = some s' ∧ R s s')
    (hnone : ∀ b ∈ bs, start (f b) = none → start' (g b) = none)
    (hspare : ∀ b ∈ bs, ∀ s s', R s s' → Spares s (f b) →
      Spares' s' (g b) ∧ R (step s (f b)).1 (step' s' (g b)).1)
    (h : current start step Spares (bs.map f) = some s) :
    ∃ s', current start' step' Spares' (bs.map g) = some s' ∧ R s s' := by
  induction bs using List.reverseRecOn generalizing s with
  | nil => simp [current] at h
  | append_singleton bs b ih =>
    rw [List.map_append,List.map_singleton,current_append] at h ⊢
    have hb : b ∈ bs ++ [b] := by simp
    cases hs : start (f b) with
    | some s₁ =>
      obtain ⟨s',hs',hR⟩ := hstart b hb s₁ hs
      rw [next,hs] at h
      obtain rfl := Option.some.inj h
      exact ⟨s',by rw [next,hs'],hR⟩
    | none =>
      obtain ⟨s₀,hcur,hspared,rfl⟩ := (next_eq_some hs).mp h
      obtain ⟨s₀',hcur',hR⟩ := ih (fun c hc => hstart c (by simp [hc])) (fun c hc => hnone c (by simp [hc]))
        (fun c hc => hspare c (by simp [hc])) hcur
      obtain ⟨hspared',hR'⟩ := hspare b hb s₀ s₀' hR hspared
      exact ⟨_,(next_eq_some (hnone b hb hs)).mpr ⟨s₀',hcur',hspared',rfl⟩,hR'⟩

end Comparison

end Lifespan
end HangfireStorage
