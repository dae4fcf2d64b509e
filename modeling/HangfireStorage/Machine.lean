import Mathlib.Data.List.Basic

/-!
# Runs of a machine with visible events

Every action carries the choices that are not the machine's own, so a step is a
function. Events are what an observer of the run is shown.
-/

namespace HangfireStorage
namespace Machine

variable {σ α ε : Type*}

def exec (step : σ → α → σ × ε) (s : σ) : List α → σ
  | [] => s
  | a::as => exec step (step s a).1 as

def trace (step : σ → α → σ × ε) (s : σ) : List α → List ε
  | [] => []
  | a::as => (step s a).2 :: trace step (step s a).1 as

/-- Every action of the run meets `C` in the state it is taken in. -/
def Along (step : σ → α → σ × ε) (C : σ → α → Prop) (s : σ) : List α → Prop
  | [] => True
  | a::as => C s a ∧ Along step C (step s a).1 as

instance Along.decidable (step : σ → α → σ × ε) (C : σ → α → Prop) [∀ s a, Decidable (C s a)]
    (s : σ) : (as : List α) → Decidable (Along step C s as)
  | [] => .isTrue trivial
  | a::as =>
    let _ := Along.decidable step C (step s a).1 as
    inferInstanceAs (Decidable (C s a ∧ Along step C (step s a).1 as))

variable {step : σ → α → σ × ε} {C : σ → α → Prop} {s : σ}

@[simp] theorem exec_nil : exec step s [] = s := rfl
@[simp] theorem exec_cons (a : α) (as : List α) :
    exec step s (a::as) = exec step (step s a).1 as := rfl
@[simp] theorem trace_nil : trace step s [] = [] := rfl
@[simp] theorem trace_cons (a : α) (as : List α) :
    trace step s (a::as) = (step s a).2 :: trace step (step s a).1 as := rfl

theorem exec_append (as bs : List α) :
    exec step s (as ++ bs) = exec step (exec step s as) bs := by
  induction as generalizing s with
  | nil => rfl
  | cons a as ih => exact ih

@[simp] theorem length_trace (as : List α) : (trace step s as).length = as.length := by
  induction as generalizing s with
  | nil => rfl
  | cons a as ih => simp [ih]

theorem trace_append (as bs : List α) :
    trace step s (as ++ bs) = trace step s as ++ trace step (exec step s as) bs := by
  induction as generalizing s with
  | nil => rfl
  | cons a as ih => simp [ih]

theorem along_append (as bs : List α) :
    Along step C s (as ++ bs) ↔ Along step C s as ∧ Along step C (exec step s as) bs := by
  induction as generalizing s with
  | nil => simp [Along]
  | cons a as ih => simp [Along,ih,and_assoc]

theorem Along.and {D : σ → α → Prop} {as : List α} (h : Along step C s as)
    (h' : Along step D s as) : Along step (fun s a => C s a ∧ D s a) s as := by
  induction as generalizing s with
  | nil => trivial
  | cons a as ih => exact ⟨⟨h.1,h'.1⟩,ih h.2 h'.2⟩

theorem along_of_forall {as : List α} (h : ∀ a ∈ as, ∀ s, C s a) : Along step C s as := by
  induction as generalizing s with
  | nil => trivial
  | cons a as ih => exact ⟨h a (by simp) s,ih fun b hb => h b (by simp [hb])⟩

/-- The invariant rule: what every admitted step preserves holds after the run. -/
theorem exec_invariant {I : σ → Prop} (hstep : ∀ s a, I s → C s a → I (step s a).1)
    {as : List α} (hC : Along step C s as) (h₀ : I s) : I (exec step s as) := by
  induction as generalizing s with
  | nil => exact h₀
  | cons a as ih => exact ih hC.2 (hstep s a h₀ hC.1)

/-- The invariant rule for runs that record what has been shown so far. -/
theorem exec_trace_invariant {I : σ → List ε → Prop}
    (hstep : ∀ s a es, I s es → C s a → I (step s a).1 (es ++ [(step s a).2]))
    {as : List α} (hC : Along step C s as) {es : List ε} (h₀ : I s es) :
    I (exec step s as) (es ++ trace step s as) := by
  induction as generalizing s es with
  | nil => simpa using h₀
  | cons a as ih => simpa using ih hC.2 (hstep s a es h₀ hC.1)

/-- A finite path of a labelled relation. -/
inductive Path {κ ι : Type*} (R : κ → ι → κ → Prop) : κ → List ι → κ → Prop
  | nil (k : κ) : Path R k [] k
  | cons {k k' k'' : κ} {i : ι} {is : List ι} :
      R k i k' → Path R k' is k'' → Path R k (i::is) k''

variable {κ ι : Type*} {R : κ → ι → κ → Prop}

theorem Path.split {k k' : κ} {is js : List ι} (h : Path R k (is ++ js) k') :
    ∃ m, Path R k is m ∧ Path R m js k' := by
  induction is generalizing k with
  | nil => exact ⟨k,.nil k,h⟩
  | cons i is ih =>
    cases h with
    | cons hi ht =>
      obtain ⟨m,h₁,h₂⟩ := ih ht
      exact ⟨m,.cons hi h₁,h₂⟩

/-- A step of `R`, or a stutter where there is no event. -/
def Stutter (R : κ → ι → κ → Prop) (k : κ) (i : Option ι) (k' : κ) : Prop :=
  match i with
  | none => k' = k
  | some i => R k i k'

@[simp] theorem stutter_none {k k' : κ} : Stutter R k none k' ↔ k' = k := Iff.rfl
@[simp] theorem stutter_some {k k' : κ} {i : ι} : Stutter R k (some i) k' ↔ R k i k' := Iff.rfl

/-- Forward simulation. Steps whose event has no abstract counterpart must stutter. -/
theorem simulate {I : σ → Prop} (abs : σ → κ) (view : ε → Option ι)
    (hinv : ∀ s a, I s → C s a → I (step s a).1)
    (hsim : ∀ s a, I s → C s a → Stutter R (abs s) (view (step s a).2) (abs (step s a).1))
    {as : List α} (hC : Along step C s as) (h₀ : I s) :
    Path R (abs s) ((trace step s as).filterMap view) (abs (exec step s as)) := by
  induction as generalizing s with
  | nil => exact .nil _
  | cons a as ih =>
    have ht := ih hC.2 (hinv s a h₀ hC.1)
    have hs := hsim s a h₀ hC.1
    cases hv : view (step s a).2 with
    | none =>
      rw [hv] at hs
      simpa [List.filterMap_cons,hv,show abs (step s a).1 = abs s from hs] using ht
    | some i =>
      rw [hv] at hs
      have hR : R (abs s) i (abs (step s a).1) := hs
      simpa [List.filterMap_cons,hv] using Path.cons hR ht

end Machine
end HangfireStorage
