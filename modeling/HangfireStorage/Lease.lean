import HangfireStorage.Machine
import Mathlib.Data.List.Induction
import Mathlib.Order.Lattice
import Mathlib.Logic.Function.Basic

/-!
# Timed leases

A ledger of who holds which resource and until when, over any linear order of
time. A lease may be taken once the previous one has run out, and while it
runs only its holder may give it back.
-/

namespace HangfireStorage
namespace Lease

open Machine

/-- A `retired` resource is gone for good. -/
inductive Slot (η τ : Type*)
  | free | held (holder : η) (expiry : τ) | retired

inductive Event (ρ η τ : Type*)
  | tick (t : τ)
  | acquire (h : η) (r : ρ) (t e : τ)
  | release (h : η) (r : ρ)
  | retire (p : ρ → Bool)

structure Ledger (ρ η τ : Type*) where
  now : τ
  slot : ρ → Slot η τ

variable {ρ η τ : Type*} [LinearOrder τ]

def Slot.Available (t : τ) : Slot η τ → Prop
  | .free => True
  | .held _ e => e < t
  | .retired => False

def Slot.ReleasableBy (h : η) (t : τ) : Slot η τ → Prop
  | .held h' e => h' = h ∨ e < t
  | _ => True

def Slot.released : Slot η τ → Slot η τ
  | .retired => .retired
  | _ => .free

variable [DecidableEq ρ]

inductive Step : Ledger ρ η τ → Event ρ η τ → Ledger ρ η τ → Prop
  | tick {l : Ledger ρ η τ} {t : τ} : l.now ≤ t → Step l (.tick t) ⟨t,l.slot⟩
  | acquire {l : Ledger ρ η τ} {h : η} {r : ρ} {e : τ} : (l.slot r).Available l.now →
      Step l (.acquire h r l.now e) ⟨l.now,Function.update l.slot r (.held h e)⟩
  | release {l : Ledger ρ η τ} {h : η} {r : ρ} : (l.slot r).ReleasableBy h l.now →
      Step l (.release h r) ⟨l.now,Function.update l.slot r (l.slot r).released⟩
  | retire {l : Ledger ρ η τ} {p : ρ → Bool} :
      Step l (.retire p) ⟨l.now,fun r => if p r then .retired else l.slot r⟩

/-- What an acquisition of `r` by `h` until `e` leaves behind until `h` releases it. -/
def Guarded (h : η) (r : ρ) (e : τ) (l : Ledger ρ η τ) : Prop :=
  l.slot r = .held h e ∨ l.slot r = .retired ∨ e < l.now

omit [DecidableEq ρ] in
theorem Guarded.expired {h : η} {r : ρ} {e : τ} {l : Ledger ρ η τ} (hg : Guarded h r e l)
    (ha : (l.slot r).Available l.now) : e < l.now := by
  rcases hg with hs | hs | hs
  · simpa [hs,Slot.Available] using ha
  · simp [hs,Slot.Available] at ha
  · exact hs

theorem Step.guarded {h : η} {r : ρ} {e : τ} {l l' : Ledger ρ η τ} {ev : Event ρ η τ}
    (hst : Step l ev l') (hg : Guarded h r e l) (hne : ev ≠ .release h r) :
    Guarded h r e l' := by
  cases hst with
  | tick hle => exact hg.imp_right (Or.imp_right fun hlt => hlt.trans_le hle)
  | @acquire h₂ r₂ e₂ ha =>
    by_cases hr : r₂ = r
    · subst hr
      exact .inr (.inr (hg.expired ha))
    · simpa [Guarded,Function.update_of_ne (Ne.symm hr)] using hg
  | @release h₂ r₂ hh =>
    by_cases hr : r₂ = r
    · subst hr
      rcases hg with hs | hs | hs
      · rw [hs] at hh
        rcases hh with he | he
        · exact absurd (by rw [he]) hne
        · exact .inr (.inr he)
      · exact .inr (.inl (by simp [hs,Slot.released]))
      · exact .inr (.inr hs)
    · simpa [Guarded,Function.update_of_ne (Ne.symm hr)] using hg
  | @retire p =>
    by_cases hp : p r = true
    · exact .inr (.inl (by simp [hp]))
    · simpa [Guarded,hp] using hg

theorem Path.guarded {h : η} {r : ρ} {e : τ} {l l' : Ledger ρ η τ} {evs : List (Event ρ η τ)}
    (hp : Path Step l evs l') (hg : Guarded h r e l) (hne : .release h r ∉ evs) :
    Guarded h r e l' := by
  induction hp with
  | nil => exact hg
  | cons hst _ ih =>
    simp only [List.mem_cons,not_or] at hne
    exact ih (hst.guarded hg (Ne.symm hne.1)) hne.2

/-- Exclusion. Between two acquisitions of one resource the first lease has run
out or its own holder has given it back. -/
theorem exclusive {l l' : Ledger ρ η τ} {pre mid post : List (Event ρ η τ)} {h h' : η} {r : ρ}
    {t e t' e' : τ}
    (hp : Path Step l (pre ++ .acquire h r t e :: (mid ++ .acquire h' r t' e' :: post)) l') :
    e < t' ∨ .release h r ∈ mid := by
  by_cases hrel : .release h r ∈ mid
  · exact .inr hrel
  left
  obtain ⟨l₁,-,hp₁⟩ := hp.split
  cases hp₁ with
  | cons hfirst hrest =>
    obtain ⟨l₃,hmid,hlast⟩ := hrest.split
    cases hfirst with
    | acquire _ =>
      have hg := Path.guarded hmid (h := h) (r := r) (e := e) (.inl (by simp)) hrel
      cases hlast with
      | cons hsecond _ =>
        cases hsecond with
        | acquire ha => exact hg.expired ha

/-- Where holders are numbered, the number of the one that took `r` last. -/
def lastIndexOf (r : ρ) (l : List ρ) : Option ℕ :=
  (l.zipIdx.filter fun i => i.1 = r).getLast?.map Prod.snd

theorem lastIndexOf_append (r a : ρ) (l : List ρ) :
    lastIndexOf r (l ++ [a]) = if a = r then some l.length else lastIndexOf r l := by
  by_cases h : a = r <;> simp [lastIndexOf,List.zipIdx_append,h]

theorem lastIndexOf_eq_some {r : ρ} {l : List ρ} {i : ℕ} (hi : l[i]? = some r)
    (hl : r ∉ l.drop (i+1)) : lastIndexOf r l = some i := by
  induction l using List.reverseRecOn with
  | nil => simp at hi
  | append_singleton l a ih =>
    rw [lastIndexOf_append]
    rcases Nat.lt_or_ge i l.length with hlt | hge
    · rw [List.getElem?_append_left hlt] at hi
      rw [List.drop_append_of_le_length (by omega),List.mem_append,not_or] at hl
      rw [if_neg (by simpa [eq_comm] using hl.2),ih hi hl.1]
    · have hlen := (List.getElem?_eq_some_iff.mp hi).1
      simp only [List.length_append,List.length_singleton] at hlen
      obtain rfl : i = l.length := by omega
      simp only [List.getElem?_concat_length,Option.some.injEq] at hi
      rw [if_pos hi]

/-- Whoever took `r` at all, someone took it last. -/
theorem lastIndexOf_of_getElem? {r : ρ} {l : List ρ} {i : ℕ} (hi : l[i]? = some r) :
    ∃ j, lastIndexOf r l = some j ∧ i ≤ j := by
  induction l using List.reverseRecOn with
  | nil => simp at hi
  | append_singleton l a ih =>
    have hlen := (List.getElem?_eq_some_iff.mp hi).1
    simp only [List.length_append,List.length_singleton] at hlen
    rw [lastIndexOf_append]
    split_ifs with ha
    · exact ⟨l.length,rfl,by omega⟩
    · rcases Nat.lt_or_ge i l.length with hlt | hge
      · exact ih (by rwa [List.getElem?_append_left hlt] at hi)
      · obtain rfl : i = l.length := by omega
        simp only [List.getElem?_concat_length,Option.some.injEq] at hi
        exact absurd hi ha

theorem getElem?_of_lastIndexOf {r : ρ} {l : List ρ} {j : ℕ} (h : lastIndexOf r l = some j) :
    l[j]? = some r := by
  obtain ⟨⟨a,k⟩,ha,rfl⟩ := Option.map_eq_some_iff.mp h
  have hm := List.mem_of_getLast? ha
  simp only [List.mem_filter,decide_eq_true_eq,List.mem_zipIdx_iff_getElem?] at hm
  rw [hm.1,hm.2]

end Lease
end HangfireStorage
