import HangfireStorage.Lease

/-!
# Leases on several clocks

The holders of the leases read clocks of their own. Whatever these clocks show, a lease that is
not given back is over on the clock of some call before the resource is taken again.
-/

namespace HangfireStorage
namespace Lease

open Machine

variable {ρ η τ κ : Type*} [LinearOrder τ] [DecidableEq ρ]

/-- A step of the ledger at the time that its caller reads. -/
def Call (s : ρ → Slot η τ) (c : τ × Event ρ η τ) (s' : ρ → Slot η τ) : Prop :=
  ∃ t, Step ⟨c.1,s⟩ c.2 ⟨t,s'⟩

/-- What a lease leaves behind as long as no caller finds it over. -/
def Standing (h : η) (r : ρ) (e : τ) (s : ρ → Slot η τ) : Prop := s r = .held h e ∨ s r = .retired

variable {s s' : ρ → Slot η τ} {c : τ × Event ρ η τ} {h h' : η} {r : ρ} {t e t' e' : τ}

theorem Call.standing (hc : Call s c s') (hs : Standing h r e s) (hclock : c.1 ≤ e)
    (hne : c.2 ≠ .release h r) : Standing h r e s' := by
  obtain ⟨v,ev⟩ := c
  obtain ⟨u,hstep⟩ := hc
  change Step ⟨v,s⟩ ev ⟨u,s'⟩ at hstep
  have hg : Guarded h r e ⟨u,s'⟩ := hstep.guarded (hs.imp_right .inl) hne
  rcases hg with hheld | hretired | hover
  · exact .inl hheld
  · exact .inr hretired
  · cases hstep with
    | tick => exact hs
    | acquire | release | retire => exact absurd hover hclock.not_gt

theorem Path.standing {cs : List (τ × Event ρ η τ)} (hp : Path Call s cs s') (hs : Standing h r e s)
    (hclock : ∀ c ∈ cs, c.1 ≤ e) (hne : ∀ c ∈ cs, c.2 ≠ .release h r) : Standing h r e s' := by
  induction hp with
  | nil => exact hs
  | cons hc _ ih =>
    exact ih (hc.standing hs (hclock _ (by simp)) (hne _ (by simp)))
      (fun c hc => hclock c (by simp [hc])) fun c hc => hne c (by simp [hc])

/-- Exclusion on several clocks. -/
theorem over_on_some_clock {pre mid post : List (τ × Event ρ η τ)} {u u' : τ}
    (hp : Path Call s (pre ++ (u,.acquire h r t e) :: (mid ++ (u',.acquire h' r t' e') :: post)) s') :
    (∃ c ∈ mid ++ [(u',.acquire h' r t' e')], e < c.1) ∨ ∃ c ∈ mid, c.2 = .release h r := by
  by_contra hnot
  rw [not_or] at hnot
  obtain ⟨hclock,hrel⟩ := hnot
  push Not at hclock hrel
  obtain ⟨s₁,-,hp₁⟩ := hp.split
  cases hp₁ with
  | cons hfirst hrest =>
    obtain ⟨s₃,hmid,hlast⟩ := hrest.split
    obtain ⟨v,hfirst⟩ := hfirst
    change Step ⟨u,s₁⟩ (.acquire h r t e) _ at hfirst
    cases hfirst with
    | acquire _ =>
      have hs : Standing h r e s₃ := Path.standing hmid (.inl (by simp))
        (fun c hc => hclock c (List.mem_append_left _ hc)) hrel
      cases hlast with
      | cons hsecond _ =>
        obtain ⟨w,hsecond⟩ := hsecond
        change Step ⟨u',s₃⟩ (.acquire h' r t' e') _ at hsecond
        cases hsecond with
        | acquire ha =>
          have hover : e < u' := Guarded.expired (l := ⟨u',s₃⟩) (hs.imp_right .inl) ha
          have hle : u' ≤ e := hclock (u',_) (List.mem_append_right _ (List.mem_singleton_self _))
          exact absurd hover hle.not_gt

theorem over_on_some_clock_of_trace {view : κ → Option (τ × Event ρ η τ)} {pre mid post : List κ}
    {x x' : κ} {u u' : τ}
    (hp : Path Call s ((pre ++ x :: (mid ++ x' :: post)).filterMap view) s')
    (hx : view x = some (u,.acquire h r t e)) (hx' : view x' = some (u',.acquire h' r t' e')) :
    (∃ y ∈ mid ++ [x'], ∃ c, view y = some c ∧ e < c.1) ∨
      ∃ y ∈ mid, ∃ v, view y = some (v,.release h r) := by
  simp only [List.filterMap_append,List.filterMap_cons,hx,hx'] at hp
  refine (over_on_some_clock hp).imp ?_ ?_
  · rintro ⟨c,hc,hover⟩
    obtain hc | hc := List.mem_append.mp hc
    · obtain ⟨y,hy,hyc⟩ := List.mem_filterMap.mp hc
      exact ⟨y,List.mem_append_left _ hy,c,hyc,hover⟩
    · obtain rfl := List.mem_singleton.mp hc
      exact ⟨x',by simp,_,hx',hover⟩
  · rintro ⟨c,hc,hrel⟩
    obtain ⟨y,hy,hyc⟩ := List.mem_filterMap.mp hc
    exact ⟨y,hy,c.1,by rw [hyc,← hrel]⟩

end Lease
end HangfireStorage
