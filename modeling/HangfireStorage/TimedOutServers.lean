import HangfireStorage.ServerClocks
import HangfireStorage.ServerRuns

/-!
# Timed out servers under clocks of their own

A server sends heartbeats by its own clock and is swept by the clocks of the others. Against the
clock of the database a sweep is early or late by at most twice the error of the clocks.
-/

namespace HangfireStorage
namespace ServerClocks

open Lifespan Machine Servers

inductive ServerCall
  | announceServer (serverId : String) (context : ServerContext)
  | removeServer (serverId : String)
  | heartbeat (serverId : String)
  | removeTimedOutServers (timeOut : ℤ)
  deriving DecidableEq

/-- The call, given what the caller takes for the time. -/
def ServerCall.action (utcNow : ℤ) : ServerCall → Servers.Action
  | .announceServer serverId context => .announceServer serverId context utcNow utcNow
  | .removeServer serverId => .removeServer serverId
  | .heartbeat serverId => .heartbeat serverId utcNow
  | .removeTimedOutServers timeOut => .removeTimedOutServers timeOut utcNow

structure ObservedCall where
  now : ℤ
  utcNow : ℤ
  call : ServerCall
  deriving DecidableEq

structure ServersState (ι : Type) where
  clocks : ClockedState ι
  servers : ServerTable

inductive ServersAction (ι : Type)
  | clocked (a : ClockedAction ι)
  | server (i : ι) (call : ServerCall)

section Steps

variable {ι : Type} [DecidableEq ι] (ser : SerializationHelper) (data : ServerDataHelper) (T : ℤ)
  (systemClock : ι → ℤ → ℤ)

def serversStep (s : ServersState ι) : ServersAction ι → ServersState ι × Option ObservedCall
  | .clocked a => ({ s with clocks := (clockedStep ser T systemClock s.clocks a).1 },none)
  | .server i call =>
    let now := utcNow systemClock s.clocks i
    ({ s with servers := (Servers.step data s.servers (call.action now)).1 },
      some ⟨s.clocks.storage.now,now,call⟩)

/-- No call on the servers comes later than `S` after its caller's last measurement either. -/
def TimelyCalls (S η : ℕ) (s : ServersState ι) : ServersAction ι → Prop
  | .clocked a => Timely systemClock S η s.clocks a
  | .server i _ => ∃ t ∈ s.clocks.refreshed i, s.clocks.storage.now ≤ t+S

instance (S η : ℕ) (s : ServersState ι) (a : ServersAction ι) :
    Decidable (TimelyCalls systemClock S η s a) := by
  unfold TimelyCalls
  split <;> infer_instance

def calls (s : ServersState ι) (as : List (ServersAction ι)) : List ObservedCall :=
  (trace (serversStep ser data T systemClock) s as).filterMap id

end Steps

section Lives

def announcedAt (serverId : String) (x : ObservedCall) : Option ℤ :=
  match x.call with
  | .announceServer id _ => if id = serverId then some x.now else none
  | _ => none

def heardAt (serverId : String) (t : ℤ) (x : ObservedCall) : ℤ × Unit :=
  match x.call with
  | .heartbeat id => (if id = serverId then x.now else t,())
  | _ => (t,())

/-- Sweeps that go through come no later than their span, less the margin, after the server has
been heard of. -/
def SparedWithin (margin : ℤ) (serverId : String) (t : ℤ) (x : ObservedCall) : Prop :=
  match x.call with
  | .removeServer id => id ≠ serverId
  | .removeTimedOutServers timeOut =>
    0 ≤ timeOut ∧ DateTime.InRange (x.utcNow-timeOut) → x.now - t ≤ timeOut - margin
  | _ => True

instance (margin : ℤ) (serverId : String) (t : ℤ) (x : ObservedCall) :
    Decidable (SparedWithin margin serverId t x) := by
  unfold SparedWithin
  split <;> infer_instance

/-- The server was announced, has been spared since, and was heard of last at the given time, all
by the clock of the database. -/
def Alive (margin : ℤ) (xs : List ObservedCall) (serverId : String) (t : ℤ) : Prop :=
  ∃ before x after t₀, xs = before ++ x :: after ∧ announcedAt serverId x = some t₀ ∧
    Along (heardAt serverId) (Continues (announcedAt serverId) (SparedWithin margin serverId)) t₀ after ∧
    exec (heardAt serverId) t₀ after = t

theorem alive_iff {margin : ℤ} {xs : List ObservedCall} {serverId : String} {t : ℤ} :
    Alive margin xs serverId t ↔
      current (announcedAt serverId) (heardAt serverId) (SparedWithin margin serverId) xs = some t :=
  current_eq_some.symm

end Lives

section Comparison

variable {ε : ℤ} {xs : List ObservedCall} {serverId : String} {r : Registration} {t : ℤ}

def readings (xs : List ObservedCall) : List Servers.Action := xs.map fun x => x.call.action x.utcNow

theorem announcedBy_action (serverId : String) (x : ObservedCall) :
    (Registration.announcedBy serverId (x.call.action x.utcNow) = none ∧ announcedAt serverId x = none) ∨
    ∃ r, Registration.announcedBy serverId (x.call.action x.utcNow) = some r ∧
      r.lastHeartbeat = x.utcNow ∧ announcedAt serverId x = some x.now := by
  unfold announcedAt
  cases x.call with
  | announceServer id context =>
    by_cases hid : id = serverId <;> simp [ServerCall.action,Registration.announcedBy,hid]
  | _ => exact .inl ⟨rfl,rfl⟩

theorem beat_close {x : ObservedCall} (hx : |x.utcNow - x.now| ≤ ε) (hr : |r.lastHeartbeat - t| ≤ ε) :
    |(r.beat serverId (x.call.action x.utcNow)).1.lastHeartbeat - (heardAt serverId t x).1| ≤ ε := by
  unfold heardAt
  cases x.call with
  | heartbeat id => by_cases hid : id = serverId <;> simp [ServerCall.action,Registration.beat,hid,hx,hr]
  | _ => exact hr

theorem sparedBy_of_within {x : ObservedCall} (hx : |x.utcNow - x.now| ≤ ε) (hr : |r.lastHeartbeat - t| ≤ ε)
    (h : SparedWithin (2*ε) serverId t x) : r.SparedBy serverId (x.call.action x.utcNow) := by
  unfold SparedWithin at h
  cases hc : x.call with
  | removeServer id =>
    rw [hc] at h
    exact h
  | removeTimedOutServers timeOut =>
    rw [hc] at h
    intro hsweep
    have hage : x.now - t ≤ timeOut - 2*ε := h hsweep
    linarith [le_abs_self (x.utcNow - x.now),neg_abs_le (r.lastHeartbeat - t)]
  | _ => trivial

theorem within_of_sparedBy {x : ObservedCall} (hx : |x.utcNow - x.now| ≤ ε) (hr : |r.lastHeartbeat - t| ≤ ε)
    (h : r.SparedBy serverId (x.call.action x.utcNow)) : SparedWithin (-(2*ε)) serverId t x := by
  unfold SparedWithin
  cases hc : x.call with
  | removeServer id =>
    rw [hc] at h
    exact h
  | removeTimedOutServers timeOut =>
    rw [hc] at h
    intro hsweep
    have hage : x.utcNow - timeOut ≤ r.lastHeartbeat := h hsweep
    linarith [neg_abs_le (x.utcNow - x.now),le_abs_self (r.lastHeartbeat - t)]
  | _ => trivial

/-- A server that is alive with a margin of twice the error is registered. -/
theorem registry_of_alive (hxs : ∀ x ∈ xs, |x.utcNow - x.now| ≤ ε) (h : Alive (2*ε) xs serverId t) :
    ∃ r, registry (readings xs) serverId = some r ∧ |r.lastHeartbeat - t| ≤ ε := by
  have hcur := alive_iff.mp h
  rw [← List.map_id xs] at hcur
  refine current_imp (R := fun t (r : Registration) => |r.lastHeartbeat - t| ≤ ε) ?_ ?_ ?_ hcur
  · intro x hx t ht
    obtain ⟨-,hnone⟩ | ⟨r,hr,hlast,hnow⟩ := announcedBy_action serverId x
    · rw [id,hnone] at ht
      cases ht
    · rw [id,hnow] at ht
      obtain rfl := Option.some.inj ht
      exact ⟨r,hr,hlast ▸ hxs x hx⟩
  · intro x _ hnone
    obtain ⟨hr,-⟩ | ⟨r,-,-,hnow⟩ := announcedBy_action serverId x
    · exact hr
    · rw [id,hnow] at hnone
      cases hnone
  · exact fun x hx t r hr hs => ⟨sparedBy_of_within (hxs x hx) hr hs,beat_close (hxs x hx) hr⟩

/-- A registered server is alive, if twice the error is added to the spans. -/
theorem alive_of_registry (hxs : ∀ x ∈ xs, |x.utcNow - x.now| ≤ ε)
    (h : registry (readings xs) serverId = some r) :
    ∃ t, Alive (-(2*ε)) xs serverId t ∧ |r.lastHeartbeat - t| ≤ ε := by
  have hcur : ∃ t, current (announcedAt serverId) (heardAt serverId) (SparedWithin (-(2*ε)) serverId)
      (xs.map id) = some t ∧ |r.lastHeartbeat - t| ≤ ε := by
    refine current_imp (R := fun (r : Registration) t => |r.lastHeartbeat - t| ≤ ε) ?_ ?_ ?_ h
    · intro x hx r hr
      obtain ⟨hnone,-⟩ | ⟨r',hr',hlast,hnow⟩ := announcedBy_action serverId x
      · rw [hnone] at hr
        cases hr
      · rw [hr'] at hr
        obtain rfl := Option.some.inj hr
        exact ⟨x.now,hnow,hlast ▸ hxs x hx⟩
    · intro x _ hnone
      obtain ⟨-,hnow⟩ | ⟨r,hr,-,-⟩ := announcedBy_action serverId x
      · exact hnow
      · rw [hr] at hnone
        cases hnone
    · exact fun x hx r t hr hs => ⟨within_of_sparedBy (hxs x hx) hr hs,beat_close (hxs x hx) hr⟩
  obtain ⟨t,ht,hr⟩ := hcur
  rw [List.map_id] at ht
  exact ⟨t,alive_iff.mpr ht,hr⟩

end Comparison

section Runs

variable {ι : Type} [DecidableEq ι] {ser : SerializationHelper} {data : ServerDataHelper} {T : ℤ}
  {systemClock : ι → ℤ → ℤ} {s : ServersState ι} {as : List (ServersAction ι)} {S η ρ : ℕ}

theorem servers_exec : (exec (serversStep ser data T systemClock) s as).servers =
    exec (Servers.step data) s.servers (readings (calls ser data T systemClock s as)) := by
  induction as generalizing s with
  | nil => rfl
  | cons a as ih =>
    rw [exec_cons,ih]
    cases a <;> rfl

theorem calls_close (hdrift : Drifts systemClock S ρ) (h : Measured systemClock η s.clocks)
    (hC : Along (serversStep ser data T systemClock) (TimelyCalls systemClock S η) s as) :
    ∀ x ∈ calls ser data T systemClock s as, |x.utcNow - x.now| ≤ η+ρ := by
  induction as generalizing s with
  | nil => simp [calls]
  | cons a as ih =>
    cases a with
    | clocked a => exact ih (measured_step h a hC.1) hC.2
    | server i call =>
      obtain ⟨t,ht,hS⟩ := hC.1
      intro x hx
      rw [calls,trace_cons] at hx
      obtain rfl | hx := List.mem_cons.mp hx
      · exact utcNow_close hdrift h ht hS
      · exact ih (s := (serversStep ser data T systemClock s (.server i call)).1) h hC.2 x hx

/-- Servers returns, and lists every server that no sweep can have found too late, and none that
some sweep must have found too late, by clocks with this error. -/
def ListsAlive (data : ServerDataHelper) (o : RowOrder ServerRow) (ε : ℤ) (xs : List ObservedCall)
    (t : ServerTable) : Prop :=
  ∃ dtos, servers data o t = .ok dtos ∧ (dtos.map ServerDto.name).Nodup ∧
    (∀ serverId t, Alive (2*ε) xs serverId t →
      ∃ dto ∈ dtos, dto.name = serverId ∧ ∃ u ∈ dto.heartbeat, |u-t| ≤ ε) ∧
    ∀ dto ∈ dtos, ∃ t, Alive (-(2*ε)) xs dto.name t ∧ ∃ u ∈ dto.heartbeat, |u-t| ≤ ε

/-- A server whose heartbeats come in time, less twice the error of the clocks, is never swept, and
one that is silent for longer than its span and twice the error is, by every sweep that goes
through; the heartbeats shown are off by the error at most. -/
theorem servers_lists_alive (ser : SerializationHelper) (data : ServerDataHelper) (T : ℤ)
    (st : StorageSystem.StorageState) (o : RowOrder ServerRow) (hdrift : Drifts systemClock S ρ)
    (hC : Along (serversStep ser data T systemClock) (TimelyCalls systemClock S η)
      ⟨started ι st,.empty⟩ as) :
    ListsAlive data o (η+ρ) (calls ser data T systemClock ⟨started ι st,.empty⟩ as)
      (exec (serversStep ser data T systemClock) ⟨started ι st,.empty⟩ as).servers := by
  have hclose := calls_close hdrift (measured_started st) hC
  rw [servers_exec]
  generalize calls ser data T systemClock ⟨started ι st,.empty⟩ as = xs at hclose ⊢
  obtain ⟨dtos,hdtos,hnodup,hmem⟩ := servers_of_holds o (holds_exec data (readings xs))
  refine ⟨dtos,hdtos,hnodup,?_,?_⟩
  · intro serverId t h
    obtain ⟨r,hr,hlast⟩ := registry_of_alive hclose h
    exact ⟨r.dto serverId,(hmem _).mpr ⟨r,hr,rfl⟩,rfl,r.lastHeartbeat,rfl,hlast⟩
  · intro dto hdto
    obtain ⟨r,hr,he⟩ := (hmem dto).mp hdto
    obtain ⟨t,ht,hlast⟩ := alive_of_registry hclose hr
    exact ⟨t,ht,r.lastHeartbeat,by rw [he]; rfl,hlast⟩

/-- The server that is behind is swept by the one that is ahead, `age` after its heartbeat. -/
def sweptAfter (age : ℕ) : List (ServersAction Bool) :=
  measuredBadly.map .clocked ++ [.server false (.announceServer "a" ⟨1,none⟩),.clocked (.advance 5000),
    .server false (.heartbeat "a"),.clocked (.advance age),.server true (.removeTimedOutServers 5000)]

theorem servers_lists_alive_swept : ListsAlive jsonHelper .stored (1000+0)
    (calls Json.helper jsonHelper 0 slowClock ⟨started Bool (StorageSystem.initial 1000000),.empty⟩
      (sweptAfter 3000))
    (exec (serversStep Json.helper jsonHelper 0 slowClock)
      ⟨started Bool (StorageSystem.initial 1000000),.empty⟩ (sweptAfter 3000)).servers :=
  servers_lists_alive (S := 200000) (η := 1000) (ρ := 0) _ _ _ _ _ (slowClock_drifts _ _) (by decide)

/-- Silence within the margin is too long by these clocks. -/
example : (exec (serversStep Json.helper jsonHelper 0 slowClock)
    ⟨started Bool (StorageSystem.initial 1000000),.empty⟩ (sweptAfter 3001)).servers.byId "a" = none := by
  decide

end Runs

end ServerClocks
end HangfireStorage
