import HangfireStorage.Lifespans
import HangfireStorage.Servers

/-!
# Runs of server calls

A server is registered from its last announcement on, as long as nobody removes it and no sweep
finds its last heartbeat too old. Heartbeats alone register nobody.
-/

namespace HangfireStorage
namespace Servers

open Lifespan Machine

structure Registration where
  context : ServerContext
  startedAt : ℤ
  lastHeartbeat : ℤ
  deriving DecidableEq, Repr

namespace Registration

def announcedBy (serverId : String) : Action → Option Registration
  | .announceServer id context startedAt utcNow =>
    if id = serverId then some ⟨context,startedAt,utcNow⟩ else none
  | _ => none

def beat (serverId : String) (r : Registration) : Action → Registration × Unit
  | .heartbeat id utcNow => (if id = serverId then { r with lastHeartbeat := utcNow } else r,())
  | _ => (r,())

/-- A sweep with a negative span, or with a cut-off that is no date, spares everybody. -/
def SparedBy (serverId : String) (r : Registration) : Action → Prop
  | .removeServer id => id ≠ serverId
  | .removeTimedOutServers timeOut utcNow =>
    0 ≤ timeOut ∧ DateTime.InRange (utcNow-timeOut) → utcNow-timeOut ≤ r.lastHeartbeat
  | _ => True

instance (serverId : String) (r : Registration) : (a : Action) → Decidable (r.SparedBy serverId a)
  | .removeServer id => inferInstanceAs (Decidable (id ≠ serverId))
  | .removeTimedOutServers _ _ => inferInstanceAs (Decidable (_ ∧ _ → _))
  | .announceServer _ _ _ _ => .isTrue trivial
  | .heartbeat _ _ => .isTrue trivial

def data (r : Registration) : ServerData :=
  ⟨r.context.workerCount,r.context.queues,some r.startedAt⟩

def dto (serverId : String) (r : Registration) : ServerDto :=
  ⟨serverId,some r.lastHeartbeat,r.context.queues,r.startedAt,r.context.workerCount⟩

def row (ser : ServerDataHelper) (serverId : String) (r : Registration) : ServerRow :=
  ⟨serverId,ser.serialize r.data,some r.lastHeartbeat⟩

end Registration

open Registration

/-- The server was announced, and has been spared by all that was done since. -/
def Registered (as : List Action) (serverId : String) (r : Registration) : Prop :=
  ∃ before context startedAt utcNow after,
    as = before ++ .announceServer serverId context startedAt utcNow :: after ∧
    Along (beat serverId) (Continues (announcedBy serverId) (SparedBy serverId))
      ⟨context,startedAt,utcNow⟩ after ∧
    exec (beat serverId) ⟨context,startedAt,utcNow⟩ after = r

def registry (as : List Action) (serverId : String) : Option Registration :=
  current (announcedBy serverId) (beat serverId) (SparedBy serverId) as

section Refinement

variable {ser : ServerDataHelper} {t : ServerTable} {m : String → Option Registration}

theorem registry_eq_some {as : List Action} {serverId : String} {r : Registration} :
    registry as serverId = some r ↔ Registered as serverId r := by
  rw [registry,current_eq_some]
  constructor
  · rintro ⟨before,a,after,r₀,rfl,ha,halong,hr⟩
    cases a with
    | announceServer id context startedAt utcNow =>
      simp only [announcedBy,Option.ite_none_right_eq_some,Option.some.injEq] at ha
      obtain ⟨rfl,rfl⟩ := ha
      exact ⟨before,context,startedAt,utcNow,after,rfl,halong,hr⟩
    | removeServer | heartbeat | removeTimedOutServers => cases ha
  · rintro ⟨before,context,startedAt,utcNow,after,rfl,halong,hr⟩
    exact ⟨before,_,after,_,rfl,by simp [announcedBy],halong,hr⟩

/-- The table holds the rows of the registered servers. -/
def Holds (ser : ServerDataHelper) (t : ServerTable) (m : String → Option Registration) : Prop :=
  ∀ serverId, t.byId serverId = (m serverId).map (Registration.row ser serverId)

/-- One call, on the table and on the registry. -/
theorem holds_step (h : Holds ser t m) (a : Action) :
    Holds ser (step ser t a).1 fun i => next (announcedBy i) (beat i) (SparedBy i) (m i) a := by
  intro i
  have hi := h i
  cases a with
  | announceServer serverId context startedAt utcNow =>
    obtain ⟨t',ht',hbyId⟩ := announceServer_eq ser serverId context startedAt utcNow t
    simp only [step,ht',hbyId]
    by_cases hs : serverId = i
    · simp [next,announcedBy,hs,Registration.row,Registration.data]
    · rw [if_neg (Ne.symm hs),hi]
      cases m i <;> simp [next,announcedBy,hs,SparedBy,beat]
  | removeServer serverId =>
    simp only [step,removeServer,ServerTable.byId_delete,hi]
    cases m i with
    | none => simp [next,announcedBy]
    | some r =>
      by_cases hs : serverId = i
      · simp [next,announcedBy,SparedBy,hs,Registration.row,Option.filter]
      · simp [next,announcedBy,SparedBy,hs,Ne.symm hs,Registration.row,Option.filter,beat]
  | heartbeat serverId utcNow =>
    simp only [step,heartbeat,ServerTable.byId_modify,hi]
    cases m i with
    | none => simp [next,announcedBy]
    | some r =>
      by_cases hs : serverId = i
      · simp [next,announcedBy,SparedBy,hs,Registration.row,Registration.data,beat]
      · simp [next,announcedBy,SparedBy,hs,Ne.symm hs,Registration.row,beat]
  | removeTimedOutServers timeOut utcNow =>
    simp only [step]
    rcases removeTimedOutServers_eq timeOut utcNow t with
      ⟨hpos,hrange,heq⟩ | ⟨hnot,f,heq⟩
    · simp only [heq,ServerTable.byId_delete,hi]
      cases m i with
      | none => simp [next,announcedBy]
      | some r =>
        by_cases hlt : r.lastHeartbeat < utcNow-timeOut
        · simp [next,announcedBy,SparedBy,Registration.row,Option.filter,expiredBefore,hlt,hpos,hrange]
          omega
        · simp [next,announcedBy,SparedBy,Registration.row,Option.filter,expiredBefore,hlt,hpos,hrange,
            beat]
          omega
    · simp only [heq,hi]
      cases m i with
      | none => simp [next,announcedBy]
      | some r =>
        have hspared : SparedBy i r (.removeTimedOutServers timeOut utcNow) := fun h => absurd h hnot
        simp [next,announcedBy,hspared,beat]

theorem holds_exec (ser : ServerDataHelper) (as : List Action) :
    Holds ser (exec (step ser) .empty as) (registry as) := by
  induction as using List.reverseRecOn with
  | nil => exact fun _ => rfl
  | append_singleton as a ih =>
    rw [exec_append]
    intro i
    rw [registry,current_append]
    exact holds_step ih a i

theorem serverDto_row (ser : ServerDataHelper) (serverId : String) (r : Registration) :
    serverDto ser (r.row ser serverId) = .ok (r.dto serverId) := by
  simp [serverDto,Registration.row,ser.deserialize_serialize,Registration.data,Registration.dto]

/-- Every row is the row of a registration. -/
theorem Holds.row (h : Holds ser t m) {a : ServerRow} (ha : a ∈ t.rows) :
    ∃ r, m a.id = some r ∧ a = r.row ser a.id := by
  have hi := h a.id
  rw [ServerTable.byId_eq_some.mpr ⟨ha,rfl⟩,eq_comm,Option.map_eq_some_iff] at hi
  obtain ⟨r,hr,hrow⟩ := hi
  exact ⟨r,hr,hrow.symm⟩

/-- There are as many rows as registered servers. -/
theorem Holds.encard (h : Holds ser t m) : {serverId | m serverId ≠ none}.encard = t.rows.length := by
  have hset : {serverId | m serverId ≠ none} = ((t.rows.map ServerRow.id).toFinset : Set String) := by
    ext serverId
    simp only [Set.mem_ofPred_eq,List.coe_toFinset,List.mem_map]
    constructor
    · intro hm
      obtain ⟨r,hr⟩ := Option.ne_none_iff_exists'.mp hm
      have hi := h serverId
      rw [hr,Option.map_some,ServerTable.byId_eq_some] at hi
      exact ⟨_,hi⟩
    · rintro ⟨a,ha,rfl⟩
      obtain ⟨r,hr,-⟩ := h.row ha
      simp [hr]
  rw [hset,Set.encard_coe_eq_coe_finsetCard,List.toFinset_card_of_nodup t.distinct,List.length_map]

/-- Servers returns the registered servers, each once. -/
theorem servers_of_holds (o : RowOrder ServerRow) (h : Holds ser t m) :
    ∃ dtos, servers ser o t = .ok dtos ∧ (dtos.map ServerDto.name).Nodup ∧
      ∀ dto, dto ∈ dtos ↔ ∃ r, m dto.name = some r ∧ dto = r.dto dto.name := by
  have hread : ∀ a ∈ o.arrange t.rows, ∃ dto, serverDto ser a = .ok dto := by
    intro a ha
    obtain ⟨r,-,hr⟩ := h.row (o.mem_arrange.mp ha)
    rw [hr]
    exact ⟨_,serverDto_row ser a.id r⟩
  obtain ⟨dtos,hdtos⟩ := mapM_ok_iff.mpr hread
  have hname : ∀ a dto, serverDto ser a = .ok dto → dto.name = a.id := by
    intro a dto h
    unfold serverDto at h
    split at h <;> cases h
    rfl
  refine ⟨dtos,hdtos,?_,fun dto => ?_⟩
  · rw [map_of_mapM hname hdtos]
    exact ((o.perm t.rows).map ServerRow.id).nodup_iff.mpr t.distinct
  · rw [mem_mapM hdtos]
    constructor
    · rintro ⟨a,ha,hdto⟩
      obtain ⟨r,hr,ha⟩ := h.row (o.mem_arrange.mp ha)
      rw [ha,serverDto_row,Except.ok.injEq] at hdto
      rw [← hdto]
      exact ⟨r,hr,rfl⟩
    · rintro ⟨r,hr,hdto⟩
      have hi := h dto.name
      rw [hr,Option.map_some,ServerTable.byId_eq_some] at hi
      exact ⟨_,o.mem_arrange.mpr hi.1,by rw [serverDto_row,← hdto]⟩

end Refinement

/-- After any calls Servers returns; it lists every registered server once, with what it announced
last and its last heartbeat, and nobody else. -/
theorem servers_lists_registered (ser : ServerDataHelper) (o : RowOrder ServerRow) (as : List Action) :
    ∃ dtos, servers ser o (exec (step ser) .empty as) = .ok dtos ∧
      (dtos.map ServerDto.name).Nodup ∧
      ∀ dto, dto ∈ dtos ↔ ∃ r, Registered as dto.name r ∧ dto = r.dto dto.name := by
  obtain ⟨dtos,hdtos,hnodup,hmem⟩ := servers_of_holds o (holds_exec ser as)
  exact ⟨dtos,hdtos,hnodup,fun dto => by simp only [hmem,registry_eq_some]⟩

end Servers
end HangfireStorage
