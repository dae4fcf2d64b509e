import HangfireStorage.QueuePages
import Mathlib.Data.List.Induction

/-!
# The overview of the queues

Queues reads three times for every queue, and the clients of the storage go on in between. What it
shows was there at some moment of the call, and what is there at every moment is shown.
-/

namespace HangfireStorage
namespace QueuesOverview

open Machine MonitoringApi QueuePages StorageSystem StringToInt32Converter WriteOnlyTransaction

structure QueueWithTopEnqueuedJobsDto (J : Type) where
  name : String
  length : ℕ
  fetched : ℕ
  firstJobs : List (String × EnqueuedJobDto J)

inductive Progress
  | nothing
  | enqueuedJobIds (jobIds : List ℤ)
  | counters (jobIds : List ℤ) (counts : ℕ × ℕ)

structure OverviewState (J : Type) where
  storage : StorageState
  tuples : List String
  progress : Progress
  result : Except Fault (List (QueueWithTopEnqueuedJobsDto J))

/-- A step of another client, or the next read of the call. -/
inductive OverviewAction
  | env (a : Action)
  | read (o : RowOrder JobRow)

section Steps

variable {J : Type} (core : Core J) (ser : SerializationHelper) (T : ℤ)

/-- `OrderBy` by the names of the queues, as the culture compares them. -/
def orderByQueue (le : String → String → Bool) (queues : List String) : List String :=
  queues.insertionSort fun a b => le a b

def begin (le : String → String → Bool) (queues : List String) (s : StorageState) : OverviewState J :=
  ⟨s,orderByQueue le queues,.nothing,.ok []⟩

def throw (f : Fault) (s : OverviewState J) : OverviewState J :=
  { s with tuples := [], result := .error f }

def read (o : RowOrder JobRow) (queue : String) (tuples : List String)
    (result : List (QueueWithTopEnqueuedJobsDto J)) (s : OverviewState J) : OverviewState J :=
  match s.progress with
  | .nothing =>
    match getEnqueuedJobIds queue 0 5 s.storage.db with
    | .error f => throw f s
    | .ok jobIds => { s with progress := .enqueuedJobIds jobIds }
  | .enqueuedJobIds jobIds =>
    { s with progress := .counters jobIds (getEnqueuedAndFetchedCount queue s.storage.db) }
  | .counters jobIds counts =>
    match jobList core.enqueuedJob o jobIds s.storage.db with
    | .error f => throw f s
    | .ok firstJobs => { s with
        tuples := tuples
        progress := .nothing
        result := .ok (result ++ [⟨queue,counts.1,counts.2,firstJobs⟩]) }

def overviewStep (s : OverviewState J) : OverviewAction → OverviewState J × Unit
  | .env a => ({ s with storage := (step ser T s.storage a).1 },())
  | .read o =>
    match s.tuples, s.result with
    | queue::tuples, .ok result => (read core o queue tuples result s,())
    | _, _ => (s,())

end Steps

section Moments

variable {J : Type} {core : Core J} {ser : SerializationHelper} {T : ℤ} {s : OverviewState J}

def Moment (core : Core J) (ser : SerializationHelper) (T : ℤ) (s : OverviewState J)
    (as : List OverviewAction) (m : StorageState) : Prop :=
  ∃ before, before <+: as ∧ m = (exec (overviewStep core ser T) s before).storage

/-- What has been read was read at such moments. -/
def ReadAt (M : StorageState → Prop) (queue : String) : Progress → Prop
  | .nothing => True
  | .enqueuedJobIds jobIds => ∃ m, M m ∧ getEnqueuedJobIds queue 0 5 m.db = .ok jobIds
  | .counters jobIds counts => (∃ m, M m ∧ getEnqueuedJobIds queue 0 5 m.db = .ok jobIds) ∧
    ∃ m, M m ∧ getEnqueuedAndFetchedCount queue m.db = counts

def Shows (core : Core J) (M : StorageState → Prop) (e : QueueWithTopEnqueuedJobsDto J) : Prop :=
  ∃ jobIds o, ReadAt M e.name (.counters jobIds (e.length,e.fetched)) ∧
    ∃ m, M m ∧ jobList core.enqueuedJob o jobIds m.db = .ok e.firstJobs

structure Overview (core : Core J) (M : StorageState → Prop) (names : List String)
    (s : OverviewState J) : Prop where
  now : M s.storage
  progress : ∀ queue tuples, s.tuples = queue::tuples → ReadAt M queue s.progress
  names : ∀ l, s.result = .ok l → l.map QueueWithTopEnqueuedJobsDto.name ++ s.tuples = names
  shows : ∀ l, s.result = .ok l → ∀ e ∈ l, Shows core M e

variable {M M' : StorageState → Prop} {names : List String} {queue : String}

theorem ReadAt.mono (hM : ∀ m, M m → M' m) {p : Progress} (h : ReadAt M queue p) : ReadAt M' queue p := by
  cases p with
  | nothing => trivial
  | enqueuedJobIds jobIds => exact h.imp fun m hm => ⟨hM m hm.1,hm.2⟩
  | counters jobIds counts =>
    exact ⟨h.1.imp fun m hm => ⟨hM m hm.1,hm.2⟩,h.2.imp fun m hm => ⟨hM m hm.1,hm.2⟩⟩

theorem Shows.mono (hM : ∀ m, M m → M' m) {e : QueueWithTopEnqueuedJobsDto J} (h : Shows core M e) :
    Shows core M' e := by
  obtain ⟨jobIds,o,hread,m,hm,hjobs⟩ := h
  exact ⟨jobIds,o,hread.mono hM,m,hM m hm,hjobs⟩

theorem Overview.throw (h : Overview core M names s) (f : Fault) : Overview core M names (throw f s) :=
  ⟨h.now,nofun,nofun,nofun⟩

theorem Overview.read (h : Overview core M names s) (o : RowOrder JobRow) {tuples : List String}
    {l : List (QueueWithTopEnqueuedJobsDto J)} (ht : s.tuples = queue::tuples) (hl : s.result = .ok l) :
    Overview core M names (read core o queue tuples l s) := by
  have hp := h.progress queue tuples ht
  have hkeep (p : Progress) (hp : ReadAt M queue p) : Overview core M names { s with progress := p } := by
    refine ⟨h.now,fun queue' tuples' ht' => ?_,h.names,h.shows⟩
    obtain ⟨rfl,-⟩ := List.cons.inj (ht.symm.trans ht')
    exact hp
  unfold QueuesOverview.read
  cases hprogress : s.progress with
  | nothing =>
    simp only
    cases hids : getEnqueuedJobIds queue 0 5 s.storage.db with
    | error f => exact h.throw f
    | ok jobIds => exact hkeep _ ⟨s.storage,h.now,hids⟩
  | enqueuedJobIds jobIds =>
    rw [hprogress] at hp
    exact hkeep _ ⟨hp,s.storage,h.now,rfl⟩
  | counters jobIds counts =>
    rw [hprogress] at hp
    simp only
    cases hjobs : jobList core.enqueuedJob o jobIds s.storage.db with
    | error f => exact h.throw f
    | ok firstJobs =>
      refine ⟨h.now,fun _ _ _ => trivial,?_,?_⟩
      · rintro _ ⟨⟩
        rw [List.map_append,List.append_assoc,← h.names l hl,ht]
        rfl
      · rintro _ ⟨⟩ e he
        obtain he | he := List.mem_append.mp he
        · exact h.shows l hl e he
        · rw [List.mem_singleton.mp he]
          exact ⟨jobIds,o,hp,s.storage,h.now,hjobs⟩

theorem Overview.mono (h : Overview core M names s) (hM : ∀ m, M m → M' m) {m : StorageState} (hm : M' m) :
    Overview core M' names { s with storage := m } :=
  ⟨hm,fun q t ht => (h.progress q t ht).mono hM,h.names,fun l hl e he => (h.shows l hl e he).mono hM⟩

theorem overview_step (h : Overview core M names s) (hM : ∀ m, M m → M' m) (a : OverviewAction)
    (hnow : M' (overviewStep core ser T s a).1.storage) :
    Overview core M' names (overviewStep core ser T s a).1 := by
  cases a with
  | env a => exact h.mono hM hnow
  | read o =>
    cases ht : s.tuples with
    | nil =>
      simp only [overviewStep,ht] at hnow ⊢
      exact h.mono hM hnow
    | cons queue tuples =>
      cases hl : s.result with
      | error f =>
        simp only [overviewStep,ht,hl] at hnow ⊢
        exact h.mono hM hnow
      | ok l =>
        simp only [overviewStep,ht,hl] at hnow ⊢
        exact (h.read o ht hl).mono hM hnow

theorem overview_exec (core : Core J) (ser : SerializationHelper) (T : ℤ) (le : String → String → Bool)
    (queues : List String) (st : StorageState) (as : List OverviewAction) :
    Overview core (Moment core ser T (begin le queues st) as) (orderByQueue le queues)
      (exec (overviewStep core ser T) (begin le queues st) as) := by
  induction as using List.reverseRecOn with
  | nil =>
    refine ⟨⟨[],List.prefix_refl _,rfl⟩,fun _ _ _ => trivial,?_,?_⟩
    · rintro _ ⟨⟩
      rfl
    · rintro _ ⟨⟩
      nofun
  | append_singleton as a ih =>
    have hM (m : StorageState) (hm : Moment core ser T (begin le queues st) as m) :
        Moment core ser T (begin le queues st) (as ++ [a]) m :=
      hm.imp fun before hb => ⟨hb.1.trans (List.prefix_append as [a]),hb.2⟩
    rw [exec_append]
    exact overview_step ih hM a ⟨as ++ [a],List.prefix_refl _,by rw [exec_append]; rfl⟩

end Moments

section Lookups

variable {J : Type} {core : Core J} {o : RowOrder JobRow} {queue : String} {jobIds : List ℤ} {db : Db}
  {l : List (String × EnqueuedJobDto J)}

/-- The jobs looked up are those with the given ids that exist, each once. -/
theorem keys_of_jobList (h : jobList core.enqueuedJob o jobIds db = .ok l) :
    (l.map Prod.fst).Nodup ∧
      ∀ key, key ∈ l.map Prod.fst ↔ ∃ j ∈ jobIds, db.jobExists j ∧ key = toString j := by
  have hkeys : l.map Prod.fst = (o.arrange (db.job.rows.filter fun i => jobIds.contains i.id)).map
      fun job => toString job.id := by
    unfold jobList at h
    split_ifs at h with hids
    · obtain rfl := Except.ok.inj h
      have hnone : db.job.rows.filter (fun i => jobIds.contains i.id) = [] := by simp [hids]
      rw [hnone,(o.perm []).eq_nil]
      rfl
    · refine map_of_mapM (fun job b hb => ?_) h
      obtain ⟨d,-,rfl⟩ := map_eq_ok hb
      rfl
  rw [hkeys]
  constructor
  · have hids : ((db.job.rows.filter fun i => jobIds.contains i.id).map JobRow.id).Nodup :=
      db.job.nodup_ids _
    have harranged : ((o.arrange (db.job.rows.filter fun i => jobIds.contains i.id)).map
        JobRow.id).Nodup := ((o.perm _).map _).nodup_iff.mpr hids
    have htexts := harranged.map toString_injective
    rwa [List.map_map] at htexts
  · intro key
    simp only [List.mem_map,o.mem_arrange,List.mem_filter,List.contains_iff_mem,Db.jobExists]
    constructor
    · rintro ⟨job,⟨hjob,hmem⟩,rfl⟩
      exact ⟨job.id,hmem,⟨job,hjob,rfl⟩,rfl⟩
    · rintro ⟨j,hmem,⟨job,hjob,rfl⟩,rfl⟩
      exact ⟨job,⟨hjob,hmem⟩,rfl⟩

theorem mem_enqueuedJobIds {startFrom perPage : ℕ}
    (h : getEnqueuedJobIds queue startFrom perPage db = .ok jobIds) {j : ℤ} :
    j ∈ jobIds ↔ j ∈ jobsOf (page startFrom perPage (queueRows queue db)) := by
  rw [getEnqueuedJobIds,orderById_rows] at h
  rw [mem_mapM h]
  refine exists_congr fun r => and_congr_right fun _ => ?_
  cases r.job <;> simp

end Lookups

/-- The counts of an entry were right at one moment, every job that it lists was one of the first
five of the queue at some moment, and a job that is one of them at every moment is listed. -/
structure EntryRight {J : Type} (M : StorageState → Prop) (e : QueueWithTopEnqueuedJobsDto J) : Prop where
  counts : ∃ m, M m ∧ e.length = (queueRows e.name m.db).length ∧
    e.fetched = (fetchedRows e.name m.db).length
  once : (e.firstJobs.map Prod.fst).Nodup
  listed : ∀ key ∈ e.firstJobs.map Prod.fst, ∃ m, M m ∧
    ∃ j ∈ jobsOf (page 0 5 (queueRows e.name m.db)), key = toString j
  complete : ∀ j, (∀ m, M m → j ∈ jobsOf (page 0 5 (queueRows e.name m.db)) ∧ m.db.jobExists j) →
    toString j ∈ e.firstJobs.map Prod.fst

theorem Shows.entryRight {J : Type} {core : Core J} {M : StorageState → Prop}
    {e : QueueWithTopEnqueuedJobsDto J} (h : Shows core M e) : EntryRight M e := by
  obtain ⟨jobIds,o,⟨⟨m₁,hm₁,hids⟩,m₂,hm₂,hcounts⟩,m₃,hm₃,hjobs⟩ := h
  obtain ⟨hnodup,hkeys⟩ := keys_of_jobList hjobs
  obtain ⟨hlength,hfetched⟩ := Prod.mk.inj hcounts
  constructor
  · refine ⟨m₂,hm₂,?_,?_⟩
    · rw [← hlength,List.length_map]
      rfl
    · rw [← hfetched,List.countP_map,List.countP_eq_length_filter,List.filter_filter]
      rfl
  · exact hnodup
  · intro key hkey
    obtain ⟨j,hj,-,rfl⟩ := (hkeys key).mp hkey
    exact ⟨m₁,hm₁,j,(mem_enqueuedJobIds hids).mp hj,rfl⟩
  · exact fun j hj => (hkeys _).mpr ⟨j,(mem_enqueuedJobIds hids).mpr (hj m₁ hm₁).1,(hj m₃ hm₃).2,rfl⟩

/-- A Queues call that returns has a right entry for every queue, in order, whatever other clients
do between its reads. -/
theorem queues_shows {J : Type} (core : Core J) (ser : SerializationHelper) (T : ℤ)
    (le : String → String → Bool) (queues : List String) (st : StorageState) {as : List OverviewAction}
    {l : List (QueueWithTopEnqueuedJobsDto J)}
    (hdone : (exec (overviewStep core ser T) (begin le queues st) as).tuples = [])
    (hl : (exec (overviewStep core ser T) (begin le queues st) as).result = .ok l) :
    l.map QueueWithTopEnqueuedJobsDto.name = orderByQueue le queues ∧
      ∀ e ∈ l, EntryRight (Moment core ser T (begin le queues st) as) e := by
  have h := overview_exec core ser T le queues st as
  have hnames := h.names l hl
  rw [hdone,List.append_nil] at hnames
  exact ⟨hnames,fun e he => (h.shows l hl e he).entryRight⟩

/-- Another job is queued and fetched while the first queue is read. -/
def readAmidFetches : List OverviewAction :=
  [.read .stored,.env (.commit [(0,.addToQueue "default" "2")]),.env (.dequeue .stored ["default"] "token"),
    .read .stored,.read .stored]

theorem queues_shows_amidFetches : ∃ l : List (QueueWithTopEnqueuedJobsDto Unit),
    (exec (overviewStep plainCore Json.helper 100) (begin (fun a b => a ≤ b) ["default"]
      ⟨fetchedOne "1",0,[],[],[],[]⟩) readAmidFetches).result = .ok l ∧
    l.map QueueWithTopEnqueuedJobsDto.name = ["default"] ∧
    ∀ e ∈ l, EntryRight (Moment plainCore Json.helper 100 (begin (fun a b => a ≤ b) ["default"]
      ⟨fetchedOne "1",0,[],[],[],[]⟩) readAmidFetches) e :=
  ⟨_,rfl,queues_shows plainCore Json.helper 100 (fun a b => a ≤ b) ["default"] _ rfl rfl⟩

end QueuesOverview
end HangfireStorage
