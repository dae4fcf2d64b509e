import HangfireStorage.JobIdTexts
import HangfireStorage.MonitoringApi
import HangfireStorage.StorageSystem

/-!
# The queue pages of the dashboard

One class selects a page of queue rows, another one looks jobs up by the ids it is given. The
page of fetched jobs is given the ids of the rows.
-/

namespace HangfireStorage
namespace QueuePages

open JobStorageConnection Machine MonitoringApi StorageSystem StringToInt32Converter
  WriteOnlyTransaction

def queueRows (queue : String) (db : Db) : List JobQueueRow :=
  db.jobQueue.rows.filter fun i => i.queue = queue

def fetchedRows (queue : String) (db : Db) : List JobQueueRow :=
  db.jobQueue.rows.filter fun i => i.fetchedAt.isSome && i.queue = queue

/-- The rows at the positions from `startFrom` on; rows stand in the order of their ids. -/
def page (startFrom perPage : ℕ) (rows : List JobQueueRow) : List JobQueueRow :=
  (rows.drop startFrom).take perPage

def jobsOf (rows : List JobQueueRow) : Set ℤ := {j | ∃ r ∈ rows, r.job = some j}

def Lists {T : Type} (l : List (String × T)) (jobs : Set ℤ) : Prop :=
  {key | key ∈ l.map Prod.fst} = (fun j : ℤ => toString j) '' jobs

section Lookups

variable {T : Type} {dto : JobRow → Except Fault T} {o : RowOrder JobRow} {jobIds : List ℤ} {db : Db}

/-- The keys of a list made from some rows show the jobs that the rows are. -/
theorem lists_iff {l : List (String × T)} {rows : List JobRow} {jobs : Set ℤ}
    (h : l.map Prod.fst = rows.map fun job => toString job.id) :
    Lists l jobs ↔ {j | ∃ job ∈ rows, job.id = j} = jobs := by
  have hkeys : {key | key ∈ l.map Prod.fst} =
      (fun j : ℤ => toString j) '' {j | ∃ job ∈ rows, job.id = j} := by
    ext key
    rw [h]
    simp
  rw [Lists,hkeys,toString_injective.image_injective.eq_iff]

theorem jobList_lists_iff {jobs : Set ℤ} :
    (∃ l, jobList dto o jobIds db = .ok l ∧ Lists l jobs) ↔
      (∀ job ∈ db.job.rows, job.id ∈ jobIds → ∃ d, dto job = .ok d) ∧
        {j | j ∈ jobIds ∧ db.jobExists j} = jobs := by
  by_cases hids : jobIds = []
  · subst hids
    have hnil : Lists ([] : List (String × T)) jobs ↔ {j | ∃ job ∈ ([] : List JobRow), job.id = j} = jobs :=
      lists_iff rfl
    simp [jobList,hnil]
  · have hrows : {j | ∃ job ∈ o.arrange (db.job.rows.filter fun i => jobIds.contains i.id), job.id = j} =
        {j | j ∈ jobIds ∧ db.jobExists j} := by
      ext j
      simp only [o.mem_arrange,List.mem_filter,List.contains_iff_mem,Set.mem_ofPred_eq,Db.jobExists]
      constructor
      · rintro ⟨job,⟨hjob,hmem⟩,rfl⟩
        exact ⟨hmem,job,hjob,rfl⟩
      · rintro ⟨hmem,job,hjob,rfl⟩
        exact ⟨job,⟨hjob,hmem⟩,rfl⟩
    have hkeys {l : List (String × T)} (h : jobList dto o jobIds db = .ok l) : l.map Prod.fst =
        (o.arrange (db.job.rows.filter fun i => jobIds.contains i.id)).map fun job =>
          toString job.id := by
      rw [jobList,if_neg hids] at h
      refine map_of_mapM (fun job b hb => ?_) h
      obtain ⟨d,-,rfl⟩ := map_eq_ok hb
      rfl
    have hok : (∃ l, jobList dto o jobIds db = .ok l) ↔
        ∀ job ∈ db.job.rows, job.id ∈ jobIds → ∃ d, dto job = .ok d := by
      rw [jobList,if_neg hids,mapM_ok_iff]
      simp only [o.mem_arrange,List.mem_filter,List.contains_iff_mem,and_imp]
      refine forall₃_congr fun job _ _ => ?_
      constructor
      · rintro ⟨b,hb⟩
        obtain ⟨d,hd,-⟩ := map_eq_ok hb
        exact ⟨d,hd⟩
      · rintro ⟨d,hd⟩
        exact ⟨_,by rw [hd]; rfl⟩
    rw [← hok]
    constructor
    · rintro ⟨l,hl,hlists⟩
      exact ⟨⟨l,hl⟩,by rw [← hrows]; exact (lists_iff (hkeys hl)).mp hlists⟩
    · rintro ⟨⟨l,hl⟩,hjobs⟩
      exact ⟨l,hl,(lists_iff (hkeys hl)).mpr (hrows.trans hjobs)⟩

end Lookups

/-- Hangfire.Core's part in showing jobs. -/
structure Core (J : Type) where
  ser : SerializationHelper
  ordinalIgnoreCase : StringComparer
  deserializeJob : String → String → Except Fault (Option J)
  deserializeNullableDateTime : Option String → Except Fault (Option ℤ)

variable {J : Type} (core : Core J) (queue : String) (startFrom perPage : ℕ) (db : Db)

def Core.enqueuedJob : JobRow → Except Fault (EnqueuedJobDto J) :=
  MonitoringApi.enqueuedJob core.ser core.ordinalIgnoreCase core.deserializeJob
    core.deserializeNullableDateTime

def Core.fetchedJob : JobRow → Except Fault (FetchedJobDto J) :=
  MonitoringApi.fetchedJob core.deserializeJob

def Core.enqueuedJobs (o : RowOrder JobRow) : Except Fault (List (String × EnqueuedJobDto J)) :=
  MonitoringApi.enqueuedJobs core.ser core.ordinalIgnoreCase core.deserializeJob
    core.deserializeNullableDateTime o queue startFrom perPage db

def Core.fetchedJobs (o : RowOrder JobRow) : Except Fault (List (String × FetchedJobDto J)) :=
  MonitoringApi.fetchedJobs core.deserializeJob o queue startFrom perPage db

structure PagesExact (o : RowOrder JobRow) : Prop where
  enqueued : ∃ l, core.enqueuedJobs queue startFrom perPage db o = .ok l ∧
    Lists l (jobsOf (page startFrom perPage (queueRows queue db)))
  fetched : ∃ l, core.fetchedJobs queue startFrom perPage db o = .ok l ∧
    Lists l (jobsOf (page startFrom perPage (fetchedRows queue db)))

/-- The jobs that are looked up can be shown, and the ids of the fetched rows happen to name the
jobs of these rows. -/
structure IdsCoincide : Prop where
  enqueued : ∀ job ∈ db.job.rows,
    job.id ∈ jobsOf (page startFrom perPage (queueRows queue db)) → ∃ d, core.enqueuedJob job = .ok d
  fetched : ∀ job ∈ db.job.rows,
    (∃ r ∈ page startFrom perPage (fetchedRows queue db), r.id = job.id) →
      ∃ d, core.fetchedJob job = .ok d
  ids : {j | (∃ r ∈ page startFrom perPage (fetchedRows queue db), r.id = j) ∧ db.jobExists j} =
    jobsOf (page startFrom perPage (fetchedRows queue db))

variable {core queue startFrom perPage db}

theorem getFetchedJobIds_eq : getFetchedJobIds queue startFrom perPage db =
    (page startFrom perPage (fetchedRows queue db)).map JobQueueRow.id := by
  have hsort : orderById (fetchedRows queue db) = fetchedRows queue db :=
    List.Pairwise.insertionSort_eq ((db.jobQueue.sorted.filter _).imp fun h => h.le)
  rw [getFetchedJobIds,page,← hsort]
  rfl

theorem fetchedJobs_lists_iff (o : RowOrder JobRow) {jobs : Set ℤ} :
    (∃ l, core.fetchedJobs queue startFrom perPage db o = .ok l ∧ Lists l jobs) ↔
      (∀ job ∈ db.job.rows, (∃ r ∈ page startFrom perPage (fetchedRows queue db), r.id = job.id) →
        ∃ d, core.fetchedJob job = .ok d) ∧
      {j | (∃ r ∈ page startFrom perPage (fetchedRows queue db), r.id = j) ∧ db.jobExists j} = jobs := by
  rw [Core.fetchedJobs,fetchedJobs,jobList_lists_iff,getFetchedJobIds_eq]
  simp only [List.mem_map]
  rfl

theorem jobExists_of_mem_jobsOf
    (hrefs : ∀ r ∈ db.jobQueue.rows, ∃ j, r.job = some j ∧ db.jobExists j) {j : ℤ}
    (hj : j ∈ jobsOf (page startFrom perPage (queueRows queue db))) : db.jobExists j := by
  obtain ⟨r,hr,hrj⟩ := hj
  obtain ⟨j',hj',he⟩ :=
    hrefs r (List.mem_of_mem_filter (List.mem_of_mem_drop (List.mem_of_mem_take hr)))
  obtain rfl : j' = j := Option.some.inj (hj'.symm.trans hrj)
  exact he

theorem getEnqueuedJobIds_eq_ok
    (hrefs : ∀ r ∈ db.jobQueue.rows, ∃ j, r.job = some j ∧ db.jobExists j) (queue : String)
    (startFrom perPage : ℕ) : ∃ jobIds, getEnqueuedJobIds queue startFrom perPage db = .ok jobIds ∧
      ∀ j, j ∈ jobIds ↔ j ∈ jobsOf (page startFrom perPage (queueRows queue db)) := by
  have hjob : ∀ r ∈ page startFrom perPage (queueRows queue db), ∃ j, r.job = some j :=
    fun r hr => (hrefs r (List.mem_of_mem_filter (List.mem_of_mem_drop
      (List.mem_of_mem_take hr)))).imp fun _ h => h.1
  refine ⟨(page startFrom perPage (queueRows queue db)).map fun r => r.job.getD 0,?_,fun j => ?_⟩
  · rw [getEnqueuedJobIds,orderById_rows]
    refine mapM_eq_ok fun r hr => ?_
    obtain ⟨j,hj⟩ := hjob r hr
    rw [hj]
    rfl
  · rw [List.mem_map]
    constructor
    · rintro ⟨r,hr,rfl⟩
      obtain ⟨j,hj⟩ := hjob r hr
      exact ⟨r,hr,by rw [hj]; rfl⟩
    · rintro ⟨r,hr,hj⟩
      exact ⟨r,hr,by rw [hj]; rfl⟩

theorem enqueuedJobs_lists_iff
    (hrefs : ∀ r ∈ db.jobQueue.rows, ∃ j, r.job = some j ∧ db.jobExists j) (o : RowOrder JobRow) :
    (∃ l, core.enqueuedJobs queue startFrom perPage db o = .ok l ∧
      Lists l (jobsOf (page startFrom perPage (queueRows queue db)))) ↔
      ∀ job ∈ db.job.rows, job.id ∈ jobsOf (page startFrom perPage (queueRows queue db)) →
        ∃ d, core.enqueuedJob job = .ok d := by
  obtain ⟨jobIds,hids,hmem⟩ := getEnqueuedJobIds_eq_ok hrefs queue startFrom perPage
  have hjobs : {j | j ∈ jobIds ∧ db.jobExists j} =
      jobsOf (page startFrom perPage (queueRows queue db)) := by
    ext j
    rw [Set.mem_ofPred_eq,hmem]
    exact and_iff_left_of_imp (jobExists_of_mem_jobsOf hrefs)
  simp only [Core.enqueuedJobs,enqueuedJobs,hids,jobList_lists_iff,hjobs,and_true]
  simp only [hmem]
  rfl

theorem exists_page {rows : List JobQueueRow} {r : JobQueueRow} (hr : r ∈ rows) (hn : 0 < perPage) :
    ∃ startFrom, r ∈ page startFrom perPage rows := by
  obtain ⟨i,hi,rfl⟩ := List.mem_iff_getElem.mp hr
  refine ⟨i,List.mem_iff_getElem.mpr ⟨0,?_,?_⟩⟩
  · simp only [page,List.length_take,List.length_drop]
    omega
  · simp [page]

/-- Where all queue rows refer to jobs, both pages list the jobs of their rows exactly if the
ids coincide. Then only fetched jobs of the queue are listed as fetched, and where the ids
coincide on all pages every row that is counted as fetched is on one of them. -/
theorem pages_exact_iff (core : Core J) {db : Db}
    (hrefs : ∀ r ∈ db.jobQueue.rows, ∃ j, r.job = some j ∧ db.jobExists j) (queue : String)
    (perPage : ℕ) (o : RowOrder JobRow) :
    (∀ startFrom, PagesExact core queue startFrom perPage db o ↔
      IdsCoincide core queue startFrom perPage db) ∧
    (∀ startFrom, IdsCoincide core queue startFrom perPage db → ∀ l,
      core.fetchedJobs queue startFrom perPage db o = .ok l → ∀ key ∈ l.map Prod.fst,
        ∃ r ∈ db.jobQueue.rows, r.queue = queue ∧ r.fetchedAt.isSome = true ∧
          ∃ j, r.job = some j ∧ key = toString j) ∧
    ((∀ startFrom, IdsCoincide core queue startFrom perPage db) → 0 < perPage →
      (getEnqueuedAndFetchedCount queue db).2 = (fetchedRows queue db).length ∧
      ∀ r ∈ fetchedRows queue db, ∃ startFrom l j,
        core.fetchedJobs queue startFrom perPage db o = .ok l ∧ r.job = some j ∧
          toString j ∈ l.map Prod.fst) := by
  have hiff (startFrom : ℕ) : PagesExact core queue startFrom perPage db o ↔
      IdsCoincide core queue startFrom perPage db := by
    constructor
    · rintro ⟨he,hf⟩
      obtain ⟨hshow,hids⟩ := (fetchedJobs_lists_iff o).mp hf
      exact ⟨(enqueuedJobs_lists_iff hrefs o).mp he,hshow,hids⟩
    · rintro ⟨he,hshow,hids⟩
      exact ⟨(enqueuedJobs_lists_iff hrefs o).mpr he,(fetchedJobs_lists_iff o).mpr ⟨hshow,hids⟩⟩
  refine ⟨hiff,fun startFrom h l hl key hkey => ?_,fun h hn => ⟨?_,fun r hr => ?_⟩⟩
  · obtain ⟨l',hl',hlists⟩ := ((hiff startFrom).mpr h).fetched
    obtain rfl : l' = l := Except.ok.inj (hl'.symm.trans hl)
    have hshown : key ∈ {key | key ∈ l'.map Prod.fst} := hkey
    rw [hlists] at hshown
    obtain ⟨j,⟨r,hr,hj⟩,rfl⟩ := hshown
    obtain ⟨hr,hcols⟩ := List.mem_filter.mp (List.mem_of_mem_drop (List.mem_of_mem_take hr))
    rw [Bool.and_eq_true,decide_eq_true_eq] at hcols
    exact ⟨r,hr,hcols.2,hcols.1,j,hj,rfl⟩
  · rw [getEnqueuedAndFetchedCount,List.countP_map,List.countP_eq_length_filter,List.filter_filter]
    rfl
  · obtain ⟨startFrom,hpage⟩ := exists_page hr hn
    obtain ⟨l,hl,hlists⟩ := ((hiff startFrom).mpr (h startFrom)).fetched
    obtain ⟨j,hj,-⟩ := hrefs r (List.mem_of_mem_filter hr)
    have hkey : toString j ∈ {key | key ∈ l.map Prod.fst} := by
      rw [hlists]
      exact ⟨j,⟨r,hpage,hj⟩,rfl⟩
    exact ⟨startFrom,l,j,hl,hj,hkey⟩

/-- JSON state data, and jobs and dates that are always null. -/
def plainCore : Core Unit :=
  ⟨Json.helper,.asciiIgnoreCase,fun _ _ => .ok none,fun _ => .ok none⟩

/-- The store after a run: two jobs, of which the given one is enqueued and then fetched. -/
def fetchedOne (jobId : String) : Db :=
  (exec (step Json.helper 100) (initial 0) [.createExpiredJob "a" "" .empty 0 1000,
    .createExpiredJob "b" "" .empty 0 1000,.commit [(0,.addToQueue "default" jobId)],
    .dequeue .stored ["default"] "token"]).db

theorem pages_exact_first : PagesExact plainCore "default" 0 10 (fetchedOne "1") .stored ↔
    IdsCoincide plainCore "default" 0 10 (fetchedOne "1") :=
  (pages_exact_iff plainCore (by decide) "default" 10 .stored).1 0

/-- The second job is in the queue with row id 1, and the first job is listed. -/
theorem pages_not_exact :
    (∀ r ∈ (fetchedOne "2").jobQueue.rows, ∃ j, r.job = some j ∧ (fetchedOne "2").jobExists j) ∧
    fetchedRows "default" (fetchedOne "2") = [⟨1,some 2,"default",some 0,some "token"⟩] ∧
    (plainCore.fetchedJobs "default" 0 10 (fetchedOne "2") .stored).map (List.map Prod.fst) =
      .ok ["1"] ∧
    ¬ PagesExact plainCore "default" 0 10 (fetchedOne "2") .stored := by
  refine ⟨by decide,by decide,by decide,fun h => ?_⟩
  obtain ⟨-,hids⟩ := (fetchedJobs_lists_iff .stored).mp h.fetched
  have hjob : (2 : ℤ) ∈ jobsOf (page 0 10 (fetchedRows "default" (fetchedOne "2"))) :=
    ⟨⟨1,some 2,"default",some 0,some "token"⟩,by decide,rfl⟩
  rw [← hids] at hjob
  exact absurd hjob.1 (by decide)

end QueuePages
end HangfireStorage
