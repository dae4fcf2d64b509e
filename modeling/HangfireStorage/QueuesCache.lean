import HangfireStorage.KeyedSums
import HangfireStorage.StorageSystem
import HangfireStorage.TimedCache

/-!
# The queue names of the dashboard

GetQueues keeps its answer for five seconds while the clients of the storage go on. An empty
answer is never kept.
-/

namespace HangfireStorage
namespace QueuesCache

open Machine StorageSystem TimedCache

/-- `TimeSpan.FromSeconds(5)`. -/
def queuesCacheTimeout : ℤ := 50000000

def distinctQueues (o : RowOrder String) (db : Db) : List String :=
  o.arrange (db.jobQueue.rows.map JobQueueRow.queue).eraseDups

def policy : Policy StorageState (List String) (RowOrder String) Fault where
  now s := s.now
  wait s elapsed := { s with now := s.now+elapsed }
  now_wait _ _ := rfl
  fetch o s := distinctQueues o s.db
  blank queuesCache := queuesCache.isEmpty
  deadline cacheUpdated := DateTime.add cacheUpdated queuesCacheTimeout
  timeout := queuesCacheTimeout
  deadline_eq _ _ h := (DateTime.add_eq_ok.mp h).2

abbrev MonitorState := CacheState StorageState (List String)

/-- The storage system with calls of GetQueues, each with the time between its query and its
second look at the clock. -/
def monitorStep (ser : SerializationHelper) (T : ℤ) :
    MonitorState → TimedCache.Action StorageSystem.Action (RowOrder String) →
      MonitorState × TimedCache.Event StorageSystem.Event (List String) Fault :=
  TimedCache.step policy (StorageSystem.step ser T)

def monitoring (s : StorageState) : MonitorState := ⟨s,[],0⟩

/-- The names of the queues that have rows, each once. -/
structure Names (l : List String) (db : Db) : Prop where
  nodup : l.Nodup
  mem_iff : ∀ q, q ∈ l ↔ ∃ i ∈ db.jobQueue.rows, i.queue = q

theorem distinctQueues_names (o : RowOrder String) (db : Db) : Names (distinctQueues o db) db where
  nodup := (o.perm _).nodup_iff.mpr (nodup_eraseDups _)
  mem_iff q := by
    rw [distinctQueues,o.mem_arrange,List.mem_eraseDups,List.mem_map]

abbrev MonitorAction := TimedCache.Action StorageSystem.Action (RowOrder String)

/-- The queues after a run, or, unless there are none, the queues at a GetQueues call of the run at
most five seconds ago, and the time that call took. -/
def Recent (ser : SerializationHelper) (T : ℤ) (s : StorageState) (as : List MonitorAction)
    (l : List String) : Prop :=
  Names l (exec (monitorStep ser T) (monitoring s) as).state.db ∨
  (l ≠ [] ∧ ∃ before o', ∃ elapsed' : ℕ, before ++ [.lookup o' elapsed'] <+: as ∧
    Names l (exec (monitorStep ser T) (monitoring s) before).state.db ∧
    (exec (monitorStep ser T) (monitoring s) as).state.now ≤
      (exec (monitorStep ser T) (monitoring s) before).state.now + elapsed' + queuesCacheTimeout)

theorem getQueues_recent {ser : SerializationHelper} {T : ℤ} {s : StorageState}
    {as : List MonitorAction} (o : RowOrder String) (elapsed : ℕ) {l : List String}
    (h : (monitorStep ser T (exec (monitorStep ser T) (monitoring s) as) (.lookup o elapsed)).2 =
      .found l) : Recent ser T s as l := by
  rcases lookup_recent (c := monitoring s) rfl as h with rfl | ⟨hb,before,o',elapsed',hpre,rfl,hle⟩
  · exact .inl (distinctQueues_names o _)
  · refine .inr ⟨?_,before,o',elapsed',hpre,distinctQueues_names o' _,hle⟩
    rintro hnil
    rw [hnil] at hb
    cases hb

/-- One queue row, asked for, and then taken away three seconds before the next question. -/
def takenAway : List MonitorAction :=
  [.env (.createExpiredJob "job" "[]" .empty 0 1),.env (.commit [(0,.addToQueue "default" "1")]),
    .lookup .stored 1,.env (.dequeue .stored ["default"] "token"),.env (.removeFromQueue 0 false),
    .env (.advance 30000000)]

theorem getQueues_recent_takenAway :
    Recent Json.helper 10000 (initial 20000) takenAway ["default"] :=
  getQueues_recent .stored 1 (by decide)

end QueuesCache
end HangfireStorage
