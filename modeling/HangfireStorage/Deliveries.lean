import HangfireStorage.JobData
import HangfireStorage.JobIdTexts
import HangfireStorage.QueueReferences

/-!
# Where deliveries come from

Each row of the queue table was put there by one AddToQueue command of a committed transaction,
and rows stand in the order of these commands. A handle tells the row it was built for.
-/

namespace HangfireStorage

open StringToInt32Converter

namespace JobQueue

def Handle.jobId (h : Handle) : String := toString h.job.jobId

end JobQueue

namespace StorageSystem

open ExpirationManager JobQueue Machine WriteOnlyTransaction

/-- Queue and job id of an AddToQueue command that inserts a row. -/
def request (c : ℤ × WriteCommand) : Option (String × String) :=
  match c.2 with
  | .addToQueue queue jobId => if (convert jobId).isSome then some (queue,jobId) else none
  | _ => none

def requestsOf (c : Call) : List (String × String) :=
  match c.2 with
  | .committed cmds => cmds.filterMap request
  | _ => []

/-- Everything that committed transactions have put into queues, in order. -/
def requests (cs : List Call) : List (String × String) := cs.flatMap requestsOf

def Created (cs : List Call) (v : ℤ) : Prop := Event.created v ∈ cs.map Prod.snd

/-- The command behind a queue row. -/
def place (row : ℤ) : ℕ := (row-1).toNat

/-- What a row says was asked for. -/
structure Requested (reqs : List (String × String)) (made : ℤ → Prop) (row : ℤ) (queue : String)
    (job : Option ℤ) : Prop where
  pos : 1 ≤ row
  asked : ∃ text, reqs[place row]? = some (queue,text) ∧ ∀ v ∈ job, convert text = some v ∧ made v

/-- The queue table in terms of the requests. -/
structure Sourced (db : Db) (reqs : List (String × String)) (made : ℤ → Prop) : Prop where
  nextId : db.jobQueue.nextId = reqs.length + 1
  jobs : ∀ v, db.jobExists v → made v
  rows : ∀ r ∈ db.jobQueue.rows, Requested reqs made r.id r.queue r.job

section Commands

variable {ser : SerializationHelper} {now : ℤ} {db db' : Db} {reqs reqs' : List (String × String)}
  {made made' : ℤ → Prop}

theorem Requested.mono {row : ℤ} {queue : String} {job : Option ℤ}
    (h : Requested reqs made row queue job) (hmade : ∀ v, made v → made' v) :
    Requested (reqs ++ reqs') made' row queue job := by
  obtain ⟨text,htext,hjob⟩ := h.asked
  have hlt : place row < reqs.length := (List.getElem?_eq_some_iff.mp htext).1
  refine ⟨h.pos,text,?_,fun v hv => ⟨(hjob v hv).1,hmade v (hjob v hv).2⟩⟩
  rw [List.getElem?_append_left hlt,htext]

/-- A row that is changed in place says the same. -/
theorem Sourced.of_rows (h : Sourced db reqs made) (hn : db'.jobQueue.nextId = db.jobQueue.nextId)
    (hr : ∀ r ∈ db'.jobQueue.rows, ∃ r₀ ∈ db.jobQueue.rows,
      r.id = r₀.id ∧ r.queue = r₀.queue ∧ r.job = r₀.job)
    (hmade : ∀ v, made v → made' v) (hjobs : ∀ v, db'.jobExists v → made' v) :
    Sourced db' reqs made' where
  nextId := by rw [hn,h.nextId]
  jobs := hjobs
  rows r hrow := by
    obtain ⟨r₀,hr₀,hid,hqueue,hjob⟩ := hr r hrow
    rw [hid,hqueue,hjob]
    have hrow₀ : Requested (reqs ++ []) made' r₀.id r₀.queue r₀.job := (h.rows r₀ hr₀).mono hmade
    rwa [List.append_nil] at hrow₀

theorem Sourced.of_jobQueue (h : Sourced db reqs made) (hq : db'.jobQueue = db.jobQueue)
    (hmade : ∀ v, made v → made' v) (hjobs : ∀ v, db'.jobExists v → made' v) :
    Sourced db' reqs made' :=
  h.of_rows (by rw [hq]) (fun r hr => ⟨r,hq ▸ hr,rfl,rfl,rfl⟩) hmade hjobs

theorem run_jobQueue_of_no_request {c : WriteCommand} (h : run ser now db c = .ok db')
    (hc : request (now,c) = none) : db'.jobQueue = db.jobQueue := by
  cases run_effect h with
  | same hs => exact hs.jobQueue
  | expiry | setState | addState => rfl
  | enqueue hv => simp [request,hv] at hc

theorem Sourced.run {c : WriteCommand} (h : Sourced db reqs made) (hr : run ser now db c = .ok db') :
    Sourced db' (reqs ++ (request (now,c)).toList) made := by
  have hjobs : ∀ v, db'.jobExists v → made v := fun v hv => h.jobs v ((run_jobExists hr v).mp hv)
  cases hc : request (now,c) with
  | none =>
    simpa using h.of_jobQueue (run_jobQueue_of_no_request hr hc) (fun _ => id) hjobs
  | some req =>
    obtain ⟨queue,j,rfl⟩ : ∃ queue j, c = .addToQueue queue j := by
      cases c <;> first | exact ⟨_,_,rfl⟩ | cases hc
    obtain ⟨hnone,-⟩ | ⟨v,hv,rfl⟩ := enqueue_eq_ok hr
    · simp [request,hnone] at hc
    · obtain rfl : (queue,j) = req := by simpa [request,hv] using hc
      refine ⟨?_,h.jobs,fun r hrow => ?_⟩
      · simp [h.nextId]
      · obtain hrow | hrow := List.mem_append.mp hrow
        · exact (h.rows r hrow).mono fun _ => id
        · rw [List.mem_singleton.mp hrow]
          have hplace : place db.jobQueue.nextId = reqs.length := by
            rw [place,h.nextId]
            omega
          refine ⟨by simp only [Row.withId,h.nextId]; omega,j,by simp [Row.withId,hplace],?_⟩
          intro w hw
          obtain ⟨job,hjob,rfl⟩ := Option.map_eq_some_iff.mp (Option.mem_def.mp hw)
          have hid : job.id = v := Table.id_of_byId hjob
          rw [hid]
          exact ⟨hv,h.jobs v (Db.jobExists_iff_byId.mpr (by simp [hjob]))⟩

theorem Sourced.commit {cmds : List (ℤ × WriteCommand)} (h : Sourced db reqs made)
    (hc : commit ser cmds db = .ok db') : Sourced db' (reqs ++ cmds.filterMap request) made := by
  induction cmds generalizing db reqs with
  | nil =>
    cases hc
    simpa using h
  | cons c cs ih =>
    obtain ⟨db₁,h₁,hcs⟩ := commit_cons_eq_ok.mp hc
    have hrest := ih (h.run h₁) hcs
    rw [List.append_assoc] at hrest
    have hcons : (request c).toList ++ cs.filterMap request = (c::cs).filterMap request := by
      cases hreq : request c <;> simp [hreq]
    rwa [hcons] at hrest

end Commands

def deliveries (s : StorageState) : List FetchedJob := s.handles.map Handle.job

/-- Queue rows and handles in terms of the calls so far. -/
structure Delivered (s : StorageState) (cs : List Call) : Prop where
  sourced : Sourced s.db (requests cs) (Created cs)
  handles : ∀ job ∈ deliveries s, Requested (requests cs) (Created cs) job.id job.queue job.jobId
  asked : ∀ o queues token i row now,
    ((.dequeue o queues token,.fetched i row now) : Call) ∈ cs →
      ∃ job, (deliveries s)[i]? = some job ∧ job.id = row ∧ job.queue ∈ queues

section Steps

variable {ser : SerializationHelper} {T : ℤ} {s s' : StorageState} {cs : List Call} {c : Call}

theorem requests_append : requests (cs ++ [c]) = requests cs ++ requestsOf c := by
  simp [requests]

theorem Created.append {v : ℤ} (h : Created cs v) : Created (cs ++ [c]) v := by
  rw [Created,List.map_append]
  exact List.mem_append_left _ h

theorem created_snoc {v : ℤ} {a : Action} : Created (cs ++ [(a,.created v)]) v := by
  simp [Created]

theorem deliveries_set {i : ℕ} {h h' : Handle} (hi : s.handles[i]? = some h) (hj : h'.job = h.job) :
    (s.handles.set i h').map Handle.job = deliveries s := by
  obtain ⟨hlt,rfl⟩ := List.getElem?_eq_some_iff.mp hi
  rw [List.map_set,hj,deliveries]
  refine List.ext_getElem (by simp) fun j h₁ h₂ => ?_
  rw [List.getElem_set]
  split_ifs with hij
  · subst hij
    simp
  · rfl

theorem Delivered.keep (h : Delivered s cs)
    (hsourced : Sourced s'.db (requests (cs ++ [c])) (Created (cs ++ [c])))
    (hd : deliveries s' = deliveries s) (hc : ∀ i row now, c.2 ≠ .fetched i row now) :
    Delivered s' (cs ++ [c]) where
  sourced := hsourced
  handles job hjob := by
    rw [hd] at hjob
    rw [requests_append]
    exact (h.handles job hjob).mono fun v hv => hv.append
  asked o queues token i row now hmem := by
    rw [hd]
    obtain hmem | hmem := List.mem_append.mp hmem
    · exact h.asked o queues token i row now hmem
    · rw [List.mem_singleton] at hmem
      exact absurd (congrArg Prod.snd hmem).symm (hc i row now)

theorem Delivered.keep_rows (h : Delivered s cs) (hreq : requestsOf c = [])
    (hn : s'.db.jobQueue.nextId = s.db.jobQueue.nextId)
    (hr : ∀ r ∈ s'.db.jobQueue.rows, ∃ r₀ ∈ s.db.jobQueue.rows,
      r.id = r₀.id ∧ r.queue = r₀.queue ∧ r.job = r₀.job)
    (hjobs : ∀ v, s'.db.jobExists v → s.db.jobExists v) (hd : deliveries s' = deliveries s)
    (hc : ∀ i row now, c.2 ≠ .fetched i row now) : Delivered s' (cs ++ [c]) := by
  refine h.keep ?_ hd hc
  rw [requests_append,hreq,List.append_nil]
  exact h.sourced.of_rows hn hr (fun v hv => hv.append)
    fun v hv => (h.sourced.jobs v (hjobs v hv)).append

theorem Delivered.keep_jobQueue (h : Delivered s cs) (hreq : requestsOf c = [])
    (hq : s'.db.jobQueue = s.db.jobQueue) (hjobs : s'.db.job = s.db.job)
    (hd : deliveries s' = deliveries s) (hc : ∀ i row now, c.2 ≠ .fetched i row now) :
    Delivered s' (cs ++ [c]) :=
  h.keep_rows hreq (by rw [hq]) (fun r hr => ⟨r,hq ▸ hr,rfl,rfl,rfl⟩)
    (fun v hv => by rwa [Db.jobExists,hjobs] at hv) hd hc

theorem mem_modify_jobQueue {t : Table JobQueueRow} {p : JobQueueRow → Bool} {v : Option ℤ}
    {r : JobQueueRow} (hr : r ∈ (t.modify p (setFetchedAt v)).rows) :
    ∃ r₀ ∈ t.rows, r.id = r₀.id ∧ r.queue = r₀.queue ∧ r.job = r₀.job := by
  obtain ⟨r₀,hr₀,rfl⟩ := List.mem_map.mp hr
  refine ⟨r₀,hr₀,?_⟩
  split_ifs <;> exact ⟨rfl,rfl,rfl⟩

theorem mem_put_jobQueue {t : Table JobQueueRow} {i r : JobQueueRow} {token : String} {now : ℤ}
    (hi : i ∈ t.rows) (hr : r ∈ (t.put (marked token now i)).rows) :
    ∃ r₀ ∈ t.rows, r.id = r₀.id ∧ r.queue = r₀.queue ∧ r.job = r₀.job := by
  obtain ⟨r₀,hr₀,rfl⟩ := List.mem_map.mp hr
  split_ifs with hid
  · exact ⟨i,hi,rfl,rfl,rfl⟩
  · exact ⟨r₀,hr₀,rfl,rfl,rfl⟩

theorem Delivered.deleteRows (h : Delivered s cs) {batch : List ℤ} {k : Kind}
    (hdb : s'.db = deleteRows batch s.db k) (hd : deliveries s' = deliveries s)
    (hreq : requestsOf c = []) (hc : ∀ i row now, c.2 ≠ .fetched i row now) :
    Delivered s' (cs ++ [c]) := by
  have hsub : s'.db.jobQueue.rows ⊆ s.db.jobQueue.rows ∧ s'.db.job.rows ⊆ s.db.job.rows ∧
      s'.db.jobQueue.nextId = s.db.jobQueue.nextId := by
    rw [hdb]
    cases k <;> simp [ExpirationManager.deleteRows,SqlUtil.deleteBatch]
  exact h.keep_rows hreq hsub.2.2 (fun r hr => ⟨r,hsub.1 hr,rfl,rfl,rfl⟩)
    (fun v hv => hv.imp fun j hj => hj.imp_left (hsub.2.1 ·)) hd hc

theorem delivered_step (h : Delivered s cs) (a : Action) :
    Delivered (step ser T s a).1 (cs ++ [(a,(step ser T s a).2)]) := by
  have he : StepEffect ser T s a _ _ := step_effect a
  generalize (step ser T s a).1 = s', (step ser T s a).2 = e at he ⊢
  cases he with
  | @committed cmds db hcommit =>
    have hs := h.sourced.commit hcommit
    refine h.keep ?_ rfl (by simp)
    rw [requests_append]
    refine hs.of_jobQueue rfl (fun v hv => ?_) fun v hv => ?_
    · exact Created.append hv
    · exact (hs.jobs v hv).append
  | created =>
    refine h.keep ?_ rfl (by simp)
    rw [requests_append]
    simp only [requestsOf,List.append_nil]
    refine h.sourced.of_jobQueue rfl (fun v hv => hv.append) ?_
    rintro v ⟨r,hr,rfl⟩
    obtain hr | hr := List.mem_append.mp hr
    · exact (h.sourced.jobs r.id ⟨r,hr,rfl⟩).append
    · rw [List.mem_singleton.mp hr]
      exact created_snoc
  | @fetched o queues token i j hi hel hq hj =>
    have hrow := h.sourced.rows i hi
    have hsub : ∀ (k : ℕ) (job : FetchedJob), (deliveries s)[k]? = some job →
        (deliveries s ++ [⟨i.id,j,i.queue⟩])[k]? = some job := by
      intro k job hk
      rw [List.getElem?_append_left (List.getElem?_eq_some_iff.mp hk).1,hk]
    refine ⟨?_,fun job hjob => ?_,fun o' queues' token' k row now hmem => ?_⟩
    · rw [requests_append]
      simp only [requestsOf,List.append_nil]
      exact h.sourced.of_rows rfl (fun r hr => mem_put_jobQueue hi hr) (fun v hv => hv.append)
        fun v hv => (h.sourced.jobs v hv).append
    · rw [requests_append]
      simp only [deliveries,List.map_append,List.mem_append,List.map_cons,List.map_nil,
        List.mem_singleton] at hjob
      obtain hjob | rfl := hjob
      · exact (h.handles job hjob).mono fun v hv => hv.append
      · rw [hj] at hrow
        exact hrow.mono fun v hv => hv.append
    · rw [deliveries,List.map_append]
      obtain hmem | hmem := List.mem_append.mp hmem
      · obtain ⟨job,hk,hid,hqueue⟩ := h.asked o' queues' token' k row now hmem
        exact ⟨job,hsub k job hk,hid,hqueue⟩
      · cases List.mem_singleton.mp hmem
        exact ⟨⟨i.id,j,i.queue⟩,by simp [Handle.new],rfl,hq⟩
  | removed hc hi =>
    exact h.keep_rows rfl rfl (fun r hr => ⟨r,List.mem_of_mem_filter hr,rfl,rfl,rfl⟩)
      (fun v => id) (deliveries_set hi rfl) (by simp)
  | requeued hc hi | disposeRequeued hc hi =>
    exact h.keep_rows rfl rfl (fun r hr => mem_modify_jobQueue hr) (fun v => id)
      (deliveries_set hi rfl) (by simp)
  | disposed hi hd => exact h.keep_jobQueue rfl rfl rfl (deliveries_set hi rfl) (by simp)
  | aggregated hp =>
    obtain ⟨items,t,-,-,rfl⟩ := CountersAggregator.pass_eq_ok hp
    exact h.keep_jobQueue rfl rfl rfl rfl (by simp)
  | deleted hi hp hr => exact h.deleteRows rfl rfl rfl (by simp)
  | idle | failed | advanced | crashed | inserted | reused | released | releasedAgain | selected
  | deletedNothing | deleteFailed => exact h.keep_jobQueue rfl rfl rfl rfl (by simp)

theorem delivered_exec (now : ℤ) (as : List Action) :
    Delivered (exec (step ser T) (initial now) as) (calls ser T (initial now) as) := by
  induction as using List.reverseRecOn with
  | nil =>
    refine ⟨⟨rfl,?_,?_⟩,?_,?_⟩ <;> simp [initial,Db.empty,deliveries,calls,Db.jobExists]
  | append_singleton as a ih =>
    rw [exec_append,calls_append_singleton]
    exact delivered_step ih a

end Steps

/-- In every run of the storage system each handle was built for a row that one committed
AddToQueue command has put into the queue, for a job that was created before, and rows are in the
order of these commands. The job id of the handle names the job that the command named, and the
queue is one of those that Dequeue was called with. -/
theorem deliveries_were_asked_for (ser : SerializationHelper) (T now : ℤ) (as : List Action) :
    let s := exec (step ser T) (initial now) as
    let cs := calls ser T (initial now) as
    (∃ place : ℤ → ℕ, ∀ h ∈ s.handles,
      (∃ text, (requests cs)[place h.job.id]? = some (h.job.queue,text) ∧
        convert text = some h.job.jobId ∧ convert h.jobId = some h.job.jobId ∧
        Created cs h.job.jobId) ∧
      ∀ h' ∈ s.handles, h.job.id < h'.job.id → place h.job.id < place h'.job.id) ∧
    ∀ o queues token i row now,
      ((.dequeue o queues token,.fetched i row now) : Call) ∈ cs →
        ∃ h, s.handles[i]? = some h ∧ h.job.id = row ∧ h.job.queue ∈ queues := by
  intro s cs
  have hd : Delivered s cs := delivered_exec now as
  have hreq : ∀ h ∈ s.handles, Requested (requests cs) (Created cs) h.job.id h.job.queue h.job.jobId :=
    fun h hh => hd.handles h.job (List.mem_map_of_mem hh)
  refine ⟨⟨place,fun h hh => ⟨?_,fun h' hh' hlt => ?_⟩⟩,?_⟩
  · obtain ⟨text,htext,hjob⟩ := (hreq h hh).asked
    obtain ⟨hconv,hmade⟩ := hjob _ rfl
    exact ⟨text,htext,hconv,convert_toString (inRange_of_convert hconv),hmade⟩
  · have hpos := (hreq h hh).pos
    unfold place
    omega
  · intro o queues token i row now hmem
    obtain ⟨job,hjob,hid,hqueue⟩ := hd.asked o queues token i row now hmem
    obtain ⟨h,hh,rfl⟩ : ∃ h, s.handles[i]? = some h ∧ h.job = job := by
      simpa [deliveries] using hjob
    exact ⟨h,hh,hid,hqueue⟩

end StorageSystem
end HangfireStorage
