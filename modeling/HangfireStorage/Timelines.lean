import HangfireStorage.Calendar
import HangfireStorage.CounterConservation
import HangfireStorage.FiniteMaps
import HangfireStorage.JobStorageConnection

/-!
# The charts of the dashboard

Succeeded and failed jobs of the last seven days and of the last twenty-four hours. The charts
read the AggregatedCounter table alone, by keys that spell the date. Dates are written as in the
invariant culture, in the Gregorian calendar and with ASCII digits.
-/

namespace HangfireStorage
namespace MonitoringApi

open JobStorageConnection FiniteMap

def ticksPerHour : ℤ := 36000000000

def ticksPerDay : ℤ := 864000000000

/-- `DateTime.Date`. -/
def dateOf (t : ℤ) : ℤ := t - t % ticksPerDay

/-- `yyyy-MM-dd`. -/
def dayText (t : ℤ) : String :=
  String.ofList (Calendar.formatDate (Calendar.dateOfDays (t/ticksPerDay).toNat))

/-- `yyyy-MM-dd-HH`. -/
def hourText (t : ℤ) : String :=
  String.ofList (Calendar.formatDate (Calendar.dateOfDays (t/ticksPerDay).toNat) ++
    '-' :: Calendar.digits 2 (t/ticksPerHour % 24).toNat)

def timelineKey (text : ℤ → String) (type : String) (x : ℤ) : String :=
  "stats:" ++ type ++ ":" ++ text x

section Dictionaries

variable {κ α β : Type} [DecidableEq κ]

/-- `Add` of a dictionary, entries in enumeration order. -/
def addEntry (d : List (κ × α)) (e : κ × α) : Except Fault (List (κ × α)) :=
  if e.1 ∈ d.map Prod.fst then .error .argument else .ok (d ++ [e])

def dictionaryOf (entries : List (κ × α)) : Except Fault (List (κ × α)) :=
  entries.foldlM addEntry []

/-- `if (!ContainsKey(key)) Add(key, 0)`. -/
def addMissing (d : List (κ × ℤ)) (key : κ) : Except Fault (List (κ × ℤ)) :=
  if key ∈ d.map Prod.fst then .ok d else addEntry d (key,0)

def itemOf (d : List (κ × α)) (key : κ) : Except Fault α :=
  match d.find? fun e => e.1 = key with
  | none => .error .keyNotFound
  | some e => .ok e.2

theorem addEntries_eq {d entries : List (κ × α)} (h : ((d ++ entries).map Prod.fst).Nodup) :
    entries.foldlM addEntry d = .ok (d ++ entries) := by
  induction entries generalizing d with
  | nil => simp [pure,Except.pure]
  | cons e entries ih =>
    have hsplit := List.nodup_append.mp (List.map_append ▸ h)
    have hnot : e.1 ∉ d.map Prod.fst := fun he => hsplit.2.2 e.1 he e.1 (by simp) rfl
    rw [foldlM_cons_eq_ok]
    exact ⟨d ++ [e],if_neg hnot,by rw [ih (by simpa using h)]; simp⟩

theorem dictionaryOf_eq {entries : List (κ × α)} (h : (entries.map Prod.fst).Nodup) :
    dictionaryOf entries = .ok entries := addEntries_eq (by simpa using h)

theorem addAllMissing {d : List (κ × ℤ)} {m : κ → Option ℤ} (h : Represents d m) (keys : List κ) :
    ∃ d', keys.foldlM addMissing d = .ok d' ∧
      Represents d' fun k => if k ∈ keys then some ((m k).getD 0) else m k := by
  induction keys generalizing d m with
  | nil => exact ⟨d,rfl,by simpa using h⟩
  | cons key keys ih =>
    simp only [foldlM_cons_eq_ok]
    by_cases hkey : key ∈ d.map Prod.fst
    · obtain ⟨v,hv⟩ := h.mem_keys.mp hkey
      obtain ⟨d',hd',hr⟩ := ih h
      refine ⟨d',⟨d,if_pos hkey,hd'⟩,?_⟩
      convert hr using 1
      funext k
      by_cases hk : k = key <;> simp [hk,hv]
    · have hnone : m key = none := by
        rw [h.mem_keys,not_exists] at hkey
        exact Option.eq_none_iff_forall_not_mem.mpr hkey
      obtain ⟨d',hd',hr⟩ := ih (h.append hnone 0)
      refine ⟨d',⟨d ++ [(key,0)],?_,hd'⟩,?_⟩
      · rw [addMissing,if_neg hkey,addEntry,if_neg hkey]
      · convert hr using 1
        funext k
        by_cases hk : k = key
        · simp [hk,hnone]
        · simp [hk]

theorem itemOf_eq {d : List (κ × α)} {m : κ → Option α} (h : Represents d m) {k : κ} {v : α}
    (hk : m k = some v) : itemOf d k = .ok v := by
  have hfind := congrFun ((Represents.find h.distinct).unique h) k
  rw [hk,Option.map_eq_some_iff] at hfind
  obtain ⟨e,he,rfl⟩ := hfind
  rw [itemOf,he]

end Dictionaries

/-- `for (i = 0; i < n; i++) { dates.Add(endDate); endDate = endDate - span; }` -/
def datesBack (span : ℤ) : ℕ → ℤ → Except Fault (List ℤ)
  | 0, _ => .ok []
  | n+1, endDate =>
    match DateTime.add endDate (-span) with
    | .error f => .error f
    | .ok previous => (datesBack span n previous).map fun dates => endDate::dates

def timelineEntry (valuesMap : List (String × ℤ)) (result : List (ℤ × ℤ)) (k : String × ℤ) :
    Except Fault (List (ℤ × ℤ)) :=
  match itemOf valuesMap k.1 with
  | .error f => .error f
  | .ok value => addEntry result (k.2,value)

/-- `GetTimelineStats` on the keys of the chart, each with its date. -/
def timelineStats (o : RowOrder CounterRow) (keyMaps : List (String × ℤ)) (db : Db) :
    Except Fault (List (ℤ × ℤ)) :=
  let rows := o.arrange (db.aggregatedCounter.rows.filter fun i =>
    (keyMaps.map Prod.fst).contains i.key)
  match dictionaryOf (rows.map fun x => (x.key,x.value)) with
  | .error f => .error f
  | .ok valuesMap =>
    match (keyMaps.map Prod.fst).foldlM addMissing valuesMap with
    | .error f => .error f
    | .ok valuesMap => keyMaps.foldlM (timelineEntry valuesMap) []

/-- The chart of `n` dates that lie `span` apart. -/
def timeline (text : ℤ → String) (span : ℤ) (n : ℕ) (type : String) (endDate : ℤ)
    (o : RowOrder CounterRow) (db : Db) : Except Fault (List (ℤ × ℤ)) :=
  match datesBack span n endDate with
  | .error f => .error f
  | .ok dates =>
    match dictionaryOf (dates.map fun x => (timelineKey text type x,x)) with
    | .error f => .error f
    | .ok keyMaps => timelineStats o keyMaps db

def getTimelineStats (type : String) (utcNow : ℤ) (o : RowOrder CounterRow) (db : Db) :
    Except Fault (List (ℤ × ℤ)) :=
  timeline dayText ticksPerDay 7 type (dateOf utcNow) o db

def getHourlyTimelineStats (type : String) (utcNow : ℤ) (o : RowOrder CounterRow) (db : Db) :
    Except Fault (List (ℤ × ℤ)) :=
  timeline hourText ticksPerHour 24 type utcNow o db

def succeededByDatesCount := getTimelineStats "succeeded"

def failedByDatesCount := getTimelineStats "failed"

def hourlySucceededJobs := getHourlyTimelineStats "succeeded"

def hourlyFailedJobs := getHourlyTimelineStats "failed"

section Values

variable {o : RowOrder CounterRow} {keyMaps : List (String × ℤ)} {db : Db}

theorem timelineEntries_eq {valuesMap : List (String × ℤ)} {v : String → ℤ}
    (hvalue : ∀ k ∈ keyMaps, itemOf valuesMap k.1 = .ok (v k.1)) {result : List (ℤ × ℤ)}
    (hd : ((result ++ keyMaps.map fun k => (k.2,v k.1)).map Prod.fst).Nodup) :
    keyMaps.foldlM (timelineEntry valuesMap) result =
      .ok (result ++ keyMaps.map fun k => (k.2,v k.1)) := by
  induction keyMaps generalizing result with
  | nil => simp [pure,Except.pure]
  | cons k keyMaps ih =>
    have hsplit := List.nodup_append.mp (List.map_append ▸ hd)
    have hnot : k.2 ∉ result.map Prod.fst := fun he => hsplit.2.2 k.2 he k.2 (by simp) rfl
    rw [foldlM_cons_eq_ok]
    refine ⟨result ++ [(k.2,v k.1)],?_,?_⟩
    · rw [timelineEntry,hvalue k (by simp)]
      exact if_neg hnot
    · rw [ih (fun k hk => hvalue k (by simp [hk])) (by simpa using hd)]
      simp

/-- The rows of a key are one row or none, and their sum is what the dictionary holds. -/
theorem values_of_key (hu : (db.aggregatedCounter.rows.map CounterRow.key).Nodup)
    (o : RowOrder CounterRow) (keys : List String) :
    ∃ m, Represents ((o.arrange (db.aggregatedCounter.rows.filter fun i => keys.contains i.key)).map
        fun x => (x.key,x.value)) m ∧
      ∀ k ∈ keys, (m k).getD 0 = (valuesOf k db.aggregatedCounter).sum := by
  have hperm := o.perm (db.aggregatedCounter.rows.filter fun i => keys.contains i.key)
  have hd : (((o.arrange (db.aggregatedCounter.rows.filter fun i => keys.contains i.key)).map
      fun x => (x.key,x.value)).map Prod.fst).Nodup := by
    rw [List.map_map]
    exact (hperm.map CounterRow.key).nodup_iff.mpr (hu.sublist (List.filter_sublist.map _))
  have hr := Represents.find hd
  refine ⟨_,hr,fun k hk => ?_⟩
  have hrows : ((((o.arrange (db.aggregatedCounter.rows.filter fun i => keys.contains i.key)).map
      fun x => (x.key,x.value)).filter fun e => e.1 = k).map Prod.snd).Perm
      (valuesOf k db.aggregatedCounter) := by
    rw [List.filter_map,List.map_map,valuesOf]
    refine ((hperm.filter _).map _).trans (List.Perm.of_eq ?_)
    rw [List.filter_filter]
    refine congrArg (List.map CounterRow.value) (List.filter_congr fun r _ => ?_)
    by_cases hr : r.key = k <;> simp [hr,hk]
  rw [← hrows.sum_eq,hr.filter_key k]
  cases (((o.arrange (db.aggregatedCounter.rows.filter fun i => keys.contains i.key)).map
    fun x => (x.key,x.value)).find? fun e => e.1 = k).map Prod.snd <;> simp

theorem timelineStats_eq (hdates : (keyMaps.map Prod.snd).Nodup)
    (hu : (db.aggregatedCounter.rows.map CounterRow.key).Nodup) :
    timelineStats o keyMaps db =
      .ok (keyMaps.map fun k => (k.2,(valuesOf k.1 db.aggregatedCounter).sum)) := by
  obtain ⟨m,hm,hvalue⟩ := values_of_key hu o (keyMaps.map Prod.fst)
  obtain ⟨valuesMap,hmissing,hr⟩ := addAllMissing hm (keyMaps.map Prod.fst)
  have hitem : ∀ k ∈ keyMaps,
      itemOf valuesMap k.1 = .ok (valuesOf k.1 db.aggregatedCounter).sum := by
    intro k hk
    have hmem : k.1 ∈ keyMaps.map Prod.fst := List.mem_map.mpr ⟨k,hk,rfl⟩
    exact itemOf_eq hr (by rw [if_pos hmem,hvalue k.1 hmem])
  rw [timelineStats,dictionaryOf_eq hm.distinct]
  simp only [hmissing]
  rw [timelineEntries_eq (v := fun k => (valuesOf k db.aggregatedCounter).sum) hitem
    (by simpa [Function.comp_def] using hdates)]
  simp

end Values

section Dates

variable {text : ℤ → String} {span endDate : ℤ} {n : ℕ}

def dates (span : ℤ) (n : ℕ) (endDate : ℤ) : List ℤ := (List.range n).map fun i : ℕ => endDate - i*span

theorem dates_succ : dates span (n+1) endDate = endDate::dates span n (endDate-span) := by
  rw [dates,dates,List.range_succ_eq_map,List.map_cons,List.map_map]
  refine congrArg₂ _ (by simp) (List.map_congr_left fun i _ => ?_)
  simp only [Function.comp_apply,Nat.cast_succ]
  ring

/-- One date more is computed than is shown. -/
theorem datesBack_eq (hspan : 0 ≤ span) (hend : DateTime.InRange endDate) :
    datesBack span n endDate =
      if n*span ≤ endDate then .ok (dates span n endDate) else .error .argumentOutOfRange := by
  obtain ⟨h₀,h₁⟩ := hend
  induction n generalizing endDate with
  | zero => simp [datesBack,dates,h₀]
  | succ n ih =>
    rw [datesBack,dates_succ]
    have hn : (n+1 : ℕ)*span = n*span+span := by push_cast; ring
    have hpos : 0 ≤ n*span := by positivity
    by_cases hprev : DateTime.InRange (endDate + -span)
    · rw [DateTime.add_of_inRange hprev]
      simp only
      rw [← sub_eq_add_neg] at hprev ⊢
      rw [ih hprev.1 hprev.2,hn]
      by_cases hle : n*span ≤ endDate-span
      · rw [if_pos hle,if_pos (by omega)]
        rfl
      · rw [if_neg hle,if_neg (by omega)]
        rfl
    · have hlow : endDate < span := by
        by_contra hle
        exact hprev ⟨by omega,by omega⟩
      rw [DateTime.add_eq_error.mpr ⟨hprev,rfl⟩,if_neg (by rw [hn]; omega)]

theorem nodup_dates (hspan : 0 < span) : (dates span n endDate).Nodup := by
  refine List.nodup_range.map fun i j h => ?_
  have hmul : (i:ℤ)*span = j*span := by simpa using h
  exact_mod_cast mul_right_cancel₀ hspan.ne' hmul

theorem mem_dates (hspan : 0 < span) (hend : DateTime.InRange endDate) (hn : n*span ≤ endDate)
    {x : ℤ} (hx : x ∈ dates span n endDate) :
    DateTime.InRange x ∧ ∃ i : ℕ, x = endDate - i*span := by
  obtain ⟨i,hi,rfl⟩ := List.mem_map.mp hx
  have hle : (i:ℤ)*span ≤ n*span :=
    mul_le_mul_of_nonneg_right (by exact_mod_cast (List.mem_range.mp hi).le) hspan.le
  have hpos : 0 ≤ (i:ℤ)*span := by positivity
  obtain ⟨h₀,h₁⟩ := hend
  exact ⟨⟨by omega,by omega⟩,i,rfl⟩

/-- The texts tell dates apart that lie a whole number of spans from each other. -/
def Tells (text : ℤ → String) (span : ℤ) : Prop :=
  ∀ x y, DateTime.InRange x → DateTime.InRange y → text x = text y → x/span = y/span

theorem day_lt {x : ℤ} (hx : DateTime.InRange x) : (x/ticksPerDay).toNat < 3652059 := by
  obtain ⟨h₀,h₁⟩ := hx
  unfold DateTime.maxTicks at h₁
  unfold ticksPerDay
  omega

theorem day_inj {x y : ℤ} (hx : DateTime.InRange x) (hy : DateTime.InRange y)
    (h : Calendar.formatDate (Calendar.dateOfDays (x/ticksPerDay).toNat) =
      Calendar.formatDate (Calendar.dateOfDays (y/ticksPerDay).toNat)) :
    x/ticksPerDay = y/ticksPerDay := by
  have hday := Calendar.formatDate_dateOfDays_inj (day_lt hx) (day_lt hy) h
  have hx₀ : 0 ≤ x/ticksPerDay := Int.ediv_nonneg hx.1 (by decide)
  have hy₀ : 0 ≤ y/ticksPerDay := Int.ediv_nonneg hy.1 (by decide)
  omega

theorem dayText_tells : Tells dayText ticksPerDay := fun _ _ hx hy h =>
  day_inj hx hy (String.ofList_injective h)

theorem hourText_tells : Tells hourText ticksPerHour := by
  intro x y hx hy h
  obtain ⟨hdate,hhour⟩ := List.append_inj (String.ofList_injective h) (by simp [Calendar.formatDate])
  have hday := day_inj hx hy hdate
  have hlt (z : ℤ) : (z/ticksPerHour % 24).toNat < 10^2 := by
    have := Int.emod_lt_of_pos (z/ticksPerHour) (show (0:ℤ) < 24 by decide)
    omega
  have hmod := Calendar.digits_inj (hlt x) (hlt y) (List.cons.inj hhour).2
  unfold ticksPerDay at hday
  unfold ticksPerHour at hmod ⊢
  omega

theorem timelineKey_injective (type : String) {a b : String}
    (h : "stats:" ++ type ++ ":" ++ a = "stats:" ++ type ++ ":" ++ b) : a = b :=
  (String.append_right_inj _).mp h

theorem nodup_keys (hspan : 0 < span) (htells : Tells text span) (hend : DateTime.InRange endDate)
    (hn : n*span ≤ endDate) (type : String) :
    ((dates span n endDate).map (timelineKey text type)).Nodup := by
  refine List.Nodup.map_on (fun x hx y hy h => ?_) (nodup_dates hspan)
  obtain ⟨hxr,i,rfl⟩ := mem_dates hspan hend hn hx
  obtain ⟨hyr,j,rfl⟩ := mem_dates hspan hend hn hy
  have hdiv := htells _ _ hxr hyr (timelineKey_injective type h)
  have hquot (k : ℕ) : (endDate - k*span)/span = endDate/span - k := by
    rw [sub_eq_add_neg,← neg_mul,Int.add_mul_ediv_right _ _ hspan.ne',sub_eq_add_neg]
  rw [hquot,hquot] at hdiv
  rw [show i = j by omega]

/-- A chart shows all its dates, each with what has been aggregated under its key, or it fails
because the date before the first one is before year 1. -/
theorem timeline_eq {type : String} {o : RowOrder CounterRow} {db : Db} (hspan : 0 < span)
    (htells : Tells text span) (hend : DateTime.InRange endDate)
    (hu : (db.aggregatedCounter.rows.map CounterRow.key).Nodup) :
    timeline text span n type endDate o db =
      if n*span ≤ endDate then .ok ((dates span n endDate).map fun x =>
        (x,(valuesOf (timelineKey text type x) db.aggregatedCounter).sum))
      else .error .argumentOutOfRange := by
  rw [timeline,datesBack_eq hspan.le hend]
  by_cases hn : n*span ≤ endDate
  · have hkeys := nodup_keys hspan htells hend hn type
    rw [if_pos hn,if_pos hn]
    simp only
    rw [dictionaryOf_eq (by rwa [List.map_map])]
    simp only
    rw [timelineStats_eq (by simpa [Function.comp_def] using nodup_dates hspan) hu,List.map_map]
    rfl
  · rw [if_neg hn,if_neg hn]

theorem dateOf_inRange {t : ℤ} (h : DateTime.InRange t) : DateTime.InRange (dateOf t) := by
  obtain ⟨h₀,h₁⟩ := h
  unfold dateOf ticksPerDay
  exact ⟨by omega,by omega⟩

theorem week_le_dateOf {t : ℤ} : ((7:ℕ):ℤ)*ticksPerDay ≤ dateOf t ↔ 7*ticksPerDay ≤ t := by
  unfold dateOf ticksPerDay
  omega

theorem getTimelineStats_eq {db : Db} (hu : (db.aggregatedCounter.rows.map CounterRow.key).Nodup)
    {utcNow : ℤ} (hnow : DateTime.InRange utcNow) (type : String) (o : RowOrder CounterRow) :
    getTimelineStats type utcNow o db =
      if 7*ticksPerDay ≤ utcNow then .ok ((dates ticksPerDay 7 (dateOf utcNow)).map fun x =>
        (x,(valuesOf (timelineKey dayText type x) db.aggregatedCounter).sum))
      else .error .argumentOutOfRange := by
  rw [getTimelineStats,timeline_eq (by decide) dayText_tells (dateOf_inRange hnow) hu]
  simp only [week_le_dateOf]

theorem getHourlyTimelineStats_eq {db : Db}
    (hu : (db.aggregatedCounter.rows.map CounterRow.key).Nodup) {utcNow : ℤ}
    (hnow : DateTime.InRange utcNow) (type : String) (o : RowOrder CounterRow) :
    getHourlyTimelineStats type utcNow o db =
      if 24*ticksPerHour ≤ utcNow then .ok ((dates ticksPerHour 24 utcNow).map fun x =>
        (x,(valuesOf (timelineKey hourText type x) db.aggregatedCounter).sum))
      else .error .argumentOutOfRange := by
  rw [getHourlyTimelineStats,timeline_eq (by decide) hourText_tells hnow hu]
  rfl

end Dates

/-- Where no key is aggregated twice, both charts of every type show every date once, the latest
first, with the aggregated value of its key. They fail only in the first week or day of year 1. -/
theorem timelines_exact {db : Db} (hu : (db.aggregatedCounter.rows.map CounterRow.key).Nodup)
    {utcNow : ℤ} (hnow : DateTime.InRange utcNow) (type : String) (o : RowOrder CounterRow) :
    getTimelineStats type utcNow o db =
      (if 7*ticksPerDay ≤ utcNow then .ok ((dates ticksPerDay 7 (dateOf utcNow)).map fun x =>
        (x,(valuesOf (timelineKey dayText type x) db.aggregatedCounter).sum))
      else .error .argumentOutOfRange) ∧
    getHourlyTimelineStats type utcNow o db =
      if 24*ticksPerHour ≤ utcNow then .ok ((dates ticksPerHour 24 utcNow).map fun x =>
        (x,(valuesOf (timelineKey hourText type x) db.aggregatedCounter).sum))
      else .error .argumentOutOfRange :=
  ⟨getTimelineStats_eq hu hnow type o,getHourlyTimelineStats_eq hu hnow type o⟩

section Charts

open AggregationSystem Machine

/-- Every value of the chart, with the counter rows of its key that wait for the aggregator, is
what the commands have counted. -/
def Accounts (text : ℤ → String) (type : String) (db : Db) (cmds : List (ℤ × WriteCommand))
    (chart : List (ℤ × ℤ)) : Prop :=
  ∀ e ∈ chart, e.2 + (valuesOf (timelineKey text type e.1) db.counter).sum =
    increments (timelineKey text type e.1) cmds - decrements (timelineKey text type e.1) cmds

/-- Both charts of a type are shown in full, and account for the commands. -/
def ChartsAccount (type : String) (utcNow : ℤ) (o : RowOrder CounterRow) (db : Db)
    (cmds : List (ℤ × WriteCommand)) : Prop :=
  ∃ days hours, getTimelineStats type utcNow o db = .ok days ∧
    days.map Prod.fst = dates ticksPerDay 7 (dateOf utcNow) ∧ Accounts dayText type db cmds days ∧
    getHourlyTimelineStats type utcNow o db = .ok hours ∧
    hours.map Prod.fst = dates ticksPerHour 24 utcNow ∧ Accounts hourText type db cmds hours

theorem Accounts.of_conserved {db : Db} {cmds : List (ℤ × WriteCommand)} (h : Conserved db cmds)
    (text : ℤ → String) (type : String) (xs : List ℤ) : Accounts text type db cmds (xs.map fun x =>
      (x,(valuesOf (timelineKey text type x) db.aggregatedCounter).sum)) := by
  intro e he
  obtain ⟨x,-,rfl⟩ := List.mem_map.mp he
  rw [← h.total,add_comm]

/-- In every state of every run of commits and aggregation passes, the charts lag behind the
commands by the rows not aggregated yet. -/
theorem charts_account {ser : SerializationHelper} {s : AggregationState} {as : List Action}
    (hs : s.pass = none) (hc : s.db.counter.rows = []) (ha : s.db.aggregatedCounter.rows = [])
    (hC : Along (step ser) SumsInRange s as) {utcNow : ℤ} (hnow : DateTime.InRange utcNow)
    (hweek : 7*ticksPerDay ≤ utcNow) (type : String) (o : RowOrder CounterRow) :
    ChartsAccount type utcNow o (exec (step ser) s as).db (committed (trace (step ser) s as)) := by
  have h₀ : RunOk (fun _ => 0) s := ⟨by simp [hc,ha],by simp [ha],by simp [hs]⟩
  have hrun := runOk_exec h₀ hC
  simp only [zero_add] at hrun
  have hcons := hrun.conserved
  have hdays := getTimelineStats_eq hcons.unique hnow type o
  have hhours := getHourlyTimelineStats_eq hcons.unique hnow type o
  have hday : 24*ticksPerHour ≤ utcNow := le_trans (by decide) hweek
  rw [if_pos hweek] at hdays
  rw [if_pos hday] at hhours
  exact ⟨_,_,hdays,by simp [Function.comp_def],.of_conserved hcons _ _ _,hhours,
    by simp [Function.comp_def],.of_conserved hcons _ _ _⟩

/-- Two jobs that succeeded on a leap day, one of them counted after the pass began. -/
def leapDay : List AggregationSystem.Action :=
  [.commit [(0,.incrementCounter "stats:succeeded:2024-02-29" none)],.beginPass .stored,
    .commit [(1,.incrementCounter "stats:succeeded:2024-02-29" none)],.nextStatement,.nextStatement,
    .commitPass]

def leapDayMorning : ℤ := 738944*ticksPerDay + 198000000000

theorem charts_account_leapDay : ChartsAccount "succeeded" leapDayMorning .stored
    (exec (step Json.helper) ⟨.empty,none⟩ leapDay).db
    (committed (trace (step Json.helper) ⟨.empty,none⟩ leapDay)) :=
  charts_account rfl rfl rfl (by decide) (by decide) (by decide) "succeeded" .stored

/-- Two days and an hour with succeeded jobs, and a day with failed ones. -/
def countedDays : Db := { Db.empty with
  aggregatedCounter := (((Table.empty.insert
    ⟨0,"stats:succeeded:2024-02-28",2,none⟩).insert
    ⟨0,"stats:failed:2024-02-29",7,none⟩).insert
    ⟨0,"stats:succeeded:2024-02-29",3,none⟩).insert
    ⟨0,"stats:succeeded:2024-02-29-05",1,none⟩ }

theorem timelines_exact_leapDay : ∃ days hours,
    getTimelineStats "succeeded" leapDayMorning .stored countedDays = .ok days ∧
      days.take 3 = [(738944*ticksPerDay,3),(738943*ticksPerDay,2),(738942*ticksPerDay,0)] ∧
      getHourlyTimelineStats "succeeded" leapDayMorning .stored countedDays = .ok hours ∧
      hours.take 2 = [(leapDayMorning,1),(leapDayMorning-ticksPerHour,0)] :=
  have h := @timelines_exact countedDays (by decide) leapDayMorning (by decide) "succeeded" .stored
  ⟨_,_,h.1,by decide,h.2,by decide⟩

example : timelineKey dayText "succeeded" leapDayMorning = "stats:succeeded:2024-02-29" := by decide
example : timelineKey hourText "failed" leapDayMorning = "stats:failed:2024-02-29-05" := by decide

end Charts

end MonitoringApi
end HangfireStorage
