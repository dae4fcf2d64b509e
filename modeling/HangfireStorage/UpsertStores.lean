import HangfireStorage.CollectionReads
import HangfireStorage.FiniteMaps
import HangfireStorage.Machine

/-!
# The stores behind the upserts are finite maps

Hashes, sets and job parameters, as maps that remember the last value written.
-/

namespace HangfireStorage

open FiniteMap JobStorageConnection Machine Shelved StringToInt32Converter WriteOnlyTransaction

instance : Shelved JobParameterRow ℤ (String × Option String) where
  shelf := JobParameterRow.job
  entry r := (r.name,r.value)
  shelf_withId _ _ := rfl
  entry_withId _ _ := rfl

/-- What the stores are for: key and field, key and value, job and name. -/
@[ext] structure Maps where
  hash : String → String → Option (Option String)
  set : String → String → Option ℚ
  jobParameter : ℤ → String → Option (Option String)

namespace Maps

def empty : Maps := ⟨fun _ _ => none,fun _ _ => none,fun _ _ => none⟩

def setHash (m : Maps) (key : String) (h : String → Option (Option String)) : Maps :=
  { m with hash := Function.update m.hash key h }

def setSet (m : Maps) (key : String) (s : String → Option ℚ) : Maps :=
  { m with set := Function.update m.set key s }

def setJobParameters (m : Maps) (job : ℤ) (p : String → Option (Option String)) : Maps :=
  { m with jobParameter := Function.update m.jobParameter job p }

/-- The last write wins. Expiries do not show. -/
def command (m : Maps) : WriteCommand → Maps
  | .setRangeInHash key kvs => m.setHash key (write (m.hash key) kvs)
  | .removeHash key => m.setHash key fun _ => none
  | .addToSet key value score => m.setSet key (Function.update (m.set key) value (some score))
  | .addRangeToSet key items => m.setSet key (write (m.set key) (items.map fun i => (i,0)))
  | .removeFromSet key value => m.setSet key (Function.update (m.set key) value none)
  | .removeSet key => m.setSet key fun _ => none
  | _ => m

end Maps

/-- A result, or an exception other than that of a lookup that finds two rows. -/
def Lawful {α : Type} (P : α → Prop) : Except Fault α → Prop
  | .ok a => P a
  | .error f => f ≠ .invalidOperation

theorem lawful_error {α : Type} {P : α → Prop} {f : Fault} (h : f ≠ .invalidOperation) :
    Lawful P (.error f) := h

theorem Lawful.mono {α : Type} {P Q : α → Prop} {x : Except Fault α} (h : Lawful P x)
    (hPQ : ∀ a, P a → Q a) : Lawful Q x := by
  cases x with
  | ok a => exact hPQ a h
  | error f => exact h

theorem Lawful.map {α β : Type} {P : β → Prop} {f : α → β} {x : Except Fault α}
    (h : Lawful (fun a => P (f a)) x) : Lawful P (x.map f) := by
  cases x <;> exact h

theorem lawful_add (t span : ℤ) : Lawful (fun _ => True) (DateTime.add t span) := by
  unfold DateTime.add
  split_ifs
  · trivial
  · exact lawful_error (by decide)

section Contents

variable {ε α β : Type} [DecidableEq α] {f : ε → α × β} {l : List ε} {m : α → Option β}

/-- An upsert writes one pair, wherever the pair of its key stood before. -/
theorem upsert_represents {a : α} {b : β} {g : ε → ε} {n : ε}
    (hc : ∀ e, f (g e) = ((f e).1,b)) (hn : f n = (a,b))
    (h : Represents (l.map f) m) :
    ∃ l', Collections.upsert (fun e => (f e).1 = a) g n l = .ok l' ∧
      Represents (l'.map f) (Function.update m a (some b)) := by
  have hd : l.Pairwise fun e e' => (f e).1 ≠ (f e').1 := by
    have := h.distinct
    rw [List.map_map] at this
    exact List.pairwise_map.mp this
  rw [Collections.upsert,SqlUtil.singleOrDefault_of_distinct hd a]
  cases hfind : l.find? fun e => (f e).1 = a with
  | none =>
    have hm : m a = none := by
      by_contra hne
      obtain ⟨b₀,hb⟩ := Option.ne_none_iff_exists'.mp hne
      obtain ⟨e,he,hea⟩ := List.mem_map.mp ((h.mem_iff a b₀).mpr hb)
      exact absurd (congrArg Prod.fst hea) (by simpa using List.find?_eq_none.mp hfind e he)
    refine ⟨l ++ [n],rfl,?_⟩
    rw [List.map_append,List.map_singleton,hn]
    exact h.append hm b
  | some e₀ =>
    have hm : m a = some (f e₀).2 := by
      have hea : (f e₀).1 = a := by simpa using List.find?_some hfind
      rw [← h.mem_iff,← hea]
      exact List.mem_map_of_mem (List.mem_of_find?_eq_some hfind)
    refine ⟨_,rfl,?_⟩
    convert h.replace hm b using 1
    rw [List.map_map]
    simp only [Option.isNone_some,Bool.false_eq_true,if_false,List.map_map]
    refine List.map_congr_left fun e _ => ?_
    by_cases hea : (f e).1 = a <;> simp [hea,hc]

theorem append_represents {a : α} {b : β} {n : ε} (hn : f n = (a,b))
    (ha : ¬ (l.any fun e => (f e).1 = a) = true) (h : Represents (l.map f) m) :
    Represents ((l ++ [n]).map f) (Function.update m a (some b)) := by
  rw [List.map_append,List.map_singleton,hn]
  refine h.append (by_contra fun hne => ha ?_) b
  obtain ⟨b₀,hb⟩ := Option.ne_none_iff_exists'.mp hne
  obtain ⟨e,he,hea⟩ := List.mem_map.mp ((h.mem_iff a b₀).mpr hb)
  exact List.any_eq_true.mpr ⟨e,he,by simp [hea]⟩

theorem filter_represents (a : α) (h : Represents (l.map f) m) :
    Represents ((l.filter fun e => !decide ((f e).1 = a)).map f)
      (Function.update m a none) := by
  have := h.erase a
  rwa [List.filter_map] at this

end Contents

section Effects

variable {now : ℤ} {c : WriteCommand} {key : String} {m : Maps}

theorem expire_items {ι : Type} (e : Option ℤ) (l : List (Entry ι)) :
    (Collections.expire e l).map Entry.item = l.map Entry.item := by
  rw [Collections.expire,List.map_map]
  rfl

theorem lawful_expireIn {ι : Type} {P : List ι → Prop} {span : ℤ} {l : List (Entry ι)}
    (h : P (l.map Entry.item)) :
    Lawful (fun l' => P (l'.map Entry.item)) (Collections.expireIn span now l) :=
  ((lawful_add now span).mono fun e _ => by rwa [expire_items]).map

theorem setFields_represents {l : List (Entry (String × Option String))}
    {h : String → Option (Option String)} (hl : Represents (l.map Entry.item) h)
    (kvs : List (String × Option String)) :
    ∃ l', kvs.foldlM Collections.setField l = .ok l' ∧ Represents (l'.map Entry.item) (write h kvs) := by
  induction kvs generalizing l h with
  | nil => exact ⟨l,rfl,hl⟩
  | cons kv kvs ih =>
    obtain ⟨l₁,hu,hr⟩ := upsert_represents (f := Entry.item)
      (g := fun e => { e with item := (e.item.1,kv.2) }) (n := ⟨kv,none⟩)
      (fun _ => rfl) rfl hl
    obtain ⟨l',hf,hl'⟩ := ih hr
    exact ⟨l',by rw [List.foldlM_cons,Collections.setField,hu]; exact hf,hl'⟩

theorem addNewItems_represents {l : List (Entry (String × ℚ))} {s : String → Option ℚ}
    (hl : Represents (l.map Entry.item) s) (items : List String) :
    Lawful (fun l' => Represents (l'.map Entry.item) (write s (items.map fun i => (i,0))))
      (items.foldlM Collections.addNewItem l) := by
  induction items generalizing l s with
  | nil => exact hl
  | cons i items ih =>
    rw [List.foldlM_cons,Collections.addNewItem]
    split_ifs with hany
    · exact lawful_error (by decide)
    · exact ih (append_represents rfl hany hl)

/-- What a command does to a hash is what it does to the map. -/
theorem effect_hash (now : ℤ) (hc : c.place = some (.hash key)) {l : List (Entry (String × Option String))}
    (h : Represents (l.map Entry.item) (m.hash key)) :
    Lawful (fun l' => Represents (l'.map Entry.item) ((m.command c).hash key))
      (Collections.effect now c (.hash key) l) := by
  cases c with
  | setRangeInHash k kvs =>
    cases hc
    obtain ⟨l',hf,hl'⟩ := setFields_represents h kvs
    show Lawful _ (kvs.foldlM Collections.setField l)
    rw [hf]
    simpa [Lawful,Maps.command,Maps.setHash] using hl'
  | expireHash k span =>
    cases hc
    exact lawful_expireIn (P := fun l => Represents l (m.hash key)) h
  | persistHash k =>
    cases hc
    show Represents _ _
    rwa [expire_items]
  | removeHash k =>
    cases hc
    show Represents _ _
    simpa [Maps.command,Maps.setHash] using Represents.nil
  | _ => simp [WriteCommand.place] at hc

/-- What a command does to a set is what it does to the map. -/
theorem effect_set (now : ℤ) (hc : c.place = some (.set key)) {l : List (Entry (String × ℚ))}
    (h : Represents (l.map Entry.item) (m.set key)) :
    Lawful (fun l' => Represents (l'.map Entry.item) ((m.command c).set key))
      (Collections.effect now c (.set key) l) := by
  cases c with
  | addToSet k value score =>
    cases hc
    obtain ⟨l',hf,hl'⟩ := upsert_represents (f := Entry.item)
      (g := fun e => { e with item := (e.item.1,score) }) (n := ⟨(value,score),none⟩)
      (fun _ => rfl) rfl h
    show Lawful _ (Collections.addItem value score l)
    rw [Collections.addItem,hf]
    simpa [Lawful,Maps.command,Maps.setSet] using hl'
  | addRangeToSet k items =>
    cases hc
    show Lawful _ (items.foldlM Collections.addNewItem l)
    simpa [Maps.command,Maps.setSet] using addNewItems_represents h items
  | removeFromSet k value =>
    cases hc
    show Represents _ _
    simpa [Maps.command,Maps.setSet] using filter_represents value h
  | expireSet k span =>
    cases hc
    exact lawful_expireIn (P := fun l => Represents l (m.set key)) h
  | persistSet k =>
    cases hc
    show Represents _ _
    rwa [expire_items]
  | removeSet k =>
    cases hc
    show Represents _ _
    simpa [Maps.command,Maps.setSet] using Represents.nil
  | _ => simp [WriteCommand.place] at hc

/-- Every exception of a list or counter command is one of the clock. -/
theorem effect_lawful {p : Place} (hc : c.place = some p) (hset : ∀ key, p ≠ .set key)
    (hhash : ∀ key, p ≠ .hash key) (l : p.Content) :
    Lawful (fun _ => True) (Collections.effect now c p l) := by
  cases c with
  | expireJob | persistJob | setJobState | addJobState | addToQueue => cases hc
  | addToSet k | addRangeToSet k | removeFromSet k | expireSet k | persistSet k | removeSet k =>
    cases hc
    exact absurd rfl (hset k)
  | setRangeInHash k | expireHash k | persistHash k | removeHash k =>
    cases hc
    exact absurd rfl (hhash k)
  | expireList k span =>
    cases hc
    exact (lawful_add now span).map
  | incrementCounter k span | decrementCounter k span =>
    cases hc
    cases span with
    | none => trivial
    | some s => exact (lawful_add now s).map
  | insertToList | removeFromList | trimList | persistList =>
    cases hc
    trivial

theorem command_hash_of_ne (hc : c.place ≠ some (.hash key)) :
    (m.command c).hash key = m.hash key := by
  cases c <;> simp_all [Maps.command,Maps.setHash,Maps.setSet,WriteCommand.place,eq_comm]

theorem command_set_of_ne (hc : c.place ≠ some (.set key)) :
    (m.command c).set key = m.set key := by
  cases c <;> simp_all [Maps.command,Maps.setHash,Maps.setSet,WriteCommand.place,eq_comm]

theorem command_jobParameter : (m.command c).jobParameter = m.jobParameter := by
  cases c <;> rfl

end Effects

/-- The tables hold what the maps say. -/
structure Refines (db : Db) (m : Maps) : Prop where
  hash : ∀ key, Represents ((db.hash.entries key).map Entry.item) (m.hash key)
  set : ∀ key, Represents ((db.set.entries key).map Entry.item) (m.set key)
  jobParameter : ∀ job, Represents (db.jobParameter.entries job) (m.jobParameter job)
  fresh : ∀ job, db.job.nextId ≤ job → db.jobParameter.entries job = []

section Commands

variable {ser : SerializationHelper} {now : ℤ} {c : WriteCommand} {db db' : Db} {m : Maps}

/-- Commands on jobs look rows up by their ids only. -/
theorem run_lawful_of_place_none (hc : c.place = none) :
    Lawful (fun _ => True) (run ser now db c) := by
  cases c with
  | expireJob j span =>
    simp only [run,expireJob]
    split
    · trivial
    · exact (lawful_add now span).map
  | persistJob j => trivial
  | setJobState j state =>
    simp only [run,setJobState,SqlUtil.singleOrDefault_id,insertJobState]
    split
    · trivial
    · split
      · rename_i hf
        cases hf
      · trivial
      · split_ifs
        · trivial
        · exact lawful_error (by decide)
  | addJobState j state =>
    simp only [run,addJobState,insertJobState]
    split
    · trivial
    · split_ifs
      · trivial
      · exact lawful_error (by decide)
  | addToQueue q j =>
    simp only [run,addToQueue,JobQueue.enqueue,SqlUtil.singleOrDefault_id]
    split <;> trivial
  | _ => cases hc

theorem Refines.run_lawful (h : Refines db m) (ser : SerializationHelper) (now : ℤ)
    (c : WriteCommand) : Lawful (fun _ => True) (run ser now db c) := by
  cases hc : c.place with
  | none => exact run_lawful_of_place_none hc
  | some p =>
    have hsq := (run_square hc ser now db).content
    have hl : Lawful (fun _ => True) (Collections.effect now c p (collections db p)) := by
      cases p with
      | hash key => exact (effect_hash now hc (h.hash key)).mono fun _ _ => trivial
      | set key => exact (effect_set now hc (h.set key)).mono fun _ _ => trivial
      | list key => exact effect_lawful hc nofun nofun _
      | counter key => exact effect_lawful hc nofun nofun _
    rw [← hsq] at hl
    cases hr : run ser now db c with
    | ok db' => trivial
    | error f =>
      rw [hr] at hl
      exact hl

/-- A command does to the maps what it does to the tables. -/
theorem Refines.run (h : Refines db m) (hr : run ser now db c = .ok db') :
    Refines db' (m.command c) := by
  obtain ⟨hparam,hnext⟩ := run_jobParameter hr
  refine ⟨fun key => ?_,fun key => ?_,fun job => ?_,?_⟩
  · by_cases hc : c.place = some (.hash key)
    · have hsq := (run_square hc ser now db).content
      have he := effect_hash now hc (h.hash key)
      rw [hr] at hsq
      rw [show db.hash.entries key = collections db (.hash key) from rfl] at he
      rw [← hsq] at he
      exact he
    · rw [command_hash_of_ne hc]
      have hrows := collections_eq_of_rowsAt (rowsAt_run hc hr)
      rw [show db'.hash.entries key = db.hash.entries key from hrows]
      exact h.hash key
  · by_cases hc : c.place = some (.set key)
    · have hsq := (run_square hc ser now db).content
      have he := effect_set now hc (h.set key)
      rw [hr] at hsq
      rw [show db.set.entries key = collections db (.set key) from rfl] at he
      rw [← hsq] at he
      exact he
    · rw [command_set_of_ne hc]
      have hrows := collections_eq_of_rowsAt (rowsAt_run hc hr)
      rw [show db'.set.entries key = db.set.entries key from hrows]
      exact h.set key
  · rw [command_jobParameter,hparam]
    exact h.jobParameter job
  · rw [hparam,hnext]
    exact h.fresh

end Commands

end HangfireStorage
