import HangfireStorage.CleanupRaces

/-!
# Rows without an expiry

Clean-up deletes by ids that it has read before, so that a row is safe from it only if it had no
expiry when ids were read, and keeps its id. Both hold for the rows of a collection to which no
expiry is ever given.
-/

namespace HangfireStorage

namespace Table

variable {ρ : Type} [Row ρ] [Expirable ρ] {key : ρ → String} {k : String} {t t' t'' : Table ρ}

/-- The rows of one key are old ones of that key, or new ones, and no expiry has been set. -/
structure Keeps (key : ρ → String) (k : String) (t t' : Table ρ) : Prop where
  nextId : t.nextId ≤ t'.nextId
  rows : ∀ r' ∈ t'.rows, key r' = k →
    (t.nextId ≤ Row.id r' ∧ Expirable.expireAt r' = none) ∨
      ∃ r ∈ t.rows, key r = k ∧ Row.id r = Row.id r' ∧
        (Expirable.expireAt r = none → Expirable.expireAt r' = none)

namespace Keeps

theorem refl (key : ρ → String) (k : String) (t : Table ρ) : Keeps key k t t :=
  ⟨le_rfl,fun r hr hk => .inr ⟨r,hr,hk,rfl,id⟩⟩

theorem trans (h : Keeps key k t t') (h' : Keeps key k t' t'') : Keeps key k t t'' where
  nextId := h.nextId.trans h'.nextId
  rows r'' hr'' hk'' := by
    obtain ⟨hnew,hnone⟩ | ⟨r',hr',hk',hid,hnone⟩ := h'.rows r'' hr'' hk''
    · exact .inl ⟨h.nextId.trans hnew,hnone⟩
    · obtain ⟨hnew,hnone'⟩ | ⟨r,hr,hk,hid',hnone'⟩ := h.rows r' hr' hk'
      · exact .inl ⟨hid ▸ hnew,hnone hnone'⟩
      · exact .inr ⟨r,hr,hk,hid'.trans hid,hnone ∘ hnone'⟩

theorem insert {r : ρ} (hr : key (Row.withId t.nextId r) = k →
    Expirable.expireAt (Row.withId t.nextId r) = none) : Keeps key k t (t.insert r) where
  nextId := by simp
  rows r' hr' hk := by
    obtain hr' | hr' := List.mem_append.mp hr'
    · exact .inr ⟨r',hr',hk,rfl,id⟩
    · rw [List.mem_singleton.mp hr'] at hk ⊢
      exact .inl ⟨by simp,hr hk⟩

theorem delete (p : ρ → Bool) : Keeps key k t (t.delete p) :=
  ⟨le_rfl,fun r hr hk => .inr ⟨r,List.mem_of_mem_filter hr,hk,rfl,id⟩⟩

theorem mapRows {g : ρ → ρ} {hg : ∀ r, Row.id (g r) = Row.id r}
    (h : ∀ r ∈ t.rows, key (g r) = k → key r = k ∧
      (Expirable.expireAt r = none → Expirable.expireAt (g r) = none)) :
    Keeps key k t (t.mapRows g hg) where
  nextId := le_rfl
  rows r' hr' hk := by
    obtain ⟨r,hr,rfl⟩ := List.mem_map.mp hr'
    exact .inr ⟨r,hr,(h r hr hk).1,(hg r).symm,(h r hr hk).2⟩

theorem modify {p : ρ → Bool} {u : Update ρ} (h : ∀ r ∈ t.rows, p r = true → key (u.apply r) = k →
    key r = k ∧ (Expirable.expireAt r = none → Expirable.expireAt (u.apply r) = none)) :
    Keeps key k t (t.modify p u) := by
  refine mapRows fun r hr hk => ?_
  by_cases hp : p r = true
  · rw [if_pos hp] at hk ⊢
    exact h r hr hp hk
  · rw [if_neg hp] at hk ⊢
    exact ⟨hk,id⟩

theorem put {e e' : ρ} (he : e ∈ t.rows) (hid : Row.id e' = Row.id e)
    (h : key e' = k → key e = k ∧ (Expirable.expireAt e = none → Expirable.expireAt e' = none)) :
    Keeps key k t (t.put e') := by
  refine mapRows fun r hr hk => ?_
  by_cases hr' : Row.id r = Row.id e'
  · obtain rfl : r = e := Table.eq_of_id hr he (hr'.trans hid)
    rw [if_pos hr'] at hk ⊢
    exact h hk
  · rw [if_neg hr'] at hk ⊢
    exact ⟨hk,id⟩

/-- Upserts give no row another key. -/
theorem upsertEntity {matchFunc : ρ → Bool} {changeAction keysetAction : ρ → ρ} {new : ρ}
    (h : SqlUtil.upsertEntity matchFunc changeAction keysetAction new t = .ok t')
    (hid : ∀ r, Row.id (changeAction r) = Row.id r) (hkey : ∀ r, key (changeAction r) = key r)
    (hmatch : ∀ r ∈ t.rows, matchFunc r = true → key r = k →
      Expirable.expireAt r = none → Expirable.expireAt (changeAction r) = none)
    (hnew : ∀ i, key (Row.withId i (changeAction (keysetAction new))) = k →
      Expirable.expireAt (Row.withId i (changeAction (keysetAction new))) = none) :
    Keeps key k t t' := by
  obtain ⟨entity,hs,rfl⟩ := map_eq_ok h
  cases entity with
  | none => exact insert (hnew _)
  | some e =>
    have hrows := SqlUtil.singleOrDefault_eq_ok hs
    obtain ⟨he,hm⟩ : e ∈ t.rows ∧ matchFunc e = true :=
      List.mem_filter.mp (by simp [hrows])
    refine put he (hid e) fun hk => ?_
    rw [hkey] at hk
    exact ⟨hk,hmatch e he hm hk⟩

theorem foldlM {α : Type} {f : Table ρ → α → Except Fault (Table ρ)} {as : List α}
    (hf : ∀ a ∈ as, ∀ t t', f t a = .ok t' → Keeps key k t t') (h : as.foldlM f t = .ok t') :
    Keeps key k t t' := by
  induction as generalizing t with
  | nil =>
    cases h
    exact refl key k _
  | cons a as ih =>
    obtain ⟨t₁,h₁,hrest⟩ := foldlM_cons_eq_ok.mp h
    exact (hf a (by simp) t t₁ h₁).trans (ih (fun b hb => hf b (by simp [hb])) hrest)

end Keeps
end Table

namespace StorageSystem

open ExpirationManager Machine Table

variable {ρ : Type} [Row ρ] [Expirable ρ]

/-- A table of keyed rows that clean-up deletes expired rows from, and no other client. -/
structure CleanedTable (ρ : Type) [Row ρ] [Expirable ρ] where
  kind : Kind
  table : Db → Table ρ
  key : ρ → String
  expiredIds_eq : ∀ cutoff db, expiredIds cutoff db kind = (expiredRows cutoff (table db)).map Row.id
  table_deleteRows : ∀ batch db k, table (deleteRows batch db k) =
    if k = kind then (SqlUtil.deleteBatch batch (table db)).1 else table db
  table_congr : ∀ db db', db'.set = db.set → db'.hash = db.hash → db'.list = db.list →
    db'.aggregatedCounter = db.aggregatedCounter → table db' = table db

def setTable : CleanedTable SetRow :=
  ⟨.set,Db.set,SetRow.key,fun _ _ => rfl,fun _ _ k => by cases k <;> rfl,fun _ _ h _ _ _ => h⟩

def hashTable : CleanedTable HashRow :=
  ⟨.hash,Db.hash,HashRow.key,fun _ _ => rfl,fun _ _ k => by cases k <;> rfl,fun _ _ _ h _ _ => h⟩

def listTable : CleanedTable ListRow :=
  ⟨.list,Db.list,ListRow.key,fun _ _ => rfl,fun _ _ k => by cases k <;> rfl,fun _ _ _ _ h _ => h⟩

def aggregatedCounterTable : CleanedTable CounterRow :=
  ⟨.aggregatedCounter,Db.aggregatedCounter,CounterRow.key,fun _ _ => rfl,
    fun _ _ k => by cases k <;> rfl,fun _ _ _ _ _ h => h⟩

/-- The rows of one key. -/
def CleanedTable.rowsOf (C : CleanedTable ρ) (k : String) (db : Db) : List ρ :=
  (C.table db).rows.filter fun r => C.key r = k

/-- The rows of the key have no expiry, and no id of theirs is waiting for its deletion. -/
structure Lasting (C : CleanedTable ρ) (k : String) (s : StorageState) : Prop where
  endless : ∀ r ∈ C.rowsOf k s.db, Expirable.expireAt r = none
  spared : ∀ i, (C.kind,i) ∈ pendingRows s →
    i < (C.table s.db).nextId ∧ ∀ r ∈ C.rowsOf k s.db, Row.id r ≠ i

/-- The commands that a step commits. -/
def Event.commands : Event → List (ℤ × WriteCommand)
  | .committed cmds => cmds
  | _ => []

/-- The commands that a run has committed. -/
def commands (es : List Event) : List (ℤ × WriteCommand) := es.flatMap Event.commands

section Steps

variable {C : CleanedTable ρ} {k : String} {ser : SerializationHelper} {T : ℤ} {s s' : StorageState}

theorem CleanedTable.mem_rowsOf {db : Db} {r : ρ} :
    r ∈ C.rowsOf k db ↔ r ∈ (C.table db).rows ∧ C.key r = k := by
  simp [CleanedTable.rowsOf]

theorem Lasting.keep (h : Lasting C k s) (hp : ∀ q ∈ pendingRows s', q ∈ pendingRows s)
    (hk : (C.table s.db).Keeps C.key k (C.table s'.db)) : Lasting C k s' := by
  refine ⟨fun r' hr' => ?_,fun i hi => ⟨?_,fun r' hr' => ?_⟩⟩
  · obtain ⟨hr',hkey⟩ := CleanedTable.mem_rowsOf.mp hr'
    obtain ⟨-,hnone⟩ | ⟨r,hr,hkey,-,hnone⟩ := hk.rows r' hr' hkey
    · exact hnone
    · exact hnone (h.endless r (CleanedTable.mem_rowsOf.mpr ⟨hr,hkey⟩))
  · exact (h.spared i (hp _ hi)).1.trans_le hk.nextId
  · obtain ⟨hlt,hne⟩ := h.spared i (hp _ hi)
    obtain ⟨hr',hkey⟩ := CleanedTable.mem_rowsOf.mp hr'
    obtain ⟨hnew,-⟩ | ⟨r,hr,hkey,hid,-⟩ := hk.rows r' hr' hkey
    · omega
    · exact hid ▸ hne r (CleanedTable.mem_rowsOf.mpr ⟨hr,hkey⟩)

theorem Lasting.same (h : Lasting C k s) (hp : ∀ q ∈ pendingRows s', q ∈ pendingRows s)
    (ht : C.table s'.db = C.table s.db) : Lasting C k s' :=
  h.keep hp (ht ▸ .refl _ _ _)

theorem mem_pendingRows_select {k k' : Kind} {o : RowOrder ℤ} {n : ℕ} {cutoff i : ℤ}
    (hi : (k',i) ∈ pendingRows { s with sweeps := s.sweeps ++ [Sweep.start k o n cutoff s.db] }) :
    (k',i) ∈ pendingRows s ∨ k = k' ∧ i ∈ expiredIds cutoff s.db k' := by
  simp only [pendingRows,List.flatMap_append,List.flatMap_singleton,List.mem_append] at hi
  refine hi.imp_right fun hi => ?_
  rw [Sweep.start,flatten_batches (by decide)] at hi
  obtain ⟨j,hj,he⟩ := List.mem_map.mp hi
  obtain ⟨rfl,rfl⟩ := Prod.mk.inj he
  exact ⟨rfl,RowOrder.mem_of_mem_take hj⟩

/-- Rows without an expiry are not selected. -/
theorem Lasting.select (h : Lasting C k s) (kind : Kind) (o : RowOrder ℤ) (n : ℕ) (cutoff : ℤ) :
    Lasting C k { s with sweeps := s.sweeps ++ [Sweep.start kind o n cutoff s.db] } := by
  refine ⟨h.endless,fun i hi => ?_⟩
  obtain hi | ⟨-,hi⟩ := mem_pendingRows_select hi
  · exact h.spared i hi
  · rw [C.expiredIds_eq] at hi
    obtain ⟨a,ha,rfl⟩ := List.mem_map.mp hi
    obtain ⟨ha,hexpired⟩ := List.mem_filter.mp ha
    refine ⟨(C.table s.db).fresh a ha,fun r hr hid => ?_⟩
    have hnone := h.endless r hr
    obtain rfl := Table.eq_of_id (CleanedTable.mem_rowsOf.mp hr).1 ha hid
    simp [hnone,expiredBefore] at hexpired

theorem mem_pendingRows_of_batch {i : ℕ} {w : Sweep} {batch : List ℤ} {rest : List (List ℤ)} {j : ℤ}
    (hi : s.sweeps[i]? = some w) (hp : w.pending = batch::rest) (hj : j ∈ batch) :
    (w.kind,j) ∈ pendingRows s :=
  List.mem_flatMap.mpr ⟨w,List.mem_of_getElem? hi,List.mem_map.mpr ⟨j,by simp [hp,hj],rfl⟩⟩

/-- A delete statement does not find them. -/
theorem Lasting.rowsOf_delete (h : Lasting C k s) {i : ℕ} {w : Sweep} {batch : List ℤ}
    {rest : List (List ℤ)} (hi : s.sweeps[i]? = some w) (hp : w.pending = batch::rest) :
    C.rowsOf k (deleteRows batch s.db w.kind) = C.rowsOf k s.db := by
  rw [CleanedTable.rowsOf,C.table_deleteRows]
  split_ifs with hkind
  · rw [SqlUtil.deleteBatch,Table.rows_delete,List.filter_filter,CleanedTable.rowsOf]
    refine List.filter_congr fun r hr => ?_
    by_cases hkey : C.key r = k
    · have hnot : Row.id r ∉ batch := fun hmem => by
        have hpending := mem_pendingRows_of_batch hi hp hmem
        rw [hkind] at hpending
        exact (h.spared (Row.id r) hpending).2 r (CleanedTable.mem_rowsOf.mpr ⟨hr,hkey⟩) rfl
      simp [hkey,hnot]
    · simp [hkey]
  · rfl

/-- What one step does to the rows of the key. -/
inductive RowsEffect (C : CleanedTable ρ) (k : String) (ser : SerializationHelper) (db : Db) :
    List (ℤ × WriteCommand) → Db → Prop
  | committed {cmds : List (ℤ × WriteCommand)} {db' : Db}
      (h : WriteOnlyTransaction.commit ser cmds db = .ok db') : RowsEffect C k ser db cmds db'
  | aggregated {o : RowOrder CounterRow} {db' : Db} (h : CountersAggregator.pass o db = .ok db') :
      RowsEffect C k ser db [] db'
  | same {db' : Db} (hrows : C.rowsOf k db' = C.rowsOf k db) (hcounter : db'.counter = db.counter) :
      RowsEffect C k ser db [] db'

theorem RowsEffect.of_table {db db' : Db} (ht : C.table db' = C.table db)
    (hc : db'.counter = db.counter) : RowsEffect C k ser db [] db' :=
  .same (by rw [CleanedTable.rowsOf,ht]; rfl) hc

theorem counter_deleteRows (batch : List ℤ) (db : Db) (kind : Kind) :
    (deleteRows batch db kind).counter = db.counter := by
  cases kind <;> rfl

theorem rowsEffect_step (h : Lasting C k s) (a : Action) :
    RowsEffect C k ser s.db (step ser T s a).2.commands (step ser T s a).1.db := by
  have he : StepEffect ser T s a _ _ := step_effect a
  generalize (step ser T s a).1 = s', (step ser T s a).2 = e at he ⊢
  cases he with
  | committed hc => exact .committed hc
  | aggregated hp => exact .aggregated hp
  | deleted hi hp hr => exact .same (h.rowsOf_delete hi hp) (counter_deleteRows _ _ _)
  | _ => exact .of_table (C.table_congr _ _ rfl rfl rfl rfl) rfl

theorem lasting_step (h : Lasting C k s) (a : Action)
    (hkeeps : ∀ db, (∃ o, CountersAggregator.pass o s.db = .ok db) ∨
        WriteOnlyTransaction.commit ser (step ser T s a).2.commands s.db = .ok db →
      (C.table s.db).Keeps C.key k (C.table db)) : Lasting C k (step ser T s a).1 := by
  have he : StepEffect ser T s a _ _ := step_effect a
  generalize (step ser T s a).1 = s', (step ser T s a).2 = e at he hkeeps ⊢
  cases he with
  | committed hc => exact h.keep (fun _ => id) (hkeeps _ (.inr hc))
  | aggregated hp => exact h.keep (fun _ => id) (hkeeps _ (.inl ⟨_,hp⟩))
  | selected kind o b age => exact h.select kind o _ _
  | @deleted i w batch rest hi hp hr =>
    refine h.keep (fun q hq => ?_) ?_
    · refine mem_pendingRows_set ⟨w.kind,rest⟩ hi rfl hq rfl fun j hj => ?_
      simp [hp,hj]
    · rw [C.table_deleteRows]
      split_ifs
      · exact .delete _
      · exact .refl _ _ _
  | @deleteFailed i w f hi =>
    exact h.same (fun q hq => mem_pendingRows_set ⟨w.kind,[]⟩ hi rfl hq rfl (by simp)) rfl
  | _ => exact h.same (fun _ => id) (C.table_congr _ _ rfl rfl rfl rfl)

/-- The rule for collections that last: what commits and passes build up, and what depends on
nothing but the rows of the key and those still to be aggregated, holds after every run. -/
theorem lasting_exec {Q : ℤ × WriteCommand → Prop} {P : List (ℤ × WriteCommand) → Db → Prop}
    (hcommit : ∀ cs cmds db db', P cs db → (∀ c ∈ cmds, Q c) →
      WriteOnlyTransaction.commit ser cmds db = .ok db' →
      (C.table db).Keeps C.key k (C.table db') ∧ P (cs ++ cmds) db')
    (hpass : ∀ cs o db db', P cs db → CountersAggregator.pass o db = .ok db' →
      (C.table db).Keeps C.key k (C.table db') ∧ P cs db')
    (hsame : ∀ cs db db', P cs db → C.rowsOf k db' = C.rowsOf k db → db'.counter = db.counter →
      P cs db')
    {as : List Action} (hQ : ∀ c ∈ commands (trace (step ser T) s as), Q c) (h₀ : Lasting C k s)
    {cs : List (ℤ × WriteCommand)} (hP₀ : P cs s.db) :
    P (cs ++ commands (trace (step ser T) s as)) (exec (step ser T) s as).db := by
  induction as generalizing s cs with
  | nil => simpa [commands] using hP₀
  | cons a as ih =>
    have he : RowsEffect C k ser s.db _ (step ser T s a).1.db := rowsEffect_step h₀ a
    have hcons : commands (trace (step ser T) s (a::as)) =
        (step ser T s a).2.commands ++ commands (trace (step ser T) (step ser T s a).1 as) := rfl
    rw [hcons] at hQ ⊢
    have hnow : ∀ c ∈ (step ser T s a).2.commands, Q c :=
      fun c hc => hQ c (List.mem_append_left _ hc)
    have hlasting : Lasting C k (step ser T s a).1 := by
      refine lasting_step h₀ a fun db hdb => ?_
      obtain ⟨o,hp⟩ | hc := hdb
      · exact (hpass cs o _ _ hP₀ hp).1
      · exact (hcommit cs _ _ _ hP₀ hnow hc).1
    have hP : P (cs ++ (step ser T s a).2.commands) (step ser T s a).1.db := by
      generalize (step ser T s a).2.commands = cmds, (step ser T s a).1.db = db at he hnow ⊢
      cases he with
      | committed hc => exact (hcommit cs _ _ _ hP₀ hnow hc).2
      | aggregated hp => simpa using (hpass cs _ _ _ hP₀ hp).2
      | same hrows hcounter => simpa using hsame cs _ _ hP₀ hrows hcounter
    rw [← List.append_assoc,exec_cons]
    exact ih (fun c hc => hQ c (List.mem_append_right _ hc)) hlasting hP

end Steps

end StorageSystem
end HangfireStorage
