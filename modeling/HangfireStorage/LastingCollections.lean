import HangfireStorage.KeyIsolation
import HangfireStorage.LastingRows

/-!
# Collections without an expiry

A set, hash or list that is never given an expiry holds what the commands at its place have made
of it, whatever workers, locks, aggregation and clean-up do in between.
-/

namespace HangfireStorage

open JobStorageConnection Machine Table WriteOnlyTransaction

/-- Commands that set an expiry on everything at their place. -/
def WriteCommand.expires : WriteCommand → Bool
  | .expireSet _ _ | .expireHash _ _ | .expireList _ _ => true
  | _ => false

section Commands

variable {ser : SerializationHelper} {now : ℤ} {c : WriteCommand} {db db' : Db} {k : String}

theorem keeps_setExpireAt {ρ : Type} [Row ρ] [ExpirableWithKey ρ] {t : Table ρ} {key : String}
    {e : Option ℤ} (h : key = k → e = none) :
    t.Keeps ExpirableWithKey.key k (setExpireAt key e t) := by
  refine .modify fun r _ hkey hk => ?_
  rw [ExpirableWithKey.key_withExpireAt] at hk
  refine ⟨hk,fun _ => ?_⟩
  rw [Expirable.expireAt_withExpireAt]
  exact h ((of_decide_eq_true hkey).symm.trans hk)

theorem keeps_setInHash {t t' : Table HashRow} (key : String) (kv : String × Option String)
    (h : WriteOnlyTransaction.setInHash key t kv = .ok t') : t.Keeps HashRow.key k t' :=
  .upsertEntity h (fun _ => rfl) (fun _ => rfl) (fun _ _ _ _ he => he) fun _ _ => rfl

theorem keeps_insertSet {t t' : Table SetRow} (key i : String)
    (h : insertSet ⟨0,key,i,0,none⟩ t = .ok t') : t.Keeps SetRow.key k t' := by
  unfold insertSet at h
  split_ifs at h
  obtain rfl := Except.ok.inj h
  exact .insert fun _ => rfl

/-- No command but the one that sets an expiry on a collection gives its rows one. -/
theorem run_keeps (h : run ser now db c = .ok db') :
    ((∀ span, c ≠ .expireSet k span) → db.set.Keeps SetRow.key k db'.set) ∧
    ((∀ span, c ≠ .expireHash k span) → db.hash.Keeps HashRow.key k db'.hash) ∧
    ((∀ span, c ≠ .expireList k span) → db.list.Keeps ListRow.key k db'.list) := by
  have hset (t : Table SetRow) : t.Keeps SetRow.key k t := .refl _ _ _
  have hhash (t : Table HashRow) : t.Keeps HashRow.key k t := .refl _ _ _
  have hlist (t : Table ListRow) : t.Keeps ListRow.key k t := .refl _ _ _
  cases c with
  | expireJob j span =>
    obtain ⟨-,rfl⟩ | ⟨v,-,rfl⟩ := expireJob_eq_ok h <;>
      exact ⟨fun _ => hset _,fun _ => hhash _,fun _ => hlist _⟩
  | persistJob j =>
    cases h
    obtain ⟨-,he⟩ | ⟨v,-,he⟩ := persistJob_eq j db <;> rw [he] <;>
      exact ⟨fun _ => hset _,fun _ => hhash _,fun _ => hlist _⟩
  | setJobState j state =>
    obtain ⟨-,rfl⟩ | ⟨v,job,-,-,rfl⟩ := setJobState_eq_ok h <;>
      exact ⟨fun _ => hset _,fun _ => hhash _,fun _ => hlist _⟩
  | addJobState j state =>
    obtain ⟨-,rfl⟩ | ⟨v,-,-,rfl⟩ := addJobState_eq_ok h <;>
      exact ⟨fun _ => hset _,fun _ => hhash _,fun _ => hlist _⟩
  | addToQueue q j =>
    obtain ⟨-,rfl⟩ | ⟨v,-,rfl⟩ := JobQueue.enqueue_eq_ok h <;>
      exact ⟨fun _ => hset _,fun _ => hhash _,fun _ => hlist _⟩
  | incrementCounter key span | decrementCounter key span =>
    rw [insertCounter_eq_ok h]
    exact ⟨fun _ => hset _,fun _ => hhash _,fun _ => hlist _⟩
  | addToSet key value score =>
    obtain ⟨t,ht,rfl⟩ := map_eq_ok h
    exact ⟨fun _ => .upsertEntity ht (fun _ => rfl) (fun _ => rfl) (fun _ _ _ _ he => he)
      fun _ _ => rfl,fun _ => hhash _,fun _ => hlist _⟩
  | addRangeToSet key items =>
    obtain ⟨t,ht,rfl⟩ := map_eq_ok h
    exact ⟨fun _ => .foldlM (fun i _ _ _ hi => keeps_insertSet key i hi) ht,fun _ => hhash _,
      fun _ => hlist _⟩
  | setRangeInHash key kvs =>
    obtain ⟨t,ht,rfl⟩ := map_eq_ok h
    exact ⟨fun _ => hset _,fun _ => .foldlM (fun kv _ _ _ hkv => keeps_setInHash key kv hkv) ht,
      fun _ => hlist _⟩
  | expireSet key span =>
    obtain ⟨t,ht,rfl⟩ := map_eq_ok h
    obtain ⟨e,-,rfl⟩ := map_eq_ok ht
    exact ⟨fun hne => keeps_setExpireAt fun hk => absurd (hk ▸ rfl) (hne span),fun _ => hhash _,
      fun _ => hlist _⟩
  | expireHash key span =>
    obtain ⟨t,ht,rfl⟩ := map_eq_ok h
    obtain ⟨e,-,rfl⟩ := map_eq_ok ht
    exact ⟨fun _ => hset _,fun hne => keeps_setExpireAt fun hk => absurd (hk ▸ rfl) (hne span),
      fun _ => hlist _⟩
  | expireList key span =>
    obtain ⟨t,ht,rfl⟩ := map_eq_ok h
    obtain ⟨e,-,rfl⟩ := map_eq_ok ht
    exact ⟨fun _ => hset _,fun _ => hhash _,
      fun hne => keeps_setExpireAt fun hk => absurd (hk ▸ rfl) (hne span)⟩
  | persistSet key =>
    cases h
    exact ⟨fun _ => keeps_setExpireAt fun _ => rfl,fun _ => hhash _,fun _ => hlist _⟩
  | persistHash key =>
    cases h
    exact ⟨fun _ => hset _,fun _ => keeps_setExpireAt fun _ => rfl,fun _ => hlist _⟩
  | persistList key =>
    cases h
    exact ⟨fun _ => hset _,fun _ => hhash _,fun _ => keeps_setExpireAt fun _ => rfl⟩
  | removeFromSet | removeSet =>
    cases h
    exact ⟨fun _ => .delete _,fun _ => hhash _,fun _ => hlist _⟩
  | removeHash =>
    cases h
    exact ⟨fun _ => hset _,fun _ => .delete _,fun _ => hlist _⟩
  | insertToList =>
    cases h
    exact ⟨fun _ => hset _,fun _ => hhash _,fun _ => .insert fun _ => rfl⟩
  | removeFromList =>
    cases h
    exact ⟨fun _ => hset _,fun _ => hhash _,fun _ => .delete _⟩
  | trimList key a b =>
    cases h
    refine ⟨fun _ => hset _,fun _ => hhash _,fun _ => ?_⟩
    simp only [trimList,SqlUtil.deleteByInt32Id_eq]
    exact .delete _

end Commands

namespace StorageSystem

open Collections

/-- No command gives the collection an expiry. -/
def NeverExpires (p : Place) (cmds : List (ℤ × WriteCommand)) : Prop :=
  ∀ c ∈ cmds, c.2.place = some p → c.2.expires = false

instance (p : Place) (cmds : List (ℤ × WriteCommand)) : Decidable (NeverExpires p cmds) :=
  inferInstanceAs (Decidable (∀ c ∈ cmds, _))

section Runs

variable {ρ : Type} [Row ρ] [Expirable ρ] {C : CleanedTable ρ} {ser : SerializationHelper} {T : ℤ}
  {s : StorageState} {as : List Action} {k : String} {p : Place}

theorem effects_append {cmds cmds' : List (ℤ × WriteCommand)} {l l' : p.Content}
    {x : Except Fault p.Content} (h : effects p cmds l = .ok l') (h' : effects p cmds' l' = x) :
    effects p (cmds ++ cmds') l = x := by
  rw [effects] at h h'
  rw [effects,List.filter_append,List.foldlM_append,h]
  exact h'

theorem commit_keeps {Q : WriteCommand → Prop}
    (hrun : ∀ now c db db', Q c → run ser now db c = .ok db' →
      (C.table db).Keeps C.key k (C.table db'))
    {cmds : List (ℤ × WriteCommand)} (hQ : ∀ c ∈ cmds, Q c.2) {db db' : Db}
    (h : commit ser cmds db = .ok db') : (C.table db).Keeps C.key k (C.table db') :=
  commit_induction (P := fun d => (C.table db).Keeps C.key k (C.table d)) (Q := Q)
    (fun now c d d' hc hd hr => hd.trans (hrun now c d d' hc hr)) hQ (.refl _ _ _) h

/-- The content of a collection that lasts is told from its rows and its commands. -/
theorem effects_exec (hrows : ∀ db db', C.rowsOf k db' = C.rowsOf k db →
      collections db' p = collections db p)
    (hpass : ∀ o db db', CountersAggregator.pass o db = .ok db' → C.table db' = C.table db)
    (hrun : ∀ now c db db', (c.place = some p → c.expires = false) → run ser now db c = .ok db' →
      (C.table db).Keeps C.key k (C.table db'))
    (hnever : NeverExpires p (commands (trace (step ser T) s as))) (h₀ : Lasting C k s) :
    effects p (commands (trace (step ser T) s as)) (collections s.db p) =
      .ok (collections (exec (step ser T) s as).db p) := by
  have hexec : effects p ([] ++ commands (trace (step ser T) s as)) (collections s.db p) =
      .ok (collections (exec (step ser T) s as).db p) := by
    refine lasting_exec (Q := fun c => c.2.place = some p → c.2.expires = false)
      (P := fun cs db => effects p cs (collections s.db p) = .ok (collections db p))
      ?_ ?_ ?_ hnever h₀ rfl
    · intro cs cmds db db' hP hQ hc
      exact ⟨commit_keeps hrun hQ hc,effects_append hP (commit_content hc p)⟩
    · intro cs o db db' hP hp
      have ht := hpass o db db' hp
      refine ⟨ht ▸ .refl _ _ _,hP.trans (congrArg _ (hrows _ _ ?_)).symm⟩
      rw [CleanedTable.rowsOf,ht]
      rfl
    · exact fun cs db db' hP hr _ => hP.trans (congrArg _ (hrows db db' hr)).symm
  exact hexec

theorem lasting_initial (C : CleanedTable ρ) (k : String) (now : ℤ) (h : (C.table .empty).rows = []) :
    Lasting C k (initial now) :=
  ⟨by simp [CleanedTable.rowsOf,initial,h],by simp [pendingRows,initial]⟩

theorem pass_tables {o : RowOrder CounterRow} {db db' : Db} (h : CountersAggregator.pass o db = .ok db') :
    db'.set = db.set ∧ db'.hash = db.hash ∧ db'.list = db.list := by
  obtain ⟨items,t,-,-,rfl⟩ := CountersAggregator.pass_eq_ok h
  exact ⟨rfl,rfl,rfl⟩

theorem effects_initial (hp : ∀ key, p ≠ .counter key) (now : ℤ)
    (hnever : NeverExpires p (commands (trace (step ser T) (initial now) as))) :
    effects p (commands (trace (step ser T) (initial now) as)) (collections .empty p) =
      .ok (collections (exec (step ser T) (initial now) as).db p) := by
  cases p with
  | set key =>
    refine effects_exec (C := setTable) (k := key) (fun db db' h => congrArg (List.map Shelved.entry) h)
      (fun o db db' h => (pass_tables h).1) (fun now c db db' hc hr => ?_) hnever
      (lasting_initial _ _ _ rfl)
    refine (run_keeps hr).1 fun span hs => ?_
    subst hs
    cases hc rfl
  | hash key =>
    refine effects_exec (C := hashTable) (k := key) (fun db db' h => congrArg (List.map Shelved.entry) h)
      (fun o db db' h => (pass_tables h).2.1) (fun now c db db' hc hr => ?_) hnever
      (lasting_initial _ _ _ rfl)
    refine (run_keeps hr).2.1 fun span hs => ?_
    subst hs
    cases hc rfl
  | list key =>
    refine effects_exec (C := listTable) (k := key) (fun db db' h => congrArg (List.map Shelved.entry) h)
      (fun o db db' h => (pass_tables h).2.2) (fun now c db db' hc hr => ?_) hnever
      (lasting_initial _ _ _ rfl)
    refine (run_keeps hr).2.2 fun span hs => ?_
    subst hs
    cases hc rfl
  | counter key => exact absurd rfl (hp key)

/-- The commands of one collection succeed on their own if they do among others. -/
theorem commit_own {cmds : List (ℤ × WriteCommand)} {l : p.Content}
    (h : effects p cmds (collections .empty p) = .ok l) :
    ∃ db, commit ser (cmds.filter fun c => c.2.place = some p) .empty = .ok db ∧
      collections db p = l := by
  have hfilter (q : Place) : effects q (cmds.filter fun c => c.2.place = some p) =
      if q = p then effects q cmds else .ok := by
    funext m
    by_cases hq : q = p
    · subst hq
      simp [effects,List.filter_filter]
    · have hnone : (cmds.filter fun c => c.2.place = some p).filter
          (fun c => c.2.place = some q) = [] := by
        rw [List.filter_filter,List.filter_eq_nil_iff]
        intro c _
        simp only [Bool.and_eq_true,decide_eq_true_eq]
        rintro ⟨h₁,h₂⟩
        exact hq (Option.some.inj (h₁.symm.trans h₂))
      rw [if_neg hq,effects,hnone]
      rfl
  obtain ⟨db,hdb⟩ : ∃ db, commit ser (cmds.filter fun c => c.2.place = some p) .empty = .ok db := by
    refine commit_of_effects (fun c hc => ?_) fun q => ?_
    · have := (List.mem_filter.mp hc).2
      simp_all
    · rw [hfilter]
      split_ifs with hq
      · subst hq
        exact ⟨l,h⟩
      · exact ⟨_,rfl⟩
  have hcontent := commit_content hdb p
  rw [hfilter,if_pos rfl,h] at hcontent
  exact ⟨db,hdb,(Except.ok.inj hcontent).symm⟩

/-- Only the counter reads look at the aggregated table. -/
theorem answers_aggregatedCounter {q : Query} (hq : ∀ key, q.place ≠ .counter key) (utcNow : ℤ)
    (t : Table CounterRow) (db : Db) :
    q.answers utcNow { db with aggregatedCounter := t } = q.answers utcNow db := by
  cases q with
  | getCounter key => exact absurd rfl (hq key)
  | _ => rfl

/-- In every run, a set, hash or list that no committed command gives an expiry reads as if the
committed commands at its place had been all that ever happened, whatever clean-up, aggregation,
workers and commands at other places have done in between. -/
theorem collections_last (ser : SerializationHelper) (T now : ℤ) (as : List Action) {p : Place}
    (hp : ∀ key, p ≠ .counter key)
    (hnever : NeverExpires p (commands (trace (step ser T) (initial now) as))) :
    ∃ db, commit ser ((commands (trace (step ser T) (initial now) as)).filter fun c =>
        c.2.place = some p) .empty = .ok db ∧
      collections (exec (step ser T) (initial now) as).db p = collections db p ∧
      ∀ q : Query, q.place = p → ∀ utcNow,
        q.answers utcNow (exec (step ser T) (initial now) as).db = q.answers utcNow db := by
  obtain ⟨db,hdb,hcontent⟩ := @commit_own ser p _ _ (effects_initial hp now hnever)
  generalize exec (step ser T) (initial now) as = s at hcontent ⊢
  refine ⟨db,hdb,hcontent.symm,fun q hq utcNow => ?_⟩
  subst hq
  have hrows : rowsAt { db with aggregatedCounter := s.db.aggregatedCounter } = rowsAt db :=
    rowsAt_congr rfl rfl rfl rfl
  rw [← answers_aggregatedCounter hp utcNow s.db.aggregatedCounter db]
  apply Query.answers_of_collections
  · rw [collections_eq_of_rowsAt (congrFun hrows q.place),hcontent]
  · rfl

/-- A recurring job stays, while the clean-up deletes a set that has expired. -/
def recurringKept : List Action :=
  [.commit [(0,.addToSet "recurring-jobs" "daily" 5),(0,.addToSet "s" "a" 0),(0,.expireSet "s" 10)],
    .advance 20,.select .set .stored 1000 0,.deleteBatch 0]

theorem collections_last_recurring :
    ∃ db, commit Json.helper ((commands (trace (step Json.helper 0) (initial 0) recurringKept)).filter
        fun c => c.2.place = some (.set "recurring-jobs")) .empty = .ok db ∧
      collections (exec (step Json.helper 0) (initial 0) recurringKept).db (.set "recurring-jobs") =
        collections db (.set "recurring-jobs") ∧
      ∀ q : Query, q.place = .set "recurring-jobs" → ∀ utcNow,
        q.answers utcNow (exec (step Json.helper 0) (initial 0) recurringKept).db =
          q.answers utcNow db :=
  collections_last Json.helper 0 0 recurringKept nofun (by decide)

example : (exec (step Json.helper 0) (initial 0) recurringKept).db.set.rows =
    [⟨1,"recurring-jobs","daily",5,none⟩] := by decide

end Runs

end StorageSystem
end HangfireStorage
