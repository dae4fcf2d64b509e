import HangfireStorage.KeyIsolation
import HangfireStorage.ExpirationManager
import HangfireStorage.Machine

/-!
# The lifetime of a collection

A lifetime is set and reported for a key and stored in each row. Rows that are inserted
later have none, and all others agree.
-/

namespace HangfireStorage

open ExpirationManager JobStorageConnection Machine Shelved WriteOnlyTransaction

/-- Those that have an expiry have the same one. -/
def Shared (es : List (Option ℤ)) : Prop := ∃ e, ∀ x ∈ es, x = none ∨ x = some e

def Uniform (es : List (Option ℤ)) : Prop := ∃ e, ∀ x ∈ es, x = e

theorem Uniform.shared {es : List (Option ℤ)} (h : Uniform es) : Shared es := by
  obtain ⟨e,he⟩ := h
  cases e with
  | none => exact ⟨0,fun x hx => .inl (he x hx)⟩
  | some e => exact ⟨e,fun x hx => .inr (he x hx)⟩

theorem uniform_nil : Uniform [] := ⟨none,by simp⟩

def Place.expiries : (p : Place) → p.Content → List (Option ℤ)
  | .set _, l | .hash _, l | .list _, l => l.map Entry.expireAt
  | .counter _, _ => []

def expiriesAt (db : Db) (p : Place) : List (Option ℤ) := p.expiries (collections db p)

namespace Collections

def inserts : WriteCommand → (p : Place) → p.Content → Prop
  | .addToSet _ value _, .set _, l => ∀ e ∈ l, e.item.1 ≠ value
  | .addRangeToSet _ items, .set _, _ => items ≠ []
  | .setRangeInHash _ kvs, .hash _, l => ∃ kv ∈ kvs, ∀ e ∈ l, e.item.1 ≠ kv.1
  | .insertToList _ _, .list _, _ => True
  | _, _, _ => False

instance (c : WriteCommand) (p : Place) (l : p.Content) : Decidable (inserts c p l) := by
  unfold inserts
  split <;> infer_instance

section Entries

variable {ι : Type} {l l' : List (Entry ι)}

theorem expireAt_of_mem_expire {e : Option ℤ} {i : Entry ι} (h : i ∈ expire e l) : i.expireAt = e := by
  obtain ⟨j,-,rfl⟩ := List.mem_map.mp h
  rfl

theorem expireIn_expiries {span now : ℤ} (h : expireIn span now l = .ok l') :
    Uniform (l'.map Entry.expireAt) := by
  obtain ⟨e,-,rfl⟩ := map_eq_ok h
  refine ⟨some e,fun x hx => ?_⟩
  obtain ⟨i,hi,rfl⟩ := List.mem_map.mp hx
  exact expireAt_of_mem_expire hi

theorem expire_none_expiries (l : List (Entry ι)) : Uniform ((expire none l).map Entry.expireAt) := by
  refine ⟨none,fun x hx => ?_⟩
  obtain ⟨i,hi,rfl⟩ := List.mem_map.mp hx
  exact expireAt_of_mem_expire hi

theorem upsert_expiries {m : Entry ι → Bool} {change : Entry ι → Entry ι} {new : Entry ι}
    (hc : ∀ e, (change e).expireAt = e.expireAt) (h : upsert m change new l = .ok l') :
    ((∀ e ∈ l, m e = false) ∧ l' = l ++ [new]) ∨
      (∃ e ∈ l, m e = true) ∧ l' = l.map (fun e => if m e then change e else e) ∧
        l'.map Entry.expireAt = l.map Entry.expireAt := by
  obtain ⟨found,hfound,rfl⟩ := map_eq_ok h
  have hrows := SqlUtil.singleOrDefault_eq_ok hfound
  cases found with
  | none =>
    left
    simpa [List.filter_eq_nil_iff] using hrows
  | some e =>
    right
    have he : e ∈ l.filter m := by simp [hrows]
    refine ⟨⟨e,(List.mem_filter.mp he).1,(List.mem_filter.mp he).2⟩,rfl,?_⟩
    simp only [Option.isNone_some,Bool.false_eq_true,if_false,List.map_map]
    refine List.map_congr_left fun i _ => ?_
    rw [Function.comp_apply]
    split_ifs
    · exact hc i
    · rfl

theorem mem_expiries_append {x : Option ℤ} {e : Entry ι} :
    x ∈ (l ++ [e]).map Entry.expireAt ↔ x ∈ l.map Entry.expireAt ∨ x = e.expireAt := by
  simp

theorem foldlM_addNewItem {l l' : List (Entry (String × ℚ))} {items : List String}
    (h : items.foldlM addNewItem l = .ok l') :
    ∀ x ∈ l'.map Entry.expireAt, x ∈ l.map Entry.expireAt ∨ x = none ∧ items ≠ [] := by
  induction items generalizing l with
  | nil =>
    cases h
    exact fun x hx => .inl hx
  | cons i items ih =>
    rw [List.foldlM_cons,addNewItem] at h
    split_ifs at h
    · cases h
    · intro x hx
      rcases ih h x hx with hx | hx
      · exact (mem_expiries_append.mp hx).imp_right fun hx => ⟨hx,by simp⟩
      · exact .inr ⟨hx.1,by simp⟩

/-- Setting several fields leaves the expiries there are, and adds none if all fields exist. -/
theorem foldlM_setField {l l' : List (Entry (String × Option String))}
    {kvs : List (String × Option String)} (h : kvs.foldlM setField l = .ok l') :
    ∀ x ∈ l'.map Entry.expireAt,
      x ∈ l.map Entry.expireAt ∨ x = none ∧ ∃ kv ∈ kvs, ∀ e ∈ l, e.item.1 ≠ kv.1 := by
  induction kvs generalizing l with
  | nil =>
    cases h
    exact fun x hx => .inl hx
  | cons kv kvs ih =>
    obtain ⟨l₁,hset,hrest⟩ := foldlM_cons_eq_ok.mp h
    intro x hx
    rw [setField] at hset
    rcases upsert_expiries (by exact fun _ => rfl) hset with ⟨hnew,rfl⟩ | ⟨-,hl₁,hexp⟩
    · have hkv : ∀ e ∈ l, e.item.1 ≠ kv.1 := fun e he => by simpa using hnew e he
      have hnone : x ∈ l.map Entry.expireAt ∨ x = none := by
        rcases ih hrest x hx with hx | hx
        · simpa using hx
        · exact .inr hx.1
      exact hnone.imp_right fun hx => ⟨hx,kv,by simp,hkv⟩
    · rw [← hexp]
      refine (ih hrest x hx).imp_right fun hx => ⟨hx.1,?_⟩
      obtain ⟨kv',hkv',hfresh⟩ := hx.2
      refine ⟨kv',by simp [hkv'],fun e he hfield => ?_⟩
      -- fields survive an update, so a field missing later was missing before
      have hmem := List.mem_map_of_mem (f := fun e : Entry (String × Option String) =>
        if decide (e.item.1 = kv.1) then { e with item := (e.item.1,kv.2) } else e) he
      rw [← hl₁] at hmem
      refine hfresh _ hmem ?_
      split_ifs <;> exact hfield

end Entries

section Effects

variable {now : ℤ} {c : WriteCommand}

/-- A command gives all entries one expiry, or leaves the expiries there are and adds
entries without one. -/
theorem effect_expiries {p : Place} {l l' : p.Content} (h : effect now c p l = .ok l') :
    Uniform (p.expiries l') ∨
      ∀ x ∈ p.expiries l', x ∈ p.expiries l ∨ x = none ∧ inserts c p l := by
  cases p with
  | counter key => exact .inl uniform_nil
  | set key =>
    cases c with
    | addToSet k v score =>
      right
      rw [effect,addItem] at h
      rcases upsert_expiries (by exact fun _ => rfl) h with ⟨hnew,rfl⟩ | ⟨-,-,hexp⟩
      · intro x hx
        have hfresh : ∀ e ∈ l, e.item.1 ≠ v := fun e he => by simpa using hnew e he
        exact (mem_expiries_append.mp hx).imp_right fun hx => ⟨hx,hfresh⟩
      · intro x hx
        simp only [Place.expiries] at hx ⊢
        rw [hexp] at hx
        exact .inl hx
    | addRangeToSet k items => exact .inr (foldlM_addNewItem h)
    | removeFromSet k v =>
      cases h
      exact .inr fun x hx => .inl (List.map_subset _ (List.filter_subset_self _) hx)
    | expireSet k span => exact .inl (expireIn_expiries h)
    | persistSet k =>
      cases h
      exact .inl (expire_none_expiries l)
    | removeSet k =>
      cases h
      exact .inl uniform_nil
    | _ =>
      cases h
      exact .inr fun x hx => .inl hx
  | hash key =>
    cases c with
    | setRangeInHash k kvs => exact .inr (foldlM_setField h)
    | expireHash k span => exact .inl (expireIn_expiries h)
    | persistHash k =>
      cases h
      exact .inl (expire_none_expiries l)
    | removeHash k =>
      cases h
      exact .inl uniform_nil
    | _ =>
      cases h
      exact .inr fun x hx => .inl hx
  | list key =>
    cases c with
    | insertToList k v =>
      cases h
      exact .inr fun x hx => (mem_expiries_append.mp hx).imp_right fun hx => ⟨hx,trivial⟩
    | removeFromList k v =>
      cases h
      exact .inr fun x hx => .inl (List.map_subset _ (List.filter_subset_self _) hx)
    | trimList k a b =>
      cases h
      refine .inr fun x hx => .inl (List.map_subset _ (fun e he => ?_) hx)
      obtain ⟨i,hi,rfl⟩ := List.mem_map.mp he
      exact List.fst_mem_of_mem_zipIdx (List.mem_of_mem_filter hi)
    | expireList k span => exact .inl (expireIn_expiries h)
    | persistList k =>
      cases h
      exact .inl (expire_none_expiries l)
    | _ =>
      cases h
      exact .inr fun x hx => .inl hx

end Effects
end Collections

/-- A committed command; one that throws leaves no trace. -/
def commandStep (ser : SerializationHelper) (db : Db) (c : ℤ × WriteCommand) : Db × Bool :=
  match run ser c.1 db c.2 with
  | .ok db' => (db',true)
  | .error _ => (db,false)

/-- A committed transaction is its commands, one after the other. -/
theorem exec_of_commit {ser : SerializationHelper} {cmds : List (ℤ × WriteCommand)} {db db' : Db}
    (h : commit ser cmds db = .ok db') : exec (commandStep ser) db cmds = db' := by
  induction cmds generalizing db with
  | nil =>
    cases h
    rfl
  | cons c cs ih =>
    obtain ⟨db₁,hr,hcs⟩ := commit_cons_eq_ok.mp h
    rw [exec_cons,show (commandStep ser db c).1 = db₁ by rw [commandStep,hr]]
    exact ih hcs

/-- An entry is added to a collection while others in it have an expiry. -/
def LateInsert (db : Db) (c : WriteCommand) : Prop :=
  match c.place with
  | none => False
  | some p => Collections.inserts c p (collections db p) ∧ ∃ x ∈ expiriesAt db p, x ≠ none

instance (db : Db) (c : WriteCommand) : Decidable (LateInsert db c) := by
  unfold LateInsert
  split <;> infer_instance

section Steps

variable {ser : SerializationHelper} {db : Db} {p : Place}

theorem commandStep_expiries (ser : SerializationHelper) (db : Db) (c : ℤ × WriteCommand) (p : Place) :
    Uniform (expiriesAt (commandStep ser db c).1 p) ∨
      ∀ x ∈ expiriesAt (commandStep ser db c).1 p,
        x ∈ expiriesAt db p ∨
          x = none ∧ c.2.place = some p ∧ Collections.inserts c.2 p (collections db p) := by
  unfold commandStep
  cases hr : run ser c.1 db c.2 with
  | error f => exact .inr fun x hx => .inl hx
  | ok db' =>
    by_cases hp : c.2.place = some p
    · have hsq := (run_square hp ser c.1 db).content
      rw [hr] at hsq
      exact (Collections.effect_expiries hsq.symm).imp_right fun h x hx =>
        (h x hx).imp_right fun hx => ⟨hx.1,hp,hx.2⟩
    · right
      intro x hx
      rw [expiriesAt,collections_eq_of_rowsAt (rowsAt_run hp hr)] at hx
      exact .inl hx

theorem shared_step (h : Shared (expiriesAt db p)) (c : ℤ × WriteCommand) :
    Shared (expiriesAt (commandStep ser db c).1 p) := by
  rcases commandStep_expiries ser db c p with hu | hx
  · exact hu.shared
  · obtain ⟨e,he⟩ := h
    exact ⟨e,fun x hmem => (hx x hmem).elim (he x) fun hnone => .inl hnone.1⟩

theorem uniform_step (h : Uniform (expiriesAt db p)) {c : ℤ × WriteCommand} (hc : ¬ LateInsert db c.2) :
    Uniform (expiriesAt (commandStep ser db c).1 p) := by
  rcases commandStep_expiries ser db c p with hu | hx
  · exact hu
  · obtain ⟨e,he⟩ := h
    by_cases hins : c.2.place = some p ∧ Collections.inserts c.2 p (collections db p)
    · -- the new entries have no expiry, and neither have those that are there
      refine ⟨none,fun x hmem => ?_⟩
      rcases hx x hmem with hold | hnone
      · by_contra hne
        exact hc (by rw [LateInsert,hins.1]; exact ⟨hins.2,x,hold,hne⟩)
      · exact hnone.1
    · exact ⟨e,fun x hmem => (hx x hmem).elim (he x) fun hnone => absurd hnone.2 hins⟩

end Steps

def reportedTtl (utcNow : ℤ) (db : Db) : Place → Option ℤ
  | .set key => some (getSetTtl key utcNow db)
  | .hash key => some (getHashTtl key utcNow db)
  | .list key => some (getListTtl key utcNow db)
  | .counter _ => none

def Place.kind : Place → Option Kind
  | .set _ => some .set
  | .hash _ => some .hash
  | .list _ => some .list
  | .counter _ => none

/-- The content without the entries that have an expiry. -/
def Place.lasting : (p : Place) → p.Content → p.Content
  | .set _, l | .hash _, l | .list _, l => l.filter fun e => e.expireAt.isNone
  | .counter _, l => l

section Lifetimes

variable {ι : Type} {l : List (Entry ι)}

theorem ttl_of_shared (h : Shared (l.map Entry.expireAt)) {e : ℤ}
    (he : some e ∈ l.map Entry.expireAt) (utcNow : ℤ) : Collections.ttl utcNow l = e - utcNow := by
  obtain ⟨e',he'⟩ := h
  have hall : ∀ x ∈ l.filterMap Entry.expireAt, x = e := by
    intro x hx
    obtain ⟨i,hi,hix⟩ := List.mem_filterMap.mp hx
    have hx' := he' (some x) (List.mem_map.mpr ⟨i,hi,hix⟩)
    have hsome := he' (some e) he
    simp only [reduceCtorEq,Option.some.injEq,false_or] at hx' hsome
    omega
  have hmem : e ∈ l.filterMap Entry.expireAt := by
    obtain ⟨i,hi,hie⟩ := List.mem_map.mp he
    exact List.mem_filterMap.mpr ⟨i,hi,hie⟩
  have hmin : (l.filterMap Entry.expireAt).min? = some e :=
    List.min?_eq_some_iff.mpr ⟨hmem,fun x hx => (hall x hx).ge⟩
  rw [Collections.ttl,hmin]

theorem ttl_of_none (h : ∀ x ∈ l.map Entry.expireAt, x = none) (utcNow : ℤ) :
    Collections.ttl utcNow l = minusOneSecond := by
  have hnil : l.filterMap Entry.expireAt = [] := by
    refine List.filterMap_eq_nil_iff.mpr fun i hi => h _ (List.mem_map_of_mem hi)
  rw [Collections.ttl,hnil]
  rfl

/-- What is expired by a cut-off is everything that has an expiry, or nothing. -/
theorem filter_expired_of_shared (h : Shared (l.map Entry.expireAt)) (cutoff : ℤ) :
    (l.filter fun e => !expiredBefore cutoff e.expireAt) = l ∨
      (l.filter fun e => !expiredBefore cutoff e.expireAt) = l.filter fun e => e.expireAt.isNone := by
  obtain ⟨e,he⟩ := h
  rcases lt_or_ge e cutoff with hlt | hge
  · right
    refine List.filter_congr fun i hi => ?_
    rcases he _ (List.mem_map_of_mem hi) with hnone | hsome
    · simp [hnone,expiredBefore]
    · simp [hsome,expiredBefore,hlt]
  · left
    refine List.filter_eq_self.mpr fun i hi => ?_
    rcases he _ (List.mem_map_of_mem hi) with hnone | hsome
    · simp [hnone,expiredBefore]
    · simp [hsome,expiredBefore,hge]

theorem entries_delete_expired {ρ ι : Type} [Row ρ] [ExpirableWithKey ρ] [CollectionRow ρ ι]
    {t : Table ρ} {rows : List ℤ} {cutoff : ℤ} (h : rows.Perm ((expiredRows cutoff t).map Row.id))
    (key : String) : (t.delete fun r => rows.contains (Row.id r)).entries key =
      (t.entries key).filter fun e => !expiredBefore cutoff e.expireAt := by
  refine Table.entries_delete fun r hr => ?_
  rw [CollectionRow.expireAt_entry,Bool.eq_iff_iff,List.contains_iff_mem,h.mem_iff,List.mem_map]
  constructor
  · rintro ⟨a,ha,hid⟩
    obtain ⟨ha,he⟩ := List.mem_filter.mp ha
    rwa [← Table.eq_of_id ha (Table.mem_onShelf.mp hr).1 hid]
  · exact fun he => ⟨r,List.mem_filter.mpr ⟨(Table.mem_onShelf.mp hr).1,he⟩,rfl⟩

theorem deleteEntities_fst {k : Kind} (hk : k ≠ .job) (o : RowOrder ℤ) (n : ℕ) (now : ℤ) (db : Db) :
    (deleteEntities k o n now db).1 = deleteRows (selectIds o n now db k) db k := by
  rw [deleteEntities,deleteIds_eq _ _ _ _ fun h => absurd h hk,flatten_batches (by decide)]

/-- A pass whose batch holds all expired rows takes the entries with an expiry or none. -/
theorem collections_deleteEntities {db : Db} {p : Place} {k : Kind} (hk : p.kind = some k)
    (h : Shared (expiriesAt db p)) {n : ℕ} {cutoff : ℤ} (hn : (expiredIds cutoff db k).length ≤ n)
    (o : RowOrder ℤ) :
    collections (deleteEntities k o n cutoff db).1 p = collections db p ∨
      collections (deleteEntities k o n cutoff db).1 p = p.lasting (collections db p) := by
  have hperm : (selectIds o n cutoff db k).Perm (expiredIds cutoff db k) := o.take_perm_of_le hn
  cases p with
  | set key =>
    cases hk
    rw [deleteEntities_fst (by decide)]
    simp only [collections,deleteRows,SqlUtil.deleteBatch,entries_delete_expired hperm]
    exact filter_expired_of_shared h cutoff
  | hash key =>
    cases hk
    rw [deleteEntities_fst (by decide)]
    simp only [collections,deleteRows,SqlUtil.deleteBatch,entries_delete_expired hperm]
    exact filter_expired_of_shared h cutoff
  | list key =>
    cases hk
    rw [deleteEntities_fst (by decide)]
    simp only [collections,deleteRows,SqlUtil.deleteBatch,entries_delete_expired hperm]
    exact filter_expired_of_shared h cutoff
  | counter key => cases hk

end Lifetimes

/-- In every run, the rows of a collection that have an expiry have the same one, which is
the one reported, and a pass that takes all expired rows takes these rows or none. If all rows
agree at first, they do so until an insertion comes late. -/
theorem collection_lifetime (ser : SerializationHelper) {db : Db} {p : Place}
    (h₀ : Shared (expiriesAt db p)) (cmds : List (ℤ × WriteCommand)) :
    Shared (expiriesAt (exec (commandStep ser) db cmds) p) ∧
    (∀ k, p.kind = some k → ∀ utcNow,
      (∀ e, some e ∈ expiriesAt (exec (commandStep ser) db cmds) p →
        reportedTtl utcNow (exec (commandStep ser) db cmds) p = some (e - utcNow)) ∧
      ((∀ x ∈ expiriesAt (exec (commandStep ser) db cmds) p, x = none) →
        reportedTtl utcNow (exec (commandStep ser) db cmds) p = some minusOneSecond)) ∧
    (∀ k, p.kind = some k → ∀ o n cutoff,
      (expiredIds cutoff (exec (commandStep ser) db cmds) k).length ≤ n →
      collections (deleteEntities k o n cutoff (exec (commandStep ser) db cmds)).1 p =
          collections (exec (commandStep ser) db cmds) p ∨
        collections (deleteEntities k o n cutoff (exec (commandStep ser) db cmds)).1 p =
          p.lasting (collections (exec (commandStep ser) db cmds) p)) ∧
    (Uniform (expiriesAt db p) → Along (commandStep ser) (fun db c => ¬ LateInsert db c.2) db cmds →
      Uniform (expiriesAt (exec (commandStep ser) db cmds) p)) := by
  have hshared : Shared (expiriesAt (exec (commandStep ser) db cmds) p) :=
    exec_invariant (I := fun db => Shared (expiriesAt db p)) (C := fun _ _ => True)
      (fun _ c h _ => shared_step h c) (along_of_forall fun _ _ _ => trivial) h₀
  refine ⟨hshared,fun k hk utcNow => ?_,fun k hk o n cutoff hn =>
    collections_deleteEntities hk hshared hn o,fun huniform hlate => ?_⟩
  · generalize exec (commandStep ser) db cmds = db' at hshared ⊢
    cases p with
    | set key | hash key | list key =>
      simp only [reportedTtl,getSetTtl,getHashTtl,getListTtl,getTtl_eq,Option.some.injEq]
      exact ⟨fun e he => ttl_of_shared hshared he utcNow,fun hnone => ttl_of_none hnone utcNow⟩
    | counter key => cases hk
  · exact exec_invariant (I := fun db => Uniform (expiriesAt db p))
      (fun _ _ h hc => uniform_step h hc) hlate huniform

section Runs

theorem uniform_empty (p : Place) : Uniform (expiriesAt .empty p) := by
  cases p <;> exact uniform_nil

/-- A hash that is filled, given an expiry and changed in place. -/
def filledHash : List (ℤ × WriteCommand) :=
  [(0,.setRangeInHash "h" [("a",none),("b",none)]),(0,.expireHash "h" 10),
    (0,.setRangeInHash "h" [("a",some "1")])]

theorem collection_lifetime_hash : ∃ db, commit Json.helper filledHash .empty = .ok db ∧
    reportedTtl 0 db (.hash "h") = some 10 ∧ Uniform (expiriesAt db (.hash "h")) := by
  obtain ⟨-,httl,-,huniform⟩ :=
    collection_lifetime Json.helper (uniform_empty (.hash "h")).shared filledHash
  refine ⟨_,rfl,?_⟩
  have hrun : commit Json.helper filledHash .empty = .ok _ := rfl
  rw [← exec_of_commit hrun]
  exact ⟨(httl .hash rfl 0).1 10 (by decide),huniform (uniform_empty _) (by decide)⟩

/-- An item added to an expiring set stays behind, and a small batch takes one of two. -/
theorem expiring_set_split :
    ¬ Uniform (expiriesAt (exec (commandStep Json.helper) .empty
      [(0,.addToSet "s" "a" 0),(0,.expireSet "s" 10),(0,.addToSet "s" "b" 0)]) (.set "s")) ∧
    getAllItemsFromSet "s" (deleteEntities .set .stored 1000 20 (exec (commandStep Json.helper) .empty
      [(0,.addToSet "s" "a" 0),(0,.expireSet "s" 10),(0,.addToSet "s" "b" 0)])).1 = ["b"] ∧
    getAllItemsFromSet "s" (deleteEntities .set .stored 1 20 (exec (commandStep Json.helper) .empty
      [(0,.addToSet "s" "a" 0),(0,.addToSet "s" "b" 0),(0,.expireSet "s" 10)])).1 = ["b"] := by
  refine ⟨?_,by decide,by decide⟩
  rintro ⟨e,he⟩
  have ha := he (some 10) (by decide)
  have hb := he none (by decide)
  exact absurd (ha.trans hb.symm) (by decide)

end Runs

end HangfireStorage
