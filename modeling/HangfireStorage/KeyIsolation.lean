import HangfireStorage.CollectionReads

/-!
# Keys are isolated from each other

A transaction is felt at the places its commands are addressed to and nowhere else, so
transactions at different places commute.
-/

namespace HangfireStorage

open JobStorageConnection Shelved WriteOnlyTransaction

/-- The reads of the connection that name a key. -/
inductive Query
  | getSetCount (key : String)
  | getRangeFromSet (key : String) (startingFrom endingAt : ℤ)
  | getAllItemsFromSet (key : String)
  | getFirstByLowestScoreFromSet (key : String) (fromScore toScore : ℚ)
  | getFirstByLowestScoreFromSetList (key : String) (fromScore toScore : ℚ) (count : ℤ)
  | getSetTtl (key : String)
  | getHashCount (key : String)
  | getValueFromHash (key name : String)
  | getAllEntriesFromHash (key : String)
  | getHashTtl (key : String)
  | getListCount (key : String)
  | getRangeFromList (key : String) (startingFrom endingAt : ℤ)
  | getAllItemsFromList (key : String)
  | getListTtl (key : String)
  | getCounter (key : String)

structure Orders where
  set : RowOrder SetRow
  hash : RowOrder HashRow

namespace Query

def place : Query → Place
  | .getSetCount key | .getRangeFromSet key _ _ | .getAllItemsFromSet key
  | .getFirstByLowestScoreFromSet key _ _ | .getFirstByLowestScoreFromSetList key _ _ _
  | .getSetTtl key => .set key
  | .getHashCount key | .getValueFromHash key _ | .getAllEntriesFromHash key | .getHashTtl key =>
    .hash key
  | .getListCount key | .getRangeFromList key _ _ | .getAllItemsFromList key | .getListTtl key =>
    .list key
  | .getCounter key => .counter key

abbrev Result : Query → Type
  | .getSetCount _ | .getHashCount _ | .getListCount _ => ℕ
  | .getSetTtl _ | .getHashTtl _ | .getListTtl _ => ℤ
  | .getRangeFromSet _ _ _ | .getAllItemsFromSet _ => List String
  | .getRangeFromList _ _ _ | .getAllItemsFromList _ => List (Option String)
  | .getFirstByLowestScoreFromSet _ _ _ | .getValueFromHash _ _ => Except Fault (Option String)
  | .getFirstByLowestScoreFromSetList _ _ _ _ => Except Fault (List String)
  | .getAllEntriesFromHash _ => Except Fault (Option Dictionary)
  | .getCounter _ => Except Fault ℤ

def read (o : Orders) (utcNow : ℤ) (db : Db) : (q : Query) → q.Result
  | .getSetCount key => JobStorageConnection.getSetCount key db
  | .getRangeFromSet key a b => JobStorageConnection.getRangeFromSet key a b db
  | .getAllItemsFromSet key => JobStorageConnection.getAllItemsFromSet key db
  | .getFirstByLowestScoreFromSet key a b =>
    JobStorageConnection.getFirstByLowestScoreFromSet o.set key a b db
  | .getFirstByLowestScoreFromSetList key a b n =>
    JobStorageConnection.getFirstByLowestScoreFromSetList o.set key a b n db
  | .getSetTtl key => JobStorageConnection.getSetTtl key utcNow db
  | .getHashCount key => JobStorageConnection.getHashCount key db
  | .getValueFromHash key name => JobStorageConnection.getValueFromHash key name db
  | .getAllEntriesFromHash key => JobStorageConnection.getAllEntriesFromHash o.hash key db
  | .getHashTtl key => JobStorageConnection.getHashTtl key utcNow db
  | .getListCount key => JobStorageConnection.getListCount key db
  | .getRangeFromList key a b => JobStorageConnection.getRangeFromList key a b db
  | .getAllItemsFromList key => JobStorageConnection.getAllItemsFromList key db
  | .getListTtl key => JobStorageConnection.getListTtl key utcNow db
  | .getCounter key => JobStorageConnection.getCounter key db

/-- The results that some order of unordered rows leads to. -/
def answers (utcNow : ℤ) (db : Db) (q : Query) : Set q.Result := {a | ∃ o, q.read o utcNow db = a}

def LeavesOrderOpen : Query → Prop
  | .getFirstByLowestScoreFromSet _ _ _ | .getFirstByLowestScoreFromSetList _ _ _ _
  | .getAllEntriesFromHash _ => True
  | _ => False

section Congruence

variable {db db' : Db} {q : Query}

theorem read_of_collections (hq : ¬ q.LeavesOrderOpen)
    (h : collections db' q.place = collections db q.place)
    (hagg : db'.aggregatedCounter = db.aggregatedCounter) (o o' : Orders) (utcNow : ℤ) :
    q.read o' utcNow db' = q.read o utcNow db := by
  cases q with
  | getFirstByLowestScoreFromSet | getFirstByLowestScoreFromSetList | getAllEntriesFromHash =>
    exact absurd trivial hq
  | getSetCount key =>
    simp only [place,collections] at h
    simp only [read,getSetCount_eq,h]
  | getRangeFromSet key a b =>
    simp only [place,collections] at h
    simp only [read,getRangeFromSet_eq,h]
  | getAllItemsFromSet key =>
    simp only [place,collections] at h
    simp only [read,getAllItemsFromSet_eq,h]
  | getSetTtl key =>
    simp only [place,collections] at h
    simp only [read,JobStorageConnection.getSetTtl,getTtl_eq,h]
  | getHashCount key =>
    simp only [place,collections] at h
    simp only [read,getHashCount_eq,h]
  | getValueFromHash key name =>
    simp only [place,collections] at h
    simp only [read,getValueFromHash_eq,h]
  | getHashTtl key =>
    simp only [place,collections] at h
    simp only [read,JobStorageConnection.getHashTtl,getTtl_eq,h]
  | getListCount key =>
    simp only [place,collections] at h
    simp only [read,getListCount_eq,h]
  | getRangeFromList key a b =>
    simp only [place,collections] at h
    simp only [read,getRangeFromList_eq,getAllItemsFromList_entries,h]
  | getAllItemsFromList key =>
    simp only [place,collections] at h
    simp only [read,getAllItemsFromList_entries,h]
  | getListTtl key =>
    simp only [place,collections] at h
    simp only [read,JobStorageConnection.getListTtl,getTtl_eq,h]
  | getCounter key =>
    have hvalues : valuesOf key db'.counter = valuesOf key db.counter := h
    simp only [read,JobStorageConnection.getCounter,getCounterReads,guardedSum,hvalues,hagg]

theorem read_of_rowsAt (h : rowsAt db' q.place = rowsAt db q.place)
    (hagg : db'.aggregatedCounter = db.aggregatedCounter) (o : Orders) (utcNow : ℤ) :
    q.read o utcNow db' = q.read o utcNow db := by
  by_cases hq : q.LeavesOrderOpen
  · cases q with
    | getFirstByLowestScoreFromSet key a b | getFirstByLowestScoreFromSetList key a b n =>
      have hrows : (db'.set.rows.filter fun i => i.key = key) = db.set.rows.filter fun i => i.key = key := h
      simp only [read,JobStorageConnection.getFirstByLowestScoreFromSet,
        JobStorageConnection.getFirstByLowestScoreFromSetList,hrows]
    | getAllEntriesFromHash key =>
      have hrows : (db'.hash.rows.filter fun i => i.key = key) = db.hash.rows.filter fun i => i.key = key := h
      simp only [read,JobStorageConnection.getAllEntriesFromHash,hrows]
    | _ => exact absurd hq id
  · exact read_of_collections hq (collections_eq_of_rowsAt h) hagg o o utcNow

theorem map_entry_filter {p : ℚ → Bool} {rows rows' : List SetRow}
    (h : rows'.map entry = (rows.map entry : List (Entry (String × ℚ)))) :
    (rows'.filter fun i => p i.score).map entry = (rows.filter fun i => p i.score).map entry := by
  have hcomp (l : List SetRow) : (l.filter fun i => p i.score).map entry =
      (l.map entry).filter fun e => p e.item.2 := by
    rw [List.filter_map]
    rfl
  rw [hcomp,hcomp,h]

/-- On a place with the same content the database may answer what it answers now. -/
theorem exists_read_eq (h : collections db' q.place = collections db q.place)
    (hagg : db'.aggregatedCounter = db.aggregatedCounter) (o : Orders) (utcNow : ℤ) :
    ∃ o', q.read o' utcNow db' = q.read o utcNow db := by
  by_cases hq : q.LeavesOrderOpen
  · cases q with
    | getFirstByLowestScoreFromSet key a b =>
      have hrows : (db'.set.rows.filter fun i => i.key = key).map entry =
          ((db.set.rows.filter fun i => i.key = key).map entry : List (Entry (String × ℚ))) := h
      obtain ⟨o',ho⟩ := o.set.exists_arrange_map_eq
        (map_entry_filter (p := fun x => decide (a ≤ x) && decide (x ≤ b)) hrows)
      refine ⟨⟨o',o.hash⟩,?_⟩
      simp only [read,JobStorageConnection.getFirstByLowestScoreFromSet,firstByLowestScore,
        map_orderByScore,ho]
    | getFirstByLowestScoreFromSetList key a b n =>
      have hrows : (db'.set.rows.filter fun i => i.key = key).map entry =
          ((db.set.rows.filter fun i => i.key = key).map entry : List (Entry (String × ℚ))) := h
      obtain ⟨o',ho⟩ := o.set.exists_arrange_map_eq
        (map_entry_filter (p := fun x => decide (a < x) && decide (x ≤ b)) hrows)
      refine ⟨⟨o',o.hash⟩,?_⟩
      simp only [read,JobStorageConnection.getFirstByLowestScoreFromSetList,firstByLowestScores,
        map_orderByScore,ho]
    | getAllEntriesFromHash key =>
      have hrows : (db'.hash.rows.filter fun i => i.key = key).map entry =
          ((db.hash.rows.filter fun i => i.key = key).map entry :
            List (Entry (String × Option String))) := h
      have hpairs (l : List HashRow) : l.map (fun i => (i.field,i.value)) =
          (l.map entry).map (fun e : Entry (String × Option String) => e.item) := by
        rw [List.map_map]
        rfl
      obtain ⟨o',ho⟩ := o.hash.exists_arrange_map_eq hrows
      refine ⟨⟨o.set,o'⟩,?_⟩
      simp only [read,JobStorageConnection.getAllEntriesFromHash,hpairs,ho]
    | _ => exact absurd hq id
  · exact ⟨o,read_of_collections hq h hagg o o utcNow⟩

theorem answers_of_collections (h : collections db' q.place = collections db q.place)
    (hagg : db'.aggregatedCounter = db.aggregatedCounter) (utcNow : ℤ) :
    q.answers utcNow db' = q.answers utcNow db := by
  ext a
  constructor
  · rintro ⟨o,rfl⟩
    exact exists_read_eq h.symm hagg.symm o utcNow
  · rintro ⟨o,rfl⟩
    exact exists_read_eq h hagg o utcNow

end Congruence
end Query

namespace Collections

/-- What the commands at one place do to its content, one after the other. -/
def effects (p : Place) (cmds : List (ℤ × WriteCommand)) (l : p.Content) : Except Fault p.Content :=
  (cmds.filter fun c => c.2.place = some p).foldlM (fun l c => effect c.1 c.2 p l) l

/-- Transactions that share no place can be swapped as far as a place can tell. -/
theorem effects_swap {cmds cmds' : List (ℤ × WriteCommand)}
    (h : ∀ c ∈ cmds, ∀ c' ∈ cmds', c.2.place ≠ c'.2.place) (p : Place) :
    effects p (cmds ++ cmds') = effects p (cmds' ++ cmds) := by
  have hnil : (cmds.filter fun c => c.2.place = some p) = [] ∨
      (cmds'.filter fun c => c.2.place = some p) = [] := by
    by_contra hne
    rw [not_or] at hne
    obtain ⟨c,hc⟩ := List.exists_mem_of_ne_nil _ hne.1
    obtain ⟨c',hc'⟩ := List.exists_mem_of_ne_nil _ hne.2
    simp only [List.mem_filter,decide_eq_true_eq] at hc hc'
    exact h c hc.1 c' hc'.1 (hc.2.trans hc'.2.symm)
  funext l
  rcases hnil with hnil | hnil <;> simp [effects,hnil]

end Collections

section Commits

variable {ser : SerializationHelper} {cmds cmds' : List (ℤ × WriteCommand)} {db db' : Db}

theorem rowsAt_commit {p : Place} (hp : ∀ c ∈ cmds, c.2.place ≠ some p)
    (h : commit ser cmds db = .ok db') : rowsAt db' p = rowsAt db p :=
  commit_induction (P := fun d => rowsAt d p = rowsAt db p) (Q := fun c => c.place ≠ some p)
    (fun _ _ _ _ hc hd hr => (rowsAt_run hc hr).trans hd) hp rfl h

theorem effects_cons {c : ℤ × WriteCommand} {cs : List (ℤ × WriteCommand)} {db₁ : Db}
    (hr : run ser c.1 db c.2 = .ok db₁) (p : Place) :
    Collections.effects p (c::cs) (collections db p) = Collections.effects p cs (collections db₁ p) := by
  by_cases hp : c.2.place = some p
  · have hsq := (run_square hp ser c.1 db).content
    rw [hr] at hsq
    simp only [Collections.effects,List.filter_cons,hp,decide_true,if_true,List.foldlM_cons,← hsq]
    rfl
  · rw [collections_eq_of_rowsAt (rowsAt_run hp hr)]
    simp [Collections.effects,hp]

/-- A transaction acts on each place by the effects of its own commands there. -/
theorem commit_content (h : commit ser cmds db = .ok db') (p : Place) :
    Collections.effects p cmds (collections db p) = .ok (collections db' p) := by
  induction cmds generalizing db with
  | nil =>
    cases h
    rfl
  | cons c cs ih =>
    obtain ⟨db₁,hr,hcs⟩ := commit_cons_eq_ok.mp h
    rw [effects_cons hr,ih hcs]

theorem commit_of_effects (hplace : ∀ c ∈ cmds, c.2.place ≠ none)
    (h : ∀ p, ∃ l, Collections.effects p cmds (collections db p) = .ok l) :
    ∃ db', commit ser cmds db = .ok db' := by
  induction cmds generalizing db with
  | nil => exact ⟨db,rfl⟩
  | cons c cs ih =>
    obtain ⟨p,hp⟩ := Option.ne_none_iff_exists'.mp (hplace c (by simp))
    have hrun : ∃ db₁, run ser c.1 db c.2 = .ok db₁ := by
      have hsq := (run_square hp ser c.1 db).content
      cases hr : run ser c.1 db c.2 with
      | ok db₁ => exact ⟨db₁,rfl⟩
      | error f =>
        obtain ⟨l,hl⟩ := h p
        rw [hr] at hsq
        simp only [Collections.effects,List.filter_cons,hp,decide_true,if_true,List.foldlM_cons,
          ← hsq] at hl
        cases hl
    obtain ⟨db₁,hr⟩ := hrun
    have hrest : ∀ q, ∃ l, Collections.effects q cs (collections db₁ q) = .ok l := fun q => by
      rw [← effects_cons hr]
      exact h q
    obtain ⟨db',h'⟩ := ih (fun c hc => hplace c (by simp [hc])) hrest
    exact ⟨db',commit_cons_eq_ok.mpr ⟨db₁,hr,h'⟩⟩

end Commits

/-- A commit changes no read at a place to which it is not addressed, and transactions at
different places can be committed in either order, whatever is read afterwards. -/
theorem keys_isolated (ser : SerializationHelper) :
    (∀ cmds db db', commit ser cmds db = .ok db' → ∀ q : Query,
      (∀ c ∈ cmds, c.2.place ≠ some q.place) →
      ∀ o utcNow, q.read o utcNow db' = q.read o utcNow db) ∧
    ∀ cmds cmds' db db₁ db₁₂, (∀ c ∈ cmds, c.2.place ≠ none) → (∀ c ∈ cmds', c.2.place ≠ none) →
      (∀ c ∈ cmds, ∀ c' ∈ cmds', c.2.place ≠ c'.2.place) →
      commit ser cmds db = .ok db₁ → commit ser cmds' db₁ = .ok db₁₂ →
      ∃ db₂ db₂₁, commit ser cmds' db = .ok db₂ ∧ commit ser cmds db₂ = .ok db₂₁ ∧
        ∀ (q : Query) utcNow, q.answers utcNow db₂₁ = q.answers utcNow db₁₂ := by
  constructor
  · intro cmds db db' h q hq o utcNow
    exact Query.read_of_rowsAt (rowsAt_commit hq h) (commit_untouched h).1 o utcNow
  · intro cmds cmds' db db₁ db₁₂ hplace hplace' hne h₁ h₁₂
    have hboth : commit ser (cmds ++ cmds') db = .ok db₁₂ := commit_append.mpr ⟨db₁,h₁,h₁₂⟩
    have hswap : ∃ db₂₁, commit ser (cmds' ++ cmds) db = .ok db₂₁ := by
      refine commit_of_effects (fun c hc => ?_) fun p => ?_
      · exact (List.mem_append.mp hc).elim (hplace' c) (hplace c)
      · rw [← Collections.effects_swap hne]
        exact ⟨_,commit_content hboth p⟩
    obtain ⟨db₂₁,hswap⟩ := hswap
    obtain ⟨db₂,h₂,h₂₁⟩ := commit_append.mp hswap
    refine ⟨db₂,db₂₁,h₂,h₂₁,fun q utcNow => ?_⟩
    refine Query.answers_of_collections ?_ ?_ utcNow
    · have hl := commit_content hswap q.place
      rw [← Collections.effects_swap hne,commit_content hboth] at hl
      exact (Except.ok.inj hl).symm
    · rw [(commit_untouched hswap).1,(commit_untouched hboth).1]

/-- The same value is added under two keys in either order, with the ids exchanged. -/
theorem keys_isolated_two_keys : ∃ db₁ db₁₂ db₂ db₂₁,
    commit Json.helper [(0,.addToSet "a" "x" 1)] .empty = .ok db₁ ∧
    commit Json.helper [(0,.addToSet "b" "x" 2)] db₁ = .ok db₁₂ ∧
    commit Json.helper [(0,.addToSet "b" "x" 2)] .empty = .ok db₂ ∧
    commit Json.helper [(0,.addToSet "a" "x" 1)] db₂ = .ok db₂₁ ∧ db₁₂ ≠ db₂₁ ∧
    (∀ o utcNow, (Query.getSetCount "b").read o utcNow db₁ =
      (Query.getSetCount "b").read o utcNow .empty) ∧
    ∀ (q : Query) utcNow, q.answers utcNow db₂₁ = q.answers utcNow db₁₂ := by
  obtain ⟨hframe,hswap⟩ := keys_isolated Json.helper
  obtain ⟨db₂,db₂₁,h₂,h₂₁,hq⟩ := hswap [(0,.addToSet "a" "x" 1)] [(0,.addToSet "b" "x" 2)] .empty _ _
    (by decide) (by decide) (by decide) rfl rfl
  refine ⟨_,_,db₂,db₂₁,rfl,rfl,h₂,h₂₁,?_,hframe [(0,.addToSet "a" "x" 1)] _ _ rfl _ (by decide),hq⟩
  cases h₂
  cases h₂₁
  decide

end HangfireStorage
