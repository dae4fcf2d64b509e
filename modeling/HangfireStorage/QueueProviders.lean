import HangfireStorage.FiniteMaps
import HangfireStorage.KeyedSums
import HangfireStorage.Machine
import HangfireStorage.Serialization

/-!
# The queue providers

A provider is listed first, then its queues are registered one by one. What a call has done
stays done when it throws.
-/

namespace HangfireStorage

open FiniteMap Machine

/-- The providers in the order of enumeration, and the dictionary by queue. -/
structure PersistentJobQueueProviderCollection (comparer : StringComparer) (P : Type) where
  defaultProvider : P
  providers : List P
  providersByQueue : List (String × P)
  nodup : (providersByQueue.map fun e => comparer.normal e.1).Nodup

namespace PersistentJobQueueProviderCollection

variable {comparer : StringComparer} {P : Type}

def created (defaultProvider : P) : PersistentJobQueueProviderCollection comparer P :=
  ⟨defaultProvider,[defaultProvider],[],List.nodup_nil⟩

def new : Option P → Except Fault (PersistentJobQueueProviderCollection comparer P)
  | none => .error .argumentNull
  | some defaultProvider => .ok (created defaultProvider)

def lookup (c : PersistentJobQueueProviderCollection comparer P) (queue : String) : Option P :=
  (c.providersByQueue.find? fun e => comparer.normal e.1 = comparer.normal queue).map Prod.snd

def getProvider (c : PersistentJobQueueProviderCollection comparer P) :
    Option String → Except Fault P
  | none => .error .argumentNull
  | some queue => .ok ((c.lookup queue).getD c.defaultProvider)

/-- `Dictionary.Add`. -/
def register (provider : P) (queue : Option String)
    (c : PersistentJobQueueProviderCollection comparer P) :
    Except Fault (PersistentJobQueueProviderCollection comparer P) :=
  match queue with
  | none => .error .argumentNull
  | some queue =>
    if h : comparer.normal queue ∈ c.providersByQueue.map fun e => comparer.normal e.1 then
      .error .argument
    else .ok { c with
      providersByQueue := c.providersByQueue ++ [(queue,provider)]
      nodup := by
        rw [List.map_append,List.nodup_append]
        exact ⟨c.nodup,by simp,fun a ha b hb hab => h (by simp_all)⟩ }

/-- The loop of `Add`, with the exception that ends it. -/
def registerAll (provider : P) : List (Option String) →
    PersistentJobQueueProviderCollection comparer P →
    PersistentJobQueueProviderCollection comparer P × Option Fault
  | [], c => (c,none)
  | queue::queues, c =>
    match c.register provider queue with
    | .error f => (c,some f)
    | .ok c' => registerAll provider queues c'

structure AddCall (P : Type) where
  provider : Option P
  queues : Option (List (Option String))

def add (c : PersistentJobQueueProviderCollection comparer P) (call : AddCall P) :
    PersistentJobQueueProviderCollection comparer P × Option Fault :=
  match call.provider, call.queues with
  | none, _ => (c,some .argumentNull)
  | some _, none => (c,some .argumentNull)
  | some provider, some queues =>
    registerAll provider queues { c with providers := c.providers ++ [provider] }

def table (c : PersistentJobQueueProviderCollection comparer P) : List (String × P) :=
  c.providersByQueue.map fun e => (comparer.normal e.1,e.2)

/-- What the dictionary is for: a map from normal names to providers. -/
def resolves (c : PersistentJobQueueProviderCollection comparer P) : String → Option P :=
  fun name => (c.table.find? fun e => e.1 = name).map Prod.snd

structure Fits (c : PersistentJobQueueProviderCollection comparer P) (names : List String) :
    Prop where
  nodup : (names.map comparer.normal).Nodup
  free : ∀ queue ∈ names, c.lookup queue = none

structure AllOrNothing (call : AddCall P) (c c' : PersistentJobQueueProviderCollection comparer P)
    (exception : Option Fault) : Prop where
  thrown : exception ≠ none →
    c'.providers = c.providers ∧ ∀ queue, c'.getProvider queue = c.getProvider queue
  returned : exception = none → ∃ provider, ∃ names : List String, call.provider = some provider ∧
    call.queues = some (names.map some) ∧ ∀ queue, c'.getProvider (some queue) =
      if comparer.normal queue ∈ names.map comparer.normal then .ok provider
      else c.getProvider (some queue)

section Registrations

variable {c c' : PersistentJobQueueProviderCollection comparer P} {provider : P}
  {queues : List (Option String)} {names : List String} {exception : Option Fault}

theorem keys_table (c : PersistentJobQueueProviderCollection comparer P) :
    c.table.map Prod.fst = c.providersByQueue.map fun e => comparer.normal e.1 := by
  rw [table,List.map_map]
  rfl

theorem represents (c : PersistentJobQueueProviderCollection comparer P) :
    Represents c.table c.resolves :=
  Represents.find (c.keys_table ▸ c.nodup)

theorem lookup_eq (c : PersistentJobQueueProviderCollection comparer P) (queue : String) :
    c.lookup queue = c.resolves (comparer.normal queue) := by
  rw [lookup,resolves,table,List.find?_map,Option.map_map]
  rfl

/-- A registration that is refused has done nothing; one that is not updates the map. -/
theorem register_spec (provider : P) (queue : Option String)
    (c : PersistentJobQueueProviderCollection comparer P) :
    (∃ f, c.register provider queue = .error f ∧
      (queue = none ∨ ∃ q, queue = some q ∧ c.lookup q ≠ none)) ∨
    ∃ q c', queue = some q ∧ c.lookup q = none ∧ c.register provider queue = .ok c' ∧
      c'.defaultProvider = c.defaultProvider ∧ c'.providers = c.providers ∧
      c'.resolves = Function.update c.resolves (comparer.normal q) (some provider) := by
  cases queue with
  | none => exact .inl ⟨.argumentNull,rfl,.inl rfl⟩
  | some q =>
    have hkey : comparer.normal q ∈ (c.providersByQueue.map fun e => comparer.normal e.1) ↔
        c.lookup q ≠ none := by
      rw [← keys_table,c.represents.mem_keys,lookup_eq,Option.ne_none_iff_exists']
    unfold register
    dsimp only
    split_ifs with h
    · exact .inl ⟨.argument,rfl,.inr ⟨q,rfl,hkey.mp h⟩⟩
    · have hfree : c.lookup q = none := not_not.mp fun hl => h (hkey.mpr hl)
      refine .inr ⟨q,_,rfl,hfree,rfl,rfl,rfl,?_⟩
      refine Represents.unique (represents _) ?_
      have happ := c.represents.append (c.lookup_eq q ▸ hfree) provider
      rw [table] at happ ⊢
      simpa using happ

theorem fits_cons {q : String} (hc' : c'.resolves =
    Function.update c.resolves (comparer.normal q) (some provider)) (hfree : c.lookup q = none) :
    c.Fits (q::names) ↔ c'.Fits names := by
  have hlookup : ∀ queue, c'.lookup queue = none ↔
      comparer.normal queue ≠ comparer.normal q ∧ c.lookup queue = none := by
    intro queue
    rw [lookup_eq,lookup_eq,hc']
    by_cases hq : comparer.normal queue = comparer.normal q
    · simp [hq]
    · simp [hq]
  constructor
  · intro h
    obtain ⟨hnew,hnodup⟩ := List.nodup_cons.mp h.nodup
    refine ⟨hnodup,fun queue hqueue => (hlookup queue).mpr ⟨?_,h.free queue (by simp [hqueue])⟩⟩
    exact ne_of_mem_of_not_mem (List.mem_map_of_mem hqueue) hnew
  · intro h
    have hnew : comparer.normal q ∉ names.map comparer.normal := by
      rw [List.mem_map]
      rintro ⟨queue,hqueue,heq⟩
      exact ((hlookup queue).mp (h.free queue hqueue)).1 heq
    refine ⟨List.nodup_cons.mpr ⟨hnew,h.nodup⟩,fun queue hqueue => ?_⟩
    obtain rfl | hqueue := List.mem_cons.mp hqueue
    · exact hfree
    · exact ((hlookup queue).mp (h.free queue hqueue)).2

/-- The loop ends without an exception exactly if the names fit, and has then registered them. -/
theorem registerAll_spec (h : registerAll provider queues c = (c',exception)) :
    c'.defaultProvider = c.defaultProvider ∧ c'.providers = c.providers ∧
    (exception = none ↔ ∃ names : List String, queues = names.map some ∧ c.Fits names) ∧
    ∀ names : List String, exception = none → queues = names.map some →
      c'.resolves = write c.resolves (names.map fun q => (comparer.normal q,provider)) := by
  induction queues generalizing c with
  | nil =>
    cases h
    refine ⟨rfl,rfl,⟨fun _ => ⟨[],rfl,.nil,nofun⟩,fun _ => rfl⟩,fun names _ hnames => ?_⟩
    rw [List.map_eq_nil_iff.mp hnames.symm]
    rfl
  | cons queue queues ih =>
    obtain ⟨f,hf,hbad⟩ | ⟨q,c₁,rfl,hfree,hok,hdefault,hproviders,hresolves⟩ :=
      register_spec provider queue c
    · simp only [registerAll,hf] at h
      cases h
      refine ⟨rfl,rfl,⟨nofun,?_⟩,fun _ => nofun⟩
      rintro ⟨names,hnames,hfits⟩
      obtain ⟨q,names,rfl,rfl,-⟩ := List.map_eq_cons_iff.mp hnames.symm
      obtain hnone | ⟨q',hq',htaken⟩ := hbad
      · cases hnone
      · cases hq'
        exact absurd (hfits.free q (by simp)) htaken
    · simp only [registerAll,hok] at h
      obtain ⟨hdefault',hproviders',hthrown,hmap⟩ := ih h
      refine ⟨hdefault'.trans hdefault,hproviders'.trans hproviders,hthrown.trans ?_,?_⟩
      · constructor
        · rintro ⟨names,rfl,hfits⟩
          exact ⟨q::names,rfl,(fits_cons hresolves hfree).mpr hfits⟩
        · rintro ⟨names,hnames,hfits⟩
          obtain ⟨q',names,rfl,hq',rfl⟩ := List.map_eq_cons_iff.mp hnames.symm
          cases hq'
          exact ⟨names,rfl,(fits_cons hresolves hfree).mp hfits⟩
      · intro names hnone hnames
        obtain ⟨q',names,rfl,hq',rfl⟩ := List.map_eq_cons_iff.mp hnames.symm
        cases hq'
        rw [hmap names hnone rfl,hresolves]
        rfl

theorem registerAll_keeps {q : String} {p : P} (h : registerAll provider queues c = (c',exception))
    (hq : c.lookup q = some p) : c'.lookup q = some p := by
  induction queues generalizing c with
  | nil =>
    cases h
    exact hq
  | cons queue queues ih =>
    obtain ⟨f,hf,-⟩ | ⟨q',c₁,-,hfree,hok,-,-,hresolves⟩ := register_spec provider queue c
    · simp only [registerAll,hf] at h
      cases h
      exact hq
    · simp only [registerAll,hok] at h
      refine ih h ?_
      rw [lookup_eq] at hfree hq ⊢
      have hne : comparer.normal q ≠ comparer.normal q' := fun he => by
        rw [he,hfree] at hq
        cases hq
      rw [hresolves,Function.update_of_ne hne,hq]

theorem getProvider_eq (hdefault : c'.defaultProvider = c.defaultProvider)
    (hresolves : c'.resolves = write c.resolves (names.map fun q => (comparer.normal q,provider)))
    (queue : String) : c'.getProvider (some queue) =
      if comparer.normal queue ∈ names.map comparer.normal then .ok provider
      else c.getProvider (some queue) := by
  have hnames : names.map (fun q => (comparer.normal q,provider)) =
      (names.map comparer.normal).map fun name => (name,provider) := by
    rw [List.map_map]
    rfl
  rw [hnames] at hresolves
  simp only [getProvider,lookup_eq,hdefault,hresolves,write_const]
  split_ifs <;> rfl

end Registrations

section Calls

variable {c c' : PersistentJobQueueProviderCollection comparer P} {call : AddCall P}
  {exception : Option Fault}

/-- A call is refused at once, or lists its provider and registers what it can. -/
theorem add_cases (h : c.add call = (c',exception)) :
    (call.provider = none ∨ call.queues = none) ∧ c' = c ∧ exception = some .argumentNull ∨
    ∃ provider queues, call.provider = some provider ∧ call.queues = some queues ∧
      registerAll provider queues { c with providers := c.providers ++ [provider] } =
        (c',exception) := by
  unfold add at h
  split at h
  · cases h
    exact .inl ⟨.inl ‹_›,rfl,rfl⟩
  · cases h
    exact .inl ⟨.inr ‹_›,rfl,rfl⟩
  · exact .inr ⟨_,_,‹_›,‹_›,h⟩

theorem add_spec (h : c.add call = (c',exception)) : AllOrNothing call c c' exception ↔
    (call.provider = none ∨ call.queues = none ∨
      ∃ names : List String, call.queues = some (names.map some) ∧ c.Fits names) := by
  obtain ⟨hnull,rfl,rfl⟩ | ⟨provider,queues,hp,hq,hr⟩ := add_cases h
  · refine ⟨fun _ => hnull.imp_right .inl,fun _ => ⟨fun _ => ⟨rfl,fun _ => rfl⟩,nofun⟩⟩
  · obtain ⟨hdefault,hproviders,hthrown,hmap⟩ := registerAll_spec hr
    constructor
    · intro hall
      have hnone : exception = none := by
        -- otherwise the provider is listed all the same
        by_contra hsome
        have hlen := congrArg List.length ((hall.thrown hsome).1.symm.trans hproviders)
        simp at hlen
      obtain ⟨names,rfl,hfits⟩ := hthrown.mp hnone
      exact .inr (.inr ⟨names,hq,hfits.nodup,hfits.free⟩)
    · rintro (hnull | hnull | ⟨names,hnames,hfits⟩)
      · cases hp.symm.trans hnull
      · cases hq.symm.trans hnull
      · obtain rfl : queues = names.map some := Option.some.inj (hq.symm.trans hnames)
        have hnone := hthrown.mpr ⟨names,rfl,hfits.nodup,hfits.free⟩
        exact ⟨absurd hnone,fun _ =>
          ⟨provider,names,hp,hq,getProvider_eq hdefault (hmap names hnone rfl)⟩⟩

theorem exec_keeps {q : String} {p : P} (calls : List (AddCall P)) (hq : c.lookup q = some p) :
    (exec add c calls).lookup q = some p := by
  let I := fun c : PersistentJobQueueProviderCollection comparer P => c.lookup q = some p
  refine exec_invariant (C := fun _ _ => True) (I := I) ?_ (along_of_forall fun _ _ _ => trivial) hq
  intro c call (hq : c.lookup q = some p) _
  show (c.add call).1.lookup q = some p
  have hadd : c.add call = ((c.add call).1,(c.add call).2) := rfl
  obtain ⟨-,hc,-⟩ | ⟨provider,queues,-,-,hr⟩ := add_cases hadd
  · rw [hc]
    exact hq
  · exact registerAll_keeps hr hq

end Calls

section Fetching

variable [DecidableEq P] {c c' : PersistentJobQueueProviderCollection comparer P}
  {queues : List (Option String)} {p : P}

def fetchNextJobProvider (c : PersistentJobQueueProviderCollection comparer P)
    (queues : Option (List (Option String))) : Except Fault P :=
  match queues with
  | none => .error .argumentNull
  | some [] => .error .argumentNull
  | some queues =>
    match queues.mapM c.getProvider with
    | .error f => .error f
    | .ok providers =>
      match providers.eraseDups with
      | [provider] => .ok provider
      | _ => .error .invalidOperation

theorem eraseDups_eq_singleton {ps : List P} : ps.eraseDups = [p] ↔ ps ≠ [] ∧ ∀ q ∈ ps, q = p := by
  constructor
  · intro h
    refine ⟨fun hnil => ?_,fun q hq => ?_⟩
    · rw [hnil] at h
      cases h
    · rw [← List.mem_eraseDups,h] at hq
      exact List.mem_singleton.mp hq
  · rintro ⟨hne,hall⟩
    obtain ⟨q,ps,rfl⟩ := List.exists_cons_of_ne_nil hne
    obtain rfl := hall q (by simp)
    refine List.perm_singleton.mp ((List.perm_ext_iff_of_nodup (nodup_eraseDups _)
      (List.nodup_singleton q)).mpr fun x => ?_)
    rw [List.mem_eraseDups,List.mem_singleton]
    exact ⟨hall x,fun hx => by simp [hx]⟩

/-- A server fetches from a provider exactly if all its queues have it. -/
theorem fetchNextJobProvider_eq_ok_iff : c.fetchNextJobProvider (some queues) = .ok p ↔
    queues ≠ [] ∧ ∀ queue ∈ queues, c.getProvider queue = .ok p := by
  cases queues with
  | nil => simp [fetchNextJobProvider]
  | cons queue queues =>
    constructor
    · intro h
      refine ⟨nofun,fun q hq => ?_⟩
      cases hm : (queue::queues).mapM c.getProvider with
      | error f =>
        simp only [fetchNextJobProvider,hm] at h
        cases h
      | ok ps =>
        obtain ⟨-,hall⟩ : ps ≠ [] ∧ ∀ x ∈ ps, x = p := by
          rw [← eraseDups_eq_singleton]
          simp only [fetchNextJobProvider,hm] at h
          split at h <;> cases h
          assumption
        -- no name is null, so that every queue has a provider
        let g := fun q => (c.getProvider q).toOption.getD p
        have hg : ∀ q ∈ queue::queues, c.getProvider q = .ok (g q) := by
          intro q hq
          obtain ⟨b,hb⟩ := mapM_ok_iff.mp ⟨ps,hm⟩ q hq
          simp [g,hb,Except.toOption]
        rw [mapM_eq_ok hg] at hm
        cases hm
        rw [hg q hq,hall (g q) (List.mem_map_of_mem hq)]
    · rintro ⟨-,hall⟩
      have hm := mapM_eq_ok (g := fun _ => p) hall
      have hone : ((queue::queues).map fun _ => p).eraseDups = [p] :=
        eraseDups_eq_singleton.mpr ⟨by simp,by simp⟩
      simp only [fetchNextJobProvider,hm,hone]

/-- What a refused call leaves behind shows in no fetch if the call is all or nothing. -/
theorem fetchNextJobProvider_of_thrown {call : AddCall P} {f : Fault}
    (h : AllOrNothing call c c' (some f)) (queues : Option (List (Option String))) :
    c'.fetchNextJobProvider queues = c.fetchNextJobProvider queues := by
  have hget : c'.getProvider = c.getProvider := funext (h.thrown nofun).2
  simp only [fetchNextJobProvider,hget]

end Fetching

/-- A call of `Add` on a collection that calls have made is all or nothing exactly if an argument
is null or its names can all be registered. -/
theorem add_all_or_nothing_iff (defaultProvider : P) (calls : List (AddCall P)) (call : AddCall P) :
    let c : PersistentJobQueueProviderCollection comparer P := exec add (created defaultProvider) calls
    AllOrNothing call c (c.add call).1 (c.add call).2 ↔
      (call.provider = none ∨ call.queues = none ∨
        ∃ names : List String, call.queues = some (names.map some) ∧ c.Fits names) :=
  add_spec rfl

/-- The second name is the first in capitals. -/
def twice : AddCall ℕ := ⟨some 1,some [some "default",some "DEFAULT"]⟩

/-- The call throws. The provider is enumerated and has got the queue, and a server with two queues
no longer fetches. -/
theorem add_half_done :
    let c : PersistentJobQueueProviderCollection .asciiIgnoreCase ℕ := created 0
    (c.add twice).2 = some .argument ∧
    c.providers = [0] ∧ (c.add twice).1.providers = [0,1] ∧
    c.getProvider (some "default") = .ok 0 ∧ (c.add twice).1.getProvider (some "default") = .ok 1 ∧
    c.fetchNextJobProvider (some [some "default",some "critical"]) = .ok 0 ∧
    (c.add twice).1.fetchNextJobProvider (some [some "default",some "critical"]) =
      .error .invalidOperation ∧
    ¬ AllOrNothing twice c (c.add twice).1 (c.add twice).2 := by
  refine ⟨rfl,rfl,rfl,rfl,rfl,rfl,rfl,fun h => ?_⟩
  cases (h.thrown nofun).1

end PersistentJobQueueProviderCollection
end HangfireStorage
