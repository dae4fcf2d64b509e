import Mathlib.Data.Int.Notation
import Mathlib.Tactic.Ring
import Mathlib.Tactic.Linarith
import Mathlib.Data.Int.Order.Basic

/-!
# Exceptions, dates and 32-bit integers as the storage uses them

A DateTime and a TimeSpan are their ticks of 100 ns.
-/

namespace HangfireStorage

/-- The exceptions the modelled code can let out. -/
inductive Fault
  | argument | argumentNull | argumentOutOfRange | nullReference | invalidOperation | overflow
  | foreignKey | uniqueKey | statement | serialization | keyNotFound
  deriving DecidableEq, Repr

theorem map_eq_ok {α β : Type} {f : α → β} {x : Except Fault α} {b : β} (h : x.map f = .ok b) :
    ∃ a, x = .ok a ∧ f a = b := by
  cases x with
  | error e => simp [Except.map] at h
  | ok a => exact ⟨a,rfl,by simpa [Except.map] using h⟩

theorem bind_eq_ok {α β : Type} {x : Except Fault α} {f : α → Except Fault β} {b : β} :
    x >>= f = .ok b ↔ ∃ a, x = .ok a ∧ f a = .ok b := by
  cases x <;> simp [bind,Except.bind]

theorem foldlM_cons_eq_ok {α β : Type} {f : β → α → Except Fault β} {a : α} {l : List α} {b b' : β} :
    (a::l).foldlM f b = .ok b' ↔ ∃ b₁, f b a = .ok b₁ ∧ l.foldlM f b₁ = .ok b' := by
  rw [List.foldlM_cons,bind_eq_ok]

theorem mapM_cons_eq_ok {α β : Type} {f : α → Except Fault β} {a : α} {l : List α} {bs : List β} :
    (a::l).mapM f = .ok bs ↔ ∃ b bs', f a = .ok b ∧ l.mapM f = .ok bs' ∧ b::bs' = bs := by
  simp [List.mapM_cons,bind_eq_ok,pure,Except.pure]

theorem mapM_eq_ok {α β : Type} {f : α → Except Fault β} {g : α → β} {l : List α}
    (h : ∀ a ∈ l, f a = .ok (g a)) : l.mapM f = .ok (l.map g) := by
  induction l with
  | nil => rfl
  | cons a l ih =>
    rw [List.mapM_cons,h a (by simp),ih fun b hb => h b (by simp [hb])]
    rfl

theorem mapM_ok_iff {α β : Type} {f : α → Except Fault β} {l : List α} :
    (∃ bs, l.mapM f = .ok bs) ↔ ∀ a ∈ l, ∃ b, f a = .ok b := by
  induction l with
  | nil => exact ⟨fun _ => nofun,fun _ => ⟨[],rfl⟩⟩
  | cons a l ih =>
    rw [List.forall_mem_cons,← ih]
    constructor
    · rintro ⟨bs,h⟩
      obtain ⟨b,bs',hb,hbs',-⟩ := mapM_cons_eq_ok.mp h
      exact ⟨⟨b,hb⟩,bs',hbs'⟩
    · rintro ⟨⟨b,hb⟩,bs,hbs⟩
      exact ⟨b::bs,mapM_cons_eq_ok.mpr ⟨b,bs,hb,hbs,rfl⟩⟩

theorem map_of_mapM {α β γ : Type} {f : α → Except Fault β} {k : β → γ} {k' : α → γ}
    (hk : ∀ a b, f a = .ok b → k b = k' a) {l : List α} {bs : List β} (h : l.mapM f = .ok bs) :
    bs.map k = l.map k' := by
  induction l generalizing bs with
  | nil =>
    cases h
    rfl
  | cons a l ih =>
    obtain ⟨b,bs',hb,hbs',rfl⟩ := mapM_cons_eq_ok.mp h
    rw [List.map_cons,List.map_cons,hk a b hb,ih hbs']

theorem mapM_congr {α β : Type} {f g : α → Except Fault β} {l : List α} (h : ∀ a ∈ l, f a = g a) :
    l.mapM f = l.mapM g := by
  induction l with
  | nil => rfl
  | cons a l ih => rw [List.mapM_cons,List.mapM_cons,h a (by simp),ih fun b hb => h b (by simp [hb])]

theorem mem_mapM {α β : Type} {f : α → Except Fault β} {l : List α} {bs : List β}
    (h : l.mapM f = .ok bs) (b : β) : b ∈ bs ↔ ∃ a ∈ l, f a = .ok b := by
  induction l generalizing bs with
  | nil =>
    cases h
    simp
  | cons a l ih =>
    obtain ⟨c,bs',hc,hbs',rfl⟩ := mapM_cons_eq_ok.mp h
    simp [ih hbs',hc,eq_comm]

namespace DateTime

def ticksPerMillisecond : ℤ := 10000

def maxTicks : ℤ := 3155378975999999999

/-- Milliseconds from year 1 to 1970. -/
def unixEpochMilliseconds : ℤ := 62135596800000

def InRange (t : ℤ) : Prop := 0 ≤ t ∧ t ≤ maxTicks

instance (t : ℤ) : Decidable (InRange t) := inferInstanceAs (Decidable (_ ∧ _))

def add (t span : ℤ) : Except Fault ℤ :=
  if InRange (t+span) then .ok (t+span) else .error .argumentOutOfRange

/-- `(long)(value * 1000 + (value >= 0 ? 0.5 : -0.5))` of a span in seconds, in exact
arithmetic. -/
def roundToMilliseconds (span : ℤ) : ℤ :=
  (if 0 ≤ span then span+5000 else span-5000).tdiv ticksPerMillisecond

/-- `AddSeconds` counts the seconds to the nearest millisecond. -/
def addSeconds (t span : ℤ) : Except Fault ℤ :=
  add t (roundToMilliseconds span * ticksPerMillisecond)

def toEpochDate (t : ℤ) : ℤ := t / ticksPerMillisecond - unixEpochMilliseconds

def fromEpochDate (m : ℤ) : ℤ := (m+unixEpochMilliseconds) * ticksPerMillisecond

theorem add_eq_ok {t span u : ℤ} : add t span = .ok u ↔ InRange (t+span) ∧ u = t+span := by
  unfold add
  split_ifs with h
  · simp [h,eq_comm]
  · simp [h]

theorem add_of_inRange {t span : ℤ} (h : InRange (t+span)) : add t span = .ok (t+span) :=
  add_eq_ok.mpr ⟨h,rfl⟩

theorem add_eq_error {t span : ℤ} {f : Fault} :
    add t span = .error f ↔ ¬ InRange (t+span) ∧ f = .argumentOutOfRange := by
  unfold add
  split_ifs with h
  · simp [h]
  · simp [h,eq_comm]

theorem roundToMilliseconds_neg {t : ℤ} (h : 0 < t) : roundToMilliseconds (-t) = -((t+5000)/10000) := by
  unfold roundToMilliseconds ticksPerMillisecond
  rw [if_neg (by omega),show -t-5000 = -(t+5000) by ring,Int.neg_tdiv,
    Int.tdiv_eq_ediv_of_nonneg (by omega)]

/-- Whole milliseconds are not rounded. -/
theorem roundToMilliseconds_of_dvd {t : ℤ} (h : ticksPerMillisecond ∣ t) :
    roundToMilliseconds t * ticksPerMillisecond = t := by
  obtain ⟨k,rfl⟩ := h
  unfold roundToMilliseconds ticksPerMillisecond
  split_ifs with hk
  · rw [Int.tdiv_eq_ediv_of_nonneg (by omega)]
    omega
  · rw [show 10000*k-5000 = -(-(10000*k)+5000) by ring,Int.neg_tdiv,
      Int.tdiv_eq_ediv_of_nonneg (by omega)]
    omega

theorem toEpochDate_mono {t u : ℤ} (h : t ≤ u) : toEpochDate t ≤ toEpochDate u := by
  unfold toEpochDate ticksPerMillisecond
  omega

/-- Truncation to milliseconds never turns an earlier or equal instant into a later one. -/
theorem lt_of_toEpochDate_lt {t u : ℤ} (h : toEpochDate t < toEpochDate u) : t < u := by
  by_contra hle
  have := toEpochDate_mono (not_lt.mp hle)
  omega

theorem fromEpochDate_lt {m t : ℤ} (h : m < toEpochDate t) : fromEpochDate m < t := by
  unfold toEpochDate at h
  unfold fromEpochDate
  unfold ticksPerMillisecond at *
  omega

end DateTime

namespace Int32

def InRange (x : ℤ) : Prop := -2147483648 ≤ x ∧ x ≤ 2147483647

instance (x : ℤ) : Decidable (InRange x) := inferInstanceAs (Decidable (_ ∧ _))

/-- Unchecked arithmetic keeps the low 32 bits. -/
def wrap (x : ℤ) : ℤ := x.bmod (2^32)

/-- LINQ's `Sum` over ints is checked at every addition. -/
def checkedSum : ℤ → List ℤ → Except Fault ℤ
  | acc, [] => .ok acc
  | acc, x::xs => if InRange (acc+x) then checkedSum (acc+x) xs else .error .overflow

/-- What LINQ's `Sum` computes on the way: the sums of all initial segments. -/
def RunningSums (xs : List ℤ) : Prop := ∀ n < xs.length+1, InRange (xs.take n).sum

instance (xs : List ℤ) : Decidable (RunningSums xs) :=
  inferInstanceAs (Decidable (∀ n < xs.length+1, InRange (xs.take n).sum))

theorem wrap_of_inRange {x : ℤ} (h : InRange x) : wrap x = x := by
  obtain ⟨h₁,h₂⟩ := h
  unfold wrap
  rw [Int.bmod_eq_of_le] <;> omega

/-- Numbers that differ by less than a full turn stay different. -/
theorem wrap_eq_iff {x y : ℤ} (hy : InRange y) (h : |x-y| < 2^32) : wrap x = y ↔ x = y := by
  obtain ⟨h₁,h₂⟩ := abs_lt.mp h
  obtain ⟨h₃,h₄⟩ := hy
  unfold wrap
  rw [Int.bmod_def]
  split_ifs <;> omega

theorem checkedSum_eq_ok {acc s : ℤ} {xs : List ℤ} (h : checkedSum acc xs = .ok s) :
    s = acc + xs.sum := by
  induction xs generalizing acc with
  | nil => simpa [checkedSum,eq_comm] using h
  | cons x xs ih =>
    simp only [checkedSum] at h
    split_ifs at h
    rw [ih h,List.sum_cons]
    ring

theorem wrap_inRange (x : ℤ) : InRange (wrap x) := by
  have h₁ := Int.le_bmod (x := x) (m := 2^32) (by decide)
  have h₂ := Int.bmod_lt (x := x) (m := 2^32) (by decide)
  unfold InRange wrap
  omega

theorem wrap_eq_self_iff {x : ℤ} : wrap x = x ↔ InRange x :=
  ⟨fun h => h ▸ wrap_inRange x,wrap_of_inRange⟩

theorem checkedSum_of_inRange {acc : ℤ} {xs : List ℤ}
    (h : ∀ n < xs.length, InRange (acc + (xs.take (n+1)).sum)) : checkedSum acc xs = .ok (acc + xs.sum) := by
  induction xs generalizing acc with
  | nil => simp [checkedSum]
  | cons x xs ih =>
    have hx : InRange (acc+x) := by simpa using h 0 (by simp)
    rw [checkedSum,if_pos hx,List.sum_cons,← add_assoc]
    refine ih fun n hn => ?_
    simpa [add_assoc] using h (n+1) (by simpa using hn)

theorem inRange_of_checkedSum {acc s : ℤ} {xs : List ℤ} (h : checkedSum acc xs = .ok s) :
    ∀ n < xs.length, InRange (acc + (xs.take (n+1)).sum) := by
  induction xs generalizing acc with
  | nil => simp
  | cons x xs ih =>
    simp only [checkedSum] at h
    split_ifs at h with hx
    intro n hn
    cases n with
    | zero => simpa using hx
    | succ n => simpa [add_assoc] using ih h n (by simpa using hn)

/-- `Sum` throws exactly if a sum on its way is no Int32. -/
theorem checkedSum_eq_ok_iff {s : ℤ} {xs : List ℤ} :
    checkedSum 0 xs = .ok s ↔ RunningSums xs ∧ s = xs.sum := by
  constructor
  · intro h
    refine ⟨fun n hn => ?_,by simpa using checkedSum_eq_ok h⟩
    cases n with
    | zero => exact ⟨by simp,by simp⟩
    | succ n => simpa using inRange_of_checkedSum h n (by omega)
  · rintro ⟨h,rfl⟩
    have hsum : checkedSum 0 xs = .ok (0 + xs.sum) :=
      checkedSum_of_inRange fun n hn => by simpa using h (n+1) (by omega)
    simpa using hsum

end Int32

namespace StringToInt32Converter

def isWhite (c : Char) : Bool := c = ' ' || (9 ≤ c.toNat && c.toNat ≤ 13)

def digit? (c : Char) : Option ℕ := if c.isDigit then some (c.toNat - 48) else none

/-- Value and rest of a maximal run of digits. -/
def digits : ℕ → List Char → ℕ × List Char
  | acc, [] => (acc,[])
  | acc, c::cs => match digit? c with
    | some d => digits (acc*10+d) cs
    | none => (acc,c::cs)

def unsigned (negative : Bool) (cs : List Char) : Option ℤ :=
  match cs with
  | [] => none
  | c::_ => if (digit? c).isNone then none else
    let (n,rest) := digits 0 cs
    let x : ℤ := if negative then -n else n
    if (rest.dropWhile isWhite).all (· = Char.ofNat 0) && decide (Int32.InRange x) then some x else none

/-- `int.TryParse` in the invariant culture: blanks, a sign, digits, blanks, zero characters. -/
def convert (jobId : String) : Option ℤ :=
  match jobId.toList.dropWhile isWhite with
  | '-'::cs => unsigned true cs
  | '+'::cs => unsigned false cs
  | cs => unsigned false cs

example : convert " -17 " = some (-17) := by decide
example : convert "4294967296" = none := by decide
example : convert "1 2" = none := by decide

end StringToInt32Converter
end HangfireStorage
