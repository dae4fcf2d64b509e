import HangfireStorage.Primitives
import Mathlib.Data.List.TakeWhile

/-!
# Texts of job ids

Blanks, a sign, digits, blanks and zero characters write a number, and no other texts do.
-/

namespace HangfireStorage
namespace StringToInt32Converter

section Runs

variable {α : Type} {p : α → Bool} {l m : List α}

/-- A maximal run ends where the predicate fails. -/
theorem takeWhile_run (hl : ∀ a ∈ l, p a = true) (hm : ∀ a ∈ m.head?, p a = false) :
    (l ++ m).takeWhile p = l := by
  rw [List.takeWhile_append_of_pos hl]
  cases m with
  | nil => simp
  | cons a m => simp [hm a rfl]

theorem dropWhile_run (hl : ∀ a ∈ l, p a = true) (hm : ∀ a ∈ m.head?, p a = false) :
    (l ++ m).dropWhile p = m := by
  rw [List.dropWhile_append_of_pos hl]
  cases m with
  | nil => simp
  | cons a m => simp [hm a rfl]

end Runs

/-- The text of a number in parts. -/
structure Numeral where
  blanksBefore : List Char
  negative : Option Bool
  digits : List Char
  blanksAfter : List Char
  zeros : ℕ
  isWhite_before : ∀ c ∈ blanksBefore, isWhite c = true
  digits_ne_nil : digits ≠ []
  isDigit_digits : ∀ c ∈ digits, c.isDigit = true
  isWhite_after : ∀ c ∈ blanksAfter, isWhite c = true

namespace Numeral

def sign : Option Bool → List Char
  | none => []
  | some true => ['-']
  | some false => ['+']

/-- What follows the sign. -/
def unsignedText (n : Numeral) : List Char :=
  n.digits ++ (n.blanksAfter ++ List.replicate n.zeros (Char.ofNat 0))

def text (n : Numeral) : List Char := n.blanksBefore ++ (sign n.negative ++ n.unsignedText)

def magnitude (n : Numeral) : ℕ := Nat.ofDigitChars 10 n.digits 0

def value (n : Numeral) : ℤ := if n.negative = some true then -n.magnitude else n.magnitude

end Numeral

section Characters

variable {c : Char}

theorem digit?_eq (c : Char) : digit? c = if c.isDigit then some (c.toNat - '0'.toNat) else none := rfl

theorem not_isDigit_of_isWhite (h : isWhite c = true) : c.isDigit = false := by
  rw [Bool.eq_false_iff,ne_eq,Char.isDigit_iff_toNat]
  simp only [isWhite,Bool.or_eq_true,Bool.and_eq_true,decide_eq_true_eq] at h
  obtain rfl | h := h
  · decide
  · have : '0'.toNat = 48 := rfl
    omega

theorem not_isWhite_of_isDigit (h : c.isDigit = true) : isWhite c = false := by
  by_contra hw
  rw [not_isDigit_of_isWhite (by simpa using hw)] at h
  cases h

end Characters

/-- The digits that are read are the maximal run. -/
theorem digits_eq (acc : ℕ) (cs : List Char) : digits acc cs =
    (Nat.ofDigitChars 10 (cs.takeWhile Char.isDigit) acc,cs.dropWhile Char.isDigit) := by
  induction cs generalizing acc with
  | nil => simp [digits]
  | cons c cs ih =>
    rw [digits,digit?_eq]
    by_cases hc : c.isDigit = true
    · simp only [hc,if_true,ih,List.takeWhile_cons,List.dropWhile_cons]
      rw [Nat.ofDigitChars_cons,Nat.mul_comm]
    · simp [hc]

theorem unsigned_eq (negative : Bool) (zeros : ℕ) {ds ws : List Char} (hne : ds ≠ [])
    (hds : ∀ c ∈ ds, c.isDigit = true) (hws : ∀ c ∈ ws, isWhite c = true) (x : ℤ)
    (hx : x = if negative then -(Nat.ofDigitChars 10 ds 0 : ℤ) else Nat.ofDigitChars 10 ds 0) :
    unsigned negative (ds ++ (ws ++ List.replicate zeros (Char.ofNat 0))) =
      if Int32.InRange x then some x else none := by
  obtain ⟨d,ds,rfl⟩ := List.exists_cons_of_ne_nil hne
  have hnul : ∀ a ∈ (List.replicate zeros (Char.ofNat 0)).head?, a = Char.ofNat 0 := by
    intro a ha
    exact List.eq_of_mem_replicate (List.mem_of_mem_head? ha)
  have hhead : ∀ a ∈ (ws ++ List.replicate zeros (Char.ofNat 0)).head?, a.isDigit = false := by
    intro a ha
    obtain h | h := List.mem_append.mp (List.mem_of_mem_head? ha)
    · exact not_isDigit_of_isWhite (hws a h)
    · rw [List.eq_of_mem_replicate h]
      rfl
  have hend : ∀ a ∈ (List.replicate zeros (Char.ofNat 0)).head?, isWhite a = false := by
    intro a ha
    rw [hnul a ha]
    rfl
  have hd : (digit? d).isNone = false := by simp [digit?_eq,hds d (by simp)]
  rw [List.cons_append,unsigned]
  simp only [hd,digits_eq,Bool.false_eq_true,if_false]
  rw [← List.cons_append,takeWhile_run hds hhead,dropWhile_run hds hhead,dropWhile_run hws hend,← hx]
  simp

/-- A digit follows every sign. -/
theorem unsigned_eq_some {negative : Bool} {cs : List Char} {x : ℤ}
    (h : unsigned negative cs = some x) : Int32.InRange x ∧ ∃ n : Numeral,
      n.blanksBefore = [] ∧ n.unsignedText = cs ∧
        x = if negative then -(n.magnitude : ℤ) else n.magnitude := by
  cases cs with
  | nil => cases h
  | cons c cs =>
    simp only [unsigned,digits_eq] at h
    generalize hy : (if negative = true then
      -(Nat.ofDigitChars 10 ((c::cs).takeWhile Char.isDigit) 0 : ℤ)
      else Nat.ofDigitChars 10 ((c::cs).takeWhile Char.isDigit) 0) = y at h
    split_ifs at h with hd hrest
    obtain rfl := Option.some.inj h
    simp only [Bool.and_eq_true,List.all_eq_true,decide_eq_true_eq] at hrest
    have hc : c.isDigit = true := by
      by_contra hc
      exact hd (by simp [digit?_eq,hc])
    have hzeros := List.eq_replicate_of_mem hrest.1
    refine ⟨hrest.2,⟨[],none,(c::cs).takeWhile Char.isDigit,
      ((c::cs).dropWhile Char.isDigit).takeWhile isWhite,
      (((c::cs).dropWhile Char.isDigit).dropWhile isWhite).length,nofun,by simp [hc],
      fun a => List.mem_takeWhile_imp,fun a => List.mem_takeWhile_imp⟩,rfl,?_,hy.symm⟩
    rw [Numeral.unsignedText,← hzeros,List.takeWhile_append_dropWhile,
      List.takeWhile_append_dropWhile]

/-- How a text is read that is a numeral. -/
theorem convert_numeral {jobId : String} (n : Numeral) (h : n.text = jobId.toList) :
    convert jobId = if Int32.InRange n.value then some n.value else none := by
  obtain ⟨before,negative,ds,after,zeros,hbefore,hne,hds,hafter⟩ := n
  have hread (b : Bool) := unsigned_eq b zeros hne hds hafter _ rfl
  simp only [Numeral.text,Numeral.unsignedText] at h
  simp only [Numeral.value,Numeral.magnitude]
  have hhead : ∀ c ∈ (Numeral.sign negative ++
      (ds ++ (after ++ List.replicate zeros (Char.ofNat 0)))).head?, isWhite c = false := by
    intro c hc
    obtain ⟨d,ds',rfl⟩ := List.exists_cons_of_ne_nil hne
    cases negative with
    | none =>
      cases hc
      exact not_isWhite_of_isDigit (hds c (by simp))
    | some b => cases b <;> cases hc <;> rfl
  rw [convert,← h,dropWhile_run hbefore hhead]
  obtain - | - | - := negative
  · obtain ⟨d,ds',rfl⟩ := List.exists_cons_of_ne_nil hne
    have hd := hds d (by simp)
    have hminus : d ≠ '-' := by
      rintro rfl
      cases hd
    have hplus : d ≠ '+' := by
      rintro rfl
      cases hd
    simp only [Numeral.sign,List.nil_append,List.cons_append]
    split
    · rename_i heq
      exact absurd (List.cons.inj heq).1 hminus
    · rename_i heq
      exact absurd (List.cons.inj heq).1 hplus
    · simpa using hread false
  · simpa [Numeral.sign] using hread false
  · simpa [Numeral.sign] using hread true

theorem exists_numeral {jobId : String} {v : ℤ} (h : convert jobId = some v) :
    Int32.InRange v ∧ ∃ n : Numeral, n.text = jobId.toList ∧ n.value = v := by
  have hparts : jobId.toList.takeWhile isWhite ++ jobId.toList.dropWhile isWhite = jobId.toList :=
    List.takeWhile_append_dropWhile
  have hbuild (negative : Option Bool) (n : Numeral)
      (hn : jobId.toList.dropWhile isWhite = Numeral.sign negative ++ n.unsignedText) :
      ∃ m : Numeral, m.text = jobId.toList ∧ m.value =
        if negative = some true then -(n.magnitude : ℤ) else n.magnitude :=
    ⟨{ n with
        blanksBefore := jobId.toList.takeWhile isWhite
        negative := negative
        isWhite_before := fun c => List.mem_takeWhile_imp },by
      rw [hn] at hparts
      exact hparts,rfl⟩
  unfold convert at h
  split at h
  · rename_i cs hcs
    obtain ⟨hr,n,-,hn,rfl⟩ := unsigned_eq_some h
    exact ⟨hr,hbuild (some true) n (by rw [hcs,hn]; rfl)⟩
  · rename_i cs hcs
    obtain ⟨hr,n,-,hn,rfl⟩ := unsigned_eq_some h
    exact ⟨hr,hbuild (some false) n (by rw [hcs,hn]; rfl)⟩
  · obtain ⟨hr,n,-,hn,rfl⟩ := unsigned_eq_some h
    exact ⟨hr,hbuild none n hn.symm⟩

/-- The canonical text of an Int32 is a numeral. -/
def Numeral.ofInt (v : ℤ) : Numeral where
  blanksBefore := []
  negative := if v < 0 then some true else none
  digits := Nat.toDigits 10 v.natAbs
  blanksAfter := []
  zeros := 0
  isWhite_before := nofun
  digits_ne_nil := Nat.toDigits_ne_nil
  isDigit_digits _ hc := Nat.isDigit_of_mem_toDigits (by decide) (by decide) hc
  isWhite_after := nofun

theorem Numeral.text_ofInt (v : ℤ) : (Numeral.ofInt v).text = (toString v).toList := by
  rw [Int.toString_eq_repr,Int.repr_eq_if]
  by_cases hv : v < 0
  · have hpos : ¬ 0 ≤ v := by omega
    have habs : (-v).toNat = v.natAbs := by omega
    simp [Numeral.text,Numeral.unsignedText,Numeral.sign,Numeral.ofInt,hv,hpos,habs]
  · have hpos : 0 ≤ v := by omega
    have habs : v.toNat = v.natAbs := by omega
    simp [Numeral.text,Numeral.unsignedText,Numeral.sign,Numeral.ofInt,hv,hpos,habs]

theorem Numeral.value_ofInt (v : ℤ) : (Numeral.ofInt v).value = v := by
  have hmag : (Numeral.ofInt v).magnitude = v.natAbs := Nat.ofDigitChars_ten_toDigits
  rw [Numeral.value,hmag]
  by_cases hv : v < 0
  · simp only [Numeral.ofInt,hv,if_true]
    omega
  · simp only [Numeral.ofInt,hv,if_false,reduceCtorEq]
    omega

/-- A number is told from its text. (`Int.repr_injective` comes with the whole of Mathlib only.) -/
theorem toString_injective : Function.Injective fun v : ℤ => toString v := by
  have hread : Function.LeftInverse (fun text : String => if text.toList.head? = some '-'
      then -(Nat.ofDigitChars 10 text.toList.tail 0 : ℤ) else Nat.ofDigitChars 10 text.toList 0)
      fun v : ℤ => toString v := by
    intro v
    simp only [Int.toString_eq_repr,Int.repr_eq_if]
    by_cases hv : 0 ≤ v
    · have hhead : (Nat.toDigits 10 v.toNat).head? ≠ some '-' := by
        intro h
        cases Nat.isDigit_of_mem_toDigits (by decide) (by decide) (List.mem_of_mem_head? h)
      rw [if_pos hv,Nat.toList_repr,if_neg hhead,Nat.ofDigitChars_ten_toDigits]
      omega
    · simp only [if_neg hv,String.toList_append,Nat.toList_repr]
      show -(Nat.ofDigitChars 10 (Nat.toDigits 10 (-v).toNat) 0 : ℤ) = v
      rw [Nat.ofDigitChars_ten_toDigits]
      omega
  exact hread.injective

/-- Every id is read back from its text. -/
theorem convert_toString {v : ℤ} (h : Int32.InRange v) : convert (toString v) = some v := by
  rw [convert_numeral _ (Numeral.text_ofInt v),Numeral.value_ofInt,if_pos h]

theorem inRange_of_convert {jobId : String} {v : ℤ} (h : convert jobId = some v) :
    Int32.InRange v := (exists_numeral h).1

/-- An id is read from a text exactly if the text is a numeral and the number an Int32, and the
text of an Int32 is read as it. -/
theorem convert_eq_some_iff (jobId : String) (v : ℤ) :
    (convert jobId = some v ↔
      Int32.InRange v ∧ ∃ n : Numeral, n.text = jobId.toList ∧ n.value = v) ∧
    (Int32.InRange v → convert (toString v) = some v) := by
  refine ⟨⟨exists_numeral,?_⟩,convert_toString⟩
  rintro ⟨hr,n,htext,rfl⟩
  rw [convert_numeral n htext,if_pos hr]

end StringToInt32Converter
end HangfireStorage
