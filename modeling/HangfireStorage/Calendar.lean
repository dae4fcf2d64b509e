import Mathlib.Data.Int.Notation
import Mathlib.Data.List.Basic
import Mathlib.Tactic.Ring

/-!
# The Gregorian calendar

Days are counted from the first day of year 1. A date is taken apart by periods of 400, 100, 4
and 1 years, and put together again by counting leap days. Digits of a fixed number spell dates
so that different dates have different texts.
-/

namespace HangfireStorage
namespace Calendar

structure Date where
  year : ℕ
  month : ℕ
  day : ℕ
  deriving DecidableEq, Repr

/-- Days before each month of a year, and the days of the year. -/
def daysToMonth (leap : Bool) : List ℕ :=
  if leap then [0,31,60,91,121,152,182,213,244,274,305,335,366]
  else [0,31,59,90,120,151,181,212,243,273,304,334,365]

/-- The first month after `m` that begins after the `n`-th day. -/
def nextMonth (days : List ℕ) (n : ℕ) : ℕ → ℕ → ℕ
  | 0, m => m
  | fuel+1, m => if n < days.getD m 0 then m else nextMonth days n fuel (m+1)

/-- Quotient and remainder, with the last period one day longer than the others. -/
def split (n period last : ℕ) : ℕ × ℕ :=
  (min (n/period) last,n - min (n/period) last * period)

structure YearParts where
  y400 : ℕ
  y100 : ℕ
  y4 : ℕ
  y1 : ℕ
  dayOfYear : ℕ

def yearParts (days : ℕ) : YearParts :=
  let n := days % 146097
  let c := split n 36524 3
  let y := split (c.2 % 1461) 365 3
  ⟨days/146097,c.1,c.2/1461,y.1,y.2⟩

namespace YearParts

def year (p : YearParts) : ℕ := p.y400*400 + p.y100*100 + p.y4*4 + p.y1 + 1

def leap (p : YearParts) : Bool := p.y1 = 3 && (p.y4 ≠ 24 || p.y100 = 3)

end YearParts

def dateOfDays (days : ℕ) : Date :=
  let p := yearParts days
  let m := nextMonth (daysToMonth p.leap) p.dayOfYear 12 1
  ⟨p.year,m,p.dayOfYear - (daysToMonth p.leap).getD (m-1) 0 + 1⟩

def isLeapYear (year : ℕ) : Bool := year % 4 = 0 && (year % 100 ≠ 0 || year % 400 = 0)

def daysOfDate (d : Date) : ℕ :=
  let y := d.year-1
  y*365 + y/4 - y/100 + y/400 + (daysToMonth (isLeapYear d.year)).getD (d.month-1) 0 + (d.day-1)

section Dates

theorem YearParts.leap_iff {p : YearParts} :
    p.leap = true ↔ p.y1 = 3 ∧ (p.y4 ≠ 24 ∨ p.y100 = 3) := by
  simp [YearParts.leap]

/-- The periods of a day number are the digits of its year. -/
structure YearParts.Valid (p : YearParts) : Prop where
  y100 : p.y100 ≤ 3
  y4 : p.y4 ≤ 24
  y1 : p.y1 ≤ 3
  dayOfYear : p.dayOfYear < 366
  short : p.leap = false → p.dayOfYear < 365

theorem yearParts_valid (days : ℕ) : (yearParts days).Valid where
  y100 := by simp only [yearParts,split]; omega
  y4 := by simp only [yearParts,split]; omega
  y1 := by simp only [yearParts,split]; omega
  dayOfYear := by simp only [yearParts,split]; omega
  short := by
    intro h
    by_contra hlong
    -- A 366th day has the number of the last year of four, and is none of a short century.
    have hleap : (yearParts days).leap = true := by
      rw [YearParts.leap_iff]
      simp only [yearParts,split] at hlong ⊢
      omega
    simp [hleap] at h

theorem yearParts_days (days : ℕ) : (yearParts days).y400*146097 + (yearParts days).y100*36524 +
    (yearParts days).y4*1461 + (yearParts days).y1*365 + (yearParts days).dayOfYear = days := by
  simp only [yearParts,split]
  omega

theorem YearParts.Valid.days_before {p : YearParts} (h : p.Valid) :
    (p.year-1)*365 + (p.year-1)/4 - (p.year-1)/100 + (p.year-1)/400 =
      p.y400*146097 + p.y100*36524 + p.y4*1461 + p.y1*365 := by
  obtain ⟨h₁,h₂,h₃,-,-⟩ := h
  unfold YearParts.year
  omega

theorem YearParts.Valid.isLeapYear {p : YearParts} (h : p.Valid) : isLeapYear p.year = p.leap := by
  obtain ⟨h₁,h₂,h₃,-,-⟩ := h
  have h4 : p.year % 4 = (p.y1+1) % 4 := by
    unfold YearParts.year
    omega
  have h100 : p.year % 100 = (p.y4*4+p.y1+1) % 100 := by
    unfold YearParts.year
    omega
  have h400 : p.year % 400 = (p.y100*100+p.y4*4+p.y1+1) % 400 := by
    unfold YearParts.year
    omega
  rw [Bool.eq_iff_iff,YearParts.leap_iff]
  simp only [Calendar.isLeapYear,Bool.and_eq_true,Bool.or_eq_true,decide_eq_true_eq,h4,h100,h400]
  omega

/-- Every day of a year falls into one of its months. -/
theorem month_bounds : ∀ leap : Bool, ∀ n < 366, (leap = false → n < 365) →
    let m := nextMonth (daysToMonth leap) n 12 1
    (daysToMonth leap).getD (m-1) 0 ≤ n ∧ 1 ≤ m ∧ m ≤ 12 ∧ n < (daysToMonth leap).getD (m-1) 0 + 31 := by
  decide +kernel

theorem daysOfDate_dateOfDays (days : ℕ) : daysOfDate (dateOfDays days) = days := by
  have hdays := yearParts_days days
  have hv := yearParts_valid days
  simp only [daysOfDate,dateOfDays]
  generalize yearParts days = p at hdays hv ⊢
  obtain ⟨hle,-,-,-⟩ := month_bounds p.leap p.dayOfYear hv.dayOfYear hv.short
  rw [hv.isLeapYear,hv.days_before]
  rw [Nat.add_sub_cancel,Nat.add_assoc,Nat.add_sub_cancel' hle,hdays]

theorem dateOfDays_injective : Function.Injective dateOfDays :=
  Function.LeftInverse.injective daysOfDate_dateOfDays

theorem month_le (days : ℕ) : (dateOfDays days).month ≤ 12 :=
  (month_bounds _ _ (yearParts_valid days).dayOfYear (yearParts_valid days).short).2.2.1

theorem day_le (days : ℕ) : (dateOfDays days).day ≤ 31 := by
  have h := (month_bounds _ _ (yearParts_valid days).dayOfYear (yearParts_valid days).short).2.2.2
  simp only [dateOfDays]
  omega

/-- The last day of year 9999 has number 3652058. -/
theorem year_le {days : ℕ} (h : days < 3652059) : (dateOfDays days).year ≤ 9999 := by
  have hd := yearParts_days days
  obtain ⟨h₁,h₂,h₃,h₄,h₅⟩ := yearParts_valid days
  simp only [dateOfDays,YearParts.year]
  omega

end Dates

example : dateOfDays 738944 = ⟨2024,2,29⟩ := by decide
example : dateOfDays 3652058 = ⟨9999,12,31⟩ := by decide

section Digits

/-- The last digits of a number, with zeros in front. -/
def digits : ℕ → ℕ → List Char
  | 0, _ => []
  | w+1, n => digits w (n/10) ++ [Nat.digitChar (n%10)]

@[simp] theorem length_digits (w n : ℕ) : (digits w n).length = w := by
  induction w generalizing n with
  | zero => rfl
  | succ w ih => simp [digits,ih]

theorem digitChar_injective : ∀ m < 10, ∀ n < 10, Nat.digitChar m = Nat.digitChar n → m = n := by
  decide

theorem digits_inj {w m n : ℕ} (hm : m < 10^w) (hn : n < 10^w) (h : digits w m = digits w n) : m = n := by
  induction w generalizing m n with
  | zero => omega
  | succ w ih =>
    obtain ⟨hinit,hlast⟩ := List.append_inj' h rfl
    have hdiv : m/10 = n/10 := by
      refine ih ?_ ?_ hinit
      · rw [pow_succ] at hm
        omega
      · rw [pow_succ] at hn
        omega
    have hmod := digitChar_injective (m%10) (Nat.mod_lt m (by decide)) (n%10) (Nat.mod_lt n (by decide))
      (List.cons.inj hlast).1
    omega

/-- `yyyy-MM-dd`. -/
def formatDate (d : Date) : List Char :=
  digits 4 d.year ++ '-' :: (digits 2 d.month ++ '-' :: digits 2 d.day)

theorem formatDate_inj {d e : Date} (hd : d.year < 10^4 ∧ d.month < 10^2 ∧ d.day < 10^2)
    (he : e.year < 10^4 ∧ e.month < 10^2 ∧ e.day < 10^2) (h : formatDate d = formatDate e) : d = e := by
  obtain ⟨hyear,hrest⟩ := List.append_inj h (by simp)
  obtain ⟨hmonth,hday⟩ := List.append_inj (List.cons.inj hrest).2 (by simp)
  have h₁ := digits_inj hd.1 he.1 hyear
  have h₂ := digits_inj hd.2.1 he.2.1 hmonth
  have h₃ := digits_inj hd.2.2 he.2.2 (List.cons.inj hday).2
  cases d
  cases e
  simp_all

/-- Different days up to the end of year 9999 have different texts. -/
theorem formatDate_dateOfDays_inj {m n : ℕ} (hm : m < 3652059) (hn : n < 3652059)
    (h : formatDate (dateOfDays m) = formatDate (dateOfDays n)) : m = n := by
  have hbounds {k : ℕ} (hk : k < 3652059) : (dateOfDays k).year < 10^4 ∧
      (dateOfDays k).month < 10^2 ∧ (dateOfDays k).day < 10^2 :=
    ⟨Nat.lt_of_le_of_lt (year_le hk) (by decide),Nat.lt_of_le_of_lt (month_le k) (by decide),
      Nat.lt_of_le_of_lt (day_le k) (by decide)⟩
  exact dateOfDays_injective (formatDate_inj (hbounds hm) (hbounds hn) h)

end Digits

end Calendar
end HangfireStorage
