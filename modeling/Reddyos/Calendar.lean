import Mathlib.Algebra.BigOperators.Group.List.Basic
import Mathlib.Algebra.GroupWithZero.Nat
import Mathlib.Data.Nat.Basic
import Mathlib.Tactic.IntervalCases

/-! The Gregorian calendar: dates, the day after a date, and the number of a day. -/
namespace Calendar

def Leap (year : Nat) : Prop := (year % 4 = 0 ∧ year % 100 ≠ 0) ∨ year % 400 = 0

instance (year : Nat) : Decidable (Leap year) := inferInstanceAs (Decidable ((_ ∧ _) ∨ _))

def yearDays (year : Nat) : Nat := if Leap year then 366 else 365

def monthDays (year month : Nat) : Nat :=
  match month with
  | 2 => if Leap year then 29 else 28
  | 4 | 6 | 9 | 11 => 30
  | _ => 31

structure Date where
  year : Nat
  month : Nat
  day : Nat
  deriving DecidableEq, Repr

structure Date.Valid (date : Date) : Prop where
  month : 1 ≤ date.month ∧ date.month ≤ 12
  day : 1 ≤ date.day ∧ date.day ≤ monthDays date.year date.month

def Date.next (date : Date) : Date :=
  if date.day < monthDays date.year date.month then ⟨date.year,date.month,date.day + 1⟩
  else if date.month < 12 then ⟨date.year,date.month + 1,1⟩
  else ⟨date.year + 1,1,1⟩

/-- Days of the years from 0 to the one before. -/
def daysToYear (year : Nat) : Nat := 365 * year + (year + 3) / 4 - (year + 99) / 100 + (year + 399) / 400

def daysToMonth (year month : Nat) : Nat := ((List.range (month - 1)).map fun i => monthDays year (i + 1)).sum

/-- The number of a day; 0000-01-01 is day 1. -/
def Date.number (date : Date) : Nat := daysToYear date.year + daysToMonth date.year date.month + date.day

variable {date : Date} {year month : Nat}

theorem daysToYear_succ (year : Nat) : daysToYear (year + 1) = daysToYear year + yearDays year := by
  have fourth : (year + 1 + 3) / 4 = (year + 3) / 4 + if year % 4 = 0 then 1 else 0 := by split <;> omega
  have century : (year + 1 + 99) / 100 = (year + 99) / 100 + if year % 100 = 0 then 1 else 0 := by split <;> omega
  have era : (year + 1 + 399) / 400 = (year + 399) / 400 + if year % 400 = 0 then 1 else 0 := by split <;> omega
  have few : (year + 99) / 100 ≤ 365 * year := by omega
  have whole : year % 400 = 0 → year % 100 = 0 := by omega
  have quarter : year % 100 = 0 → year % 4 = 0 := by omega
  unfold daysToYear yearDays Leap
  rw [fourth,century,era]
  generalize (year + 3) / 4 = a at *
  generalize (year + 99) / 100 = b at *
  generalize (year + 399) / 400 = c at *
  by_cases all : year % 400 = 0
  · have hundred := whole all
    simp only [quarter hundred,hundred,all,or_true,if_true]
    omega
  · by_cases hundred : year % 100 = 0
    · simp only [quarter hundred,hundred,all,not_true,and_false,or_self,ne_eq,if_true,if_false]
      omega
    · by_cases four : year % 4 = 0
      · simp only [four,hundred,ne_eq,not_false_eq_true,and_self,true_or,if_true,if_false,all]
        omega
      · simp only [four,hundred,false_and,all,or_self,if_false]
        omega

theorem daysToMonth_succ (positive : 1 ≤ month) :
    daysToMonth year (month + 1) = daysToMonth year month + monthDays year month := by
  obtain ⟨n,rfl⟩ := Nat.exists_eq_add_of_le positive
  simp [daysToMonth,Nat.add_comm 1 n,List.range_succ]

theorem daysToMonth_year (year : Nat) : daysToMonth year 13 = yearDays year := by
  unfold yearDays
  split <;> simp [daysToMonth,monthDays,List.range_succ, *]

theorem monthDays_le (year month : Nat) : monthDays year month ≤ 31 := by
  unfold monthDays
  split <;> (try split) <;> decide

theorem number_next (valid : date.Valid) : date.next.number = date.number + 1 := by
  obtain ⟨year,month,day⟩ := date
  obtain ⟨⟨first,last⟩,_,within⟩ := valid
  simp only at first last within
  unfold Date.next
  dsimp only
  split
  · rfl
  · have end_day : day = monthDays year month := by omega
    split
    · simp only [Date.number]
      rw [daysToMonth_succ first,end_day]
      omega
    · obtain rfl : month = 12 := by omega
      have total : daysToMonth year 13 = daysToMonth year 12 + monthDays year 12 := daysToMonth_succ (by decide)
      rw [daysToMonth_year] at total
      simp only [Date.number]
      rw [daysToYear_succ,total,end_day]
      simp only [daysToMonth,Nat.sub_self,List.range_zero,List.map_nil,List.sum_nil]
      omega

theorem Date.Valid.next (valid : date.Valid) : date.next.Valid := by
  obtain ⟨year,month,day⟩ := date
  obtain ⟨⟨first,last⟩,positive,within⟩ := valid
  simp only at first last positive within
  have long : ∀ y m, 1 ≤ monthDays y m := by
    intro y m
    unfold monthDays
    split <;> (try split) <;> decide
  unfold Date.next
  dsimp only
  split
  · exact ⟨⟨first,last⟩,Nat.le_add_left 1 day,by assumption⟩
  · split
    · exact ⟨⟨Nat.le_add_left 1 month,Nat.succ_le_of_lt ‹_›⟩,Nat.le_refl 1,long _ _⟩
    · exact ⟨⟨Nat.le_refl 1,show 1 ≤ 12 by decide⟩,Nat.le_refl 1,long _ _⟩

def Date.Before (a b : Date) : Prop :=
  a.year < b.year ∨ a.year = b.year ∧ (a.month < b.month ∨ a.month = b.month ∧ a.day < b.day)

instance (a b : Date) : Decidable (a.Before b) := inferInstanceAs (Decidable (_ ∨ _))

theorem daysToYear_mono (before : first ≤ year) : daysToYear first ≤ daysToYear year := by
  obtain ⟨n,rfl⟩ := Nat.exists_eq_add_of_le before
  clear before
  induction n with
  | zero => exact Nat.le_refl _
  | succ n ih =>
    rw [← Nat.add_assoc,daysToYear_succ]
    exact Nat.le_add_right_of_le ih

theorem daysToMonth_mono (positive : 1 ≤ first) (before : first ≤ month) :
    daysToMonth year first ≤ daysToMonth year month := by
  obtain ⟨n,rfl⟩ := Nat.exists_eq_add_of_le before
  clear before
  induction n with
  | zero => exact Nat.le_refl _
  | succ n ih =>
    rw [← Nat.add_assoc,daysToMonth_succ (Nat.le_add_right_of_le positive)]
    exact Nat.le_add_right_of_le ih

/-- A date lies in its month, and the month in its year. -/
theorem Date.Valid.within (valid : date.Valid) :
    daysToMonth date.year date.month + date.day ≤ daysToMonth date.year (date.month + 1) ∧
      daysToMonth date.year (date.month + 1) ≤ yearDays date.year := by
  constructor
  · rw [daysToMonth_succ valid.month.1]
    exact Nat.add_le_add_left valid.day.2 _
  · rw [← daysToMonth_year]
    exact daysToMonth_mono (Nat.le_add_left 1 _) (Nat.succ_le_succ valid.month.2)

theorem number_lt {a b : Date} (valid : a.Valid) (valid' : b.Valid) (before : a.Before b) : a.number < b.number := by
  obtain ⟨month,year⟩ := valid.within
  have positive := valid'.day.1
  simp only [Date.number]
  rcases before with earlier | ⟨sameYear,earlier | ⟨sameMonth,earlier⟩⟩
  · have years := daysToYear_mono (Nat.succ_le_of_lt earlier)
    rw [Nat.succ_eq_add_one,daysToYear_succ] at years
    omega
  · have months : daysToMonth a.year (a.month + 1) ≤ daysToMonth a.year b.month :=
      daysToMonth_mono (Nat.le_add_left 1 _) (Nat.succ_le_of_lt earlier)
    rw [← sameYear]
    omega
  · rw [← sameYear,← sameMonth]
    omega

/-- The number of a day from 1970-01-01 on. Years are counted from March, so that a leap day is the last day of
its year; 719468 days lie between 0000-03-01 and the epoch. -/
def Date.epochDay (date : Date) : Int :=
  let year : Int := if date.month ≤ 2 then date.year - 1 else date.year
  let month : Int := (date.month + 9) % 12
  365 * year + year / 4 - year / 100 + year / 400 + (153 * month + 2) / 5 + (date.day - 1) - 719468

/-- Months alternate between 31 and 30 days from March to July and from August to December. -/
theorem daysToMonth_closed (first : 1 ≤ month) (last : month ≤ 12) : daysToMonth year month =
    if month ≤ 2 then 31 * (month - 1) else (153 * (month - 3) + 2) / 5 + (if Leap year then 60 else 59) := by
  by_cases leap : Leap year <;> interval_cases month <;> simp [daysToMonth,monthDays,leap,List.range_succ]

theorem leap_days (year : Nat) (later : 1 ≤ year) : (daysToYear year : Int) + (if Leap year then 1 else 0) =
    365 * year + (year : Int) / 4 - (year : Int) / 100 + (year : Int) / 400 + 1 := by
  have next := daysToYear_succ year
  have step : (daysToYear (year + 1) : Int) = 365 * year + 365 + (year : Int) / 4 - (year : Int) / 100 + (year : Int) / 400 + 1 := by
    unfold daysToYear
    omega
  unfold yearDays at next
  by_cases leap : Leap year
  · rw [if_pos leap] at next ⊢
    omega
  · rw [if_neg leap] at next ⊢
    omega

theorem number_closed (valid : date.Valid) (later : 1 ≤ date.year) :
    date.epochDay = (date.number : Int) - (⟨1970,1,1⟩ : Date).number := by
  have epoch : (⟨1970,1,1⟩ : Date).number = 719529 := by decide
  obtain ⟨first,last⟩ := valid.month
  rw [epoch,Date.number,daysToMonth_closed first last,Date.epochDay]
  by_cases winter : date.month ≤ 2
  · simp only [if_pos winter]
    unfold daysToYear
    omega
  · have leap := leap_days date.year later
    simp only [if_neg winter]
    by_cases long : Leap date.year
    · rw [if_pos long] at leap ⊢
      omega
    · rw [if_neg long] at leap ⊢
      omega

end Calendar
