import Mathlib.Algebra.BigOperators.Intervals
import Mathlib.Algebra.Order.Ring.Int
import Mathlib.Data.Int.ConditionallyCompleteOrder
import Mathlib.Data.Int.Interval
import Mathlib.Tactic.IntervalCases

/-!
# The proleptic Gregorian calendar

A date is a year, a month and a day, valid by the leap-year rule. `Date.dayNumber` counts the days
since 1970-01-01: those of the years in between, of the months before and of the month itself. Two
valid dates with one number are equal.
-/

namespace Gregorian

structure Date where
  year : Int
  month : Int
  day : Int
deriving DecidableEq, Repr

/-- The leap-year rule. -/
def isLeap (y : Int) : Bool := y % 4 = 0 && (y % 100 ≠ 0 || y % 400 = 0)

def daysInMonth (y m : Int) : Int :=
  if m = 2 then if isLeap y then 29 else 28
  else if m = 4 ∨ m = 6 ∨ m = 9 ∨ m = 11 then 30
  else 31

def daysInYear (y : Int) : Int := if isLeap y then 366 else 365

namespace Date

structure Valid (d : Date) : Prop where
  month_pos : 1 ≤ d.month
  month_le : d.month ≤ 12
  day_pos : 1 ≤ d.day
  day_le : d.day ≤ daysInMonth d.year d.month

end Date

/-- The days from 1970-01-01 to the first of January, negative before. -/
noncomputable def yearStart (y : Int) : Int :=
  ∑ i ∈ Finset.Ico 1970 y, daysInYear i - ∑ i ∈ Finset.Ico y 1970, daysInYear i

/-- The days of the year before the month. -/
noncomputable def monthStart (y m : Int) : Int := ∑ k ∈ Finset.Ico 1 m, daysInMonth y k

/-- The days since 1970-01-01. -/
noncomputable def Date.dayNumber (d : Date) : Int := yearStart d.year + monthStart d.year d.month + (d.day - 1)

/-! ## Years -/

theorem isLeap_iff {y : Int} : isLeap y = true ↔ y % 4 = 0 ∧ (y % 100 ≠ 0 ∨ y % 400 = 0) := by
  simp [isLeap]

theorem Ico_succ_right {a b : Int} (h : a ≤ b) :
    Finset.Ico a (b + 1) = insert b (Finset.Ico a b) := by
  ext x
  simp only [Finset.mem_Ico, Finset.mem_insert]
  omega

theorem Ico_eq_insert_left {a b : Int} (h : a < b) :
    Finset.Ico a b = insert a (Finset.Ico (a + 1) b) := by
  ext x
  simp only [Finset.mem_Ico, Finset.mem_insert]
  omega

theorem yearStart_succ (y : Int) : yearStart (y + 1) = yearStart y + daysInYear y := by
  rw [yearStart, yearStart]
  by_cases h : 1970 ≤ y
  · rw [Ico_succ_right h, Finset.sum_insert (by simp),
      Finset.Ico_eq_empty (by omega : ¬y + 1 < 1970), Finset.Ico_eq_empty (by omega : ¬y < 1970)]
    simp only [Finset.sum_empty]
    omega
  · rw [Ico_eq_insert_left (by omega : y < 1970), Finset.sum_insert (by simp),
      Finset.Ico_eq_empty (by omega : ¬1970 < y + 1), Finset.Ico_eq_empty (by omega : ¬1970 < y)]
    simp only [Finset.sum_empty]
    omega

theorem daysInYear_pos (y : Int) : 0 < daysInYear y := by
  rw [daysInYear]
  split <;> omega

theorem yearStart_mono {y y' : Int} (h : y ≤ y') : yearStart y ≤ yearStart y' := by
  obtain ⟨n, rfl⟩ := Int.le.dest h
  induction n with
  | zero => simp
  | succ n ih =>
    have hstep := yearStart_succ (y + n)
    have hpos := daysInYear_pos (y + n)
    have hprev := ih (by omega)
    rw [Nat.cast_succ, ← add_assoc]
    omega

/-- The leap years before the year, counted from year one. -/
theorem yearStart_eq (y : Int) :
    yearStart y = 365 * (y - 1970) + ((y - 1) / 4 - (y - 1) / 100 + (y - 1) / 400) - 477 := by
  have hstep : ∀ y : Int, daysInYear y = 365 +
      ((y / 4 - y / 100 + y / 400) - ((y - 1) / 4 - (y - 1) / 100 + (y - 1) / 400)) := by
    intro y
    rw [daysInYear]
    split
    · next h =>
      rw [isLeap_iff] at h
      omega
    · next h =>
      rw [isLeap_iff] at h
      omega
  have hbase : yearStart 1970 = 0 := by simp [yearStart]
  -- Upwards and downwards from 1970.
  induction y using Int.inductionOn' (b := 1970) with
  | zero => rw [hbase]; omega
  | succ y _ ih =>
    rw [yearStart_succ, ih, hstep]
    omega
  | pred y _ ih =>
    have hsucc := yearStart_succ (y - 1)
    rw [sub_add_cancel, ih, hstep] at hsucc
    omega

/-! ## Months -/

theorem monthStart_succ {y m : Int} (h : 1 ≤ m) :
    monthStart y (m + 1) = monthStart y m + daysInMonth y m := by
  rw [monthStart, monthStart, Ico_succ_right h, Finset.sum_insert (by simp)]
  omega

theorem daysInMonth_pos (y m : Int) : 0 < daysInMonth y m := by
  rw [daysInMonth]
  split
  · split <;> omega
  · split <;> omega

theorem monthStart_mono {y m m' : Int} (hm : 1 ≤ m) (h : m ≤ m') :
    monthStart y m ≤ monthStart y m' := by
  obtain ⟨n, rfl⟩ := Int.le.dest h
  induction n with
  | zero => simp
  | succ n ih =>
    have hstep : monthStart y (m + n + 1) = _ := monthStart_succ (by omega)
    have hpos := daysInMonth_pos y (m + n)
    have hprev := ih (by omega)
    rw [Nat.cast_succ, ← add_assoc]
    omega

/-- The days before each month; from March on a leap day is among them. -/
theorem monthStart_eq (y : Int) {m : Int} (h : 1 ≤ m) (h' : m ≤ 13) :
    monthStart y m = (if m ≤ 2 then 31 * (m - 1)
      else if isLeap y then (153 * m - 457) / 5 + 60 else (153 * m - 457) / 5 + 59) := by
  have hone : monthStart y 1 = 0 := by simp [monthStart]
  obtain ⟨n, rfl⟩ := Int.le.dest h
  induction n with
  | zero => simpa using hone
  | succ n ih =>
    rw [Nat.cast_succ, ← add_assoc, monthStart_succ (by omega), ih (by omega) (by omega), daysInMonth]
    have hn : n < 12 := by omega
    interval_cases n
    all_goals cases isLeap y <;> rfl

theorem monthStart_thirteen (y : Int) : monthStart y 13 = daysInYear y := by
  rw [monthStart_eq y (by omega) (by omega), daysInYear]
  cases isLeap y <;> simp

/-! ## Dates -/

namespace Date

theorem Valid.dayNumber_lt {d : Date} (h : d.Valid) :
    d.dayNumber < yearStart d.year + monthStart d.year (d.month + 1) := by
  have hstep : monthStart d.year (d.month + 1) = _ := monthStart_succ h.month_pos
  have hday := h.day_le
  rw [dayNumber]
  omega

theorem Valid.dayNumber_lt_year {d : Date} (h : d.Valid) : d.dayNumber < yearStart (d.year + 1) := by
  have hmonth : monthStart d.year (d.month + 1) ≤ monthStart d.year 13 :=
    monthStart_mono (by have := h.month_pos; omega) (by have := h.month_le; omega)
  have hlt := h.dayNumber_lt
  rw [monthStart_thirteen] at hmonth
  rw [yearStart_succ]
  omega

theorem Valid.le_dayNumber {d : Date} (h : d.Valid) : yearStart d.year ≤ d.dayNumber := by
  have hzero : monthStart d.year 1 = 0 := by simp [monthStart]
  have hmonth := monthStart_mono (y := d.year) le_rfl h.month_pos
  have hday := h.day_pos
  rw [dayNumber]
  omega

/-- A later year, a later month of it and a later day of that have larger numbers. -/
theorem Valid.year_le {d d' : Date} (h : d.Valid) (h' : d'.Valid)
    (heq : d.dayNumber = d'.dayNumber) : d.year ≤ d'.year := by
  by_contra hlt
  have hyears := yearStart_mono (by omega : d'.year + 1 ≤ d.year)
  have hbefore := h'.dayNumber_lt_year
  have hafter := h.le_dayNumber
  omega

theorem Valid.month_le_of_year {d d' : Date} (h : d.Valid) (h' : d'.Valid)
    (heq : d.dayNumber = d'.dayNumber) (hyear : d.year = d'.year) : d.month ≤ d'.month := by
  by_contra hlt
  have hmonths := monthStart_mono (y := d.year) (by have := h'.month_pos; omega)
    (by omega : d'.month + 1 ≤ d.month)
  have hbefore := h'.dayNumber_lt
  have hday := h.day_pos
  rw [← hyear, ← heq, dayNumber] at hbefore
  omega

/-- A number is that of one valid date. -/
theorem Valid.ext_dayNumber {d d' : Date} (h : d.Valid) (h' : d'.Valid)
    (heq : d.dayNumber = d'.dayNumber) : d = d' := by
  have hyear : d.year = d'.year := le_antisymm (h.year_le h' heq) (h'.year_le h heq.symm)
  have hmonth : d.month = d'.month :=
    le_antisymm (h.month_le_of_year h' heq hyear) (h'.month_le_of_year h heq.symm hyear.symm)
  have hday : d.day = d'.day := by
    rw [dayNumber, dayNumber, hyear, hmonth] at heq
    omega
  obtain ⟨y, m, day⟩ := d
  obtain ⟨y', m', day'⟩ := d'
  simp_all

end Date

end Gregorian
