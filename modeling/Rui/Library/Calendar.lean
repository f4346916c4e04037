import Mathlib

/-!
# The Gregorian calendar

Dates, counted in days from the first of January 1970, backwards and forwards without
end. Every day is the day of exactly one date.
-/

namespace Library

def isLeapYear (year : Int) : Bool :=
  decide (year % 4 = 0 ∧ (year % 100 ≠ 0 ∨ year % 400 = 0))

def yearDays (year : Int) : Int := if isLeapYear year then 366 else 365

def monthDays (year : Int) (month : Nat) : Nat :=
  if month = 2 then (if isLeapYear year then 29 else 28)
  else if month = 4 ∨ month = 6 ∨ month = 9 ∨ month = 11 then 30
  else 31

/-- Leap years up to this one, in excess of those up to the year 0. -/
def leapsThrough (year : Int) : Int := year / 4 - year / 100 + year / 400

/-- The first of January. -/
def firstDay (year : Int) : Int :=
  365 * (year - 1970) + leapsThrough (year - 1) - leapsThrough 1969

/-- The days of a year before a month. -/
def daysBeforeMonth (year : Int) (month : Nat) : Nat :=
  ((List.range (month - 1)).map fun m => monthDays year (m + 1)).sum

structure Date where
  year : Int
  month : Nat
  day : Nat
  month_pos : 1 ≤ month
  month_le : month ≤ 12
  day_pos : 1 ≤ day
  day_le : day ≤ monthDays year month

/-- Days since the first of January 1970. -/
def Date.number (date : Date) : Int :=
  firstDay date.year + daysBeforeMonth date.year date.month + (date.day - 1)

/-- Monday is 0; the first of January 1970 was a Thursday. -/
def weekday (day : Int) : Nat := ((day + 3) % 7).toNat

/-! ## Years -/

theorem firstDay_1970 : firstDay 1970 = 0 := rfl

theorem firstDay_succ (year : Int) : firstDay (year + 1) = firstDay year + yearDays year := by
  have hleap : isLeapYear year = true ↔ year % 4 = 0 ∧ (year % 100 ≠ 0 ∨ year % 400 = 0) :=
    decide_eq_true_iff
  simp only [firstDay, leapsThrough, yearDays, hleap, Int.add_sub_cancel]
  split_ifs <;> omega

theorem yearDays_pos (year : Int) : 365 ≤ yearDays year ∧ yearDays year ≤ 366 := by
  rw [yearDays]
  split_ifs <;> omega

theorem firstDay_strictMono : StrictMono firstDay :=
  strictMono_int_of_lt_succ fun year => by
    have := (yearDays_pos year).1
    rw [firstDay_succ]
    omega

/-- The year of a day by the mean year of 365.2425 days, which is off by at most one. -/
def meanYear (day : Int) : Int := 1970 + 10000 * day / 3652425

theorem meanYear_bounds (day : Int) :
    firstDay (meanYear day - 1) ≤ day ∧ day < firstDay (meanYear day + 2) := by
  have hestimate : ∀ year, 10000 * firstDay year ≤ 3652425 * (year - 1970) + 20000 ∧
      3652425 * (year - 1970) - 20000 ≤ 10000 * firstDay year := by
    intro year
    simp only [firstDay, leapsThrough]
    omega
  have hlow := hestimate (meanYear day - 1)
  have hhigh := hestimate (meanYear day + 2)
  generalize hguess : meanYear day = guess at hlow hhigh
  rw [meanYear] at hguess
  omega

theorem exists_year (day : Int) : ∃ year, firstDay year ≤ day ∧ day < firstDay (year + 1) := by
  obtain ⟨hbelow, habove⟩ := meanYear_bounds day
  rcases Int.lt_or_le day (firstDay (meanYear day)) with hlt | hge
  · exact ⟨meanYear day - 1, hbelow, by rwa [Int.sub_add_cancel]⟩
  · rcases Int.lt_or_le day (firstDay (meanYear day + 1)) with hlt | hge'
    · exact ⟨meanYear day, hge, hlt⟩
    · exact ⟨meanYear day + 1, hge', by rwa [Int.add_assoc]⟩

theorem year_unique {day year year' : Int} (h : firstDay year ≤ day ∧ day < firstDay (year + 1))
    (h' : firstDay year' ≤ day ∧ day < firstDay (year' + 1)) : year = year' := by
  have hle := firstDay_strictMono.lt_iff_lt.mp (h.1.trans_lt h'.2)
  have hge := firstDay_strictMono.lt_iff_lt.mp (h'.1.trans_lt h.2)
  omega

/-! ## Months -/

theorem daysBeforeMonth_succ (year : Int) {month : Nat} (h : 1 ≤ month) :
    daysBeforeMonth year (month + 1) = daysBeforeMonth year month + monthDays year month := by
  obtain ⟨m, rfl⟩ : ∃ m, month = m + 1 := ⟨month - 1, by omega⟩
  simp only [daysBeforeMonth, Nat.add_sub_cancel, List.range_succ, List.map_append, List.sum_append]
  rfl

theorem daysBeforeMonth_mono (year : Int) : Monotone (daysBeforeMonth year) :=
  monotone_nat_of_le_succ fun month => by
    rcases Nat.eq_zero_or_pos month with rfl | hpos
    · exact Nat.zero_le _
    · rw [daysBeforeMonth_succ year hpos]
      exact Nat.le_add_right _ _

theorem daysBeforeMonth_13 (year : Int) : (daysBeforeMonth year 13 : Int) = yearDays year := by
  have hsum : daysBeforeMonth year 13 = 337 + monthDays year 2 := by
    simp [daysBeforeMonth, List.range_succ, monthDays]
    omega
  rw [hsum, monthDays, if_pos rfl, yearDays]
  split_ifs <;> rfl

theorem exists_month {year : Int} {day : Nat} (h : (day : Int) < yearDays year) :
    ∃ month, 1 ≤ month ∧ month ≤ 12 ∧ daysBeforeMonth year month ≤ day ∧
      day < daysBeforeMonth year (month + 1) := by
  have hexists : ∃ month, day < daysBeforeMonth year (month + 1) := by
    refine ⟨12, ?_⟩
    rw [← daysBeforeMonth_13] at h
    exact_mod_cast h
  obtain ⟨month, hmonth, hleast⟩ :=
    (⟨Nat.find hexists, Nat.find_spec hexists, fun _ => Nat.find_min hexists⟩ :
      ∃ month, day < daysBeforeMonth year (month + 1) ∧
        ∀ m, m < month → ¬ day < daysBeforeMonth year (m + 1))
  have hpos : 1 ≤ month := by
    by_contra hzero
    obtain rfl : month = 0 := by omega
    exact Nat.not_lt_zero _ hmonth
  refine ⟨month, hpos, ?_, ?_, hmonth⟩
  · by_contra hbeyond
    have h12 : ¬ day < daysBeforeMonth year 13 := hleast 12 (by omega)
    rw [← daysBeforeMonth_13] at h
    omega
  · have hbefore := hleast (month - 1) (by omega)
    rwa [Nat.sub_add_cancel hpos, Nat.not_lt] at hbefore

/-! ## Dates -/

theorem Date.number_bounds (date : Date) :
    firstDay date.year ≤ date.number ∧ date.number < firstDay (date.year + 1) := by
  have hpos := date.day_pos
  have hle := date.day_le
  have hsucc := daysBeforeMonth_succ date.year date.month_pos
  have hyear := daysBeforeMonth_mono date.year (Nat.succ_le_succ date.month_le)
  have hwhole := daysBeforeMonth_13 date.year
  have hnext := firstDay_succ date.year
  simp only [Nat.succ_eq_add_one, Nat.reduceAdd] at hyear
  rw [Date.number]
  omega

/-- **One date a day.** -/
theorem Date.number_injective {date date' : Date} (h : date.number = date'.number) :
    date = date' := by
  have hbounds := date.number_bounds
  have hbounds' := date'.number_bounds
  rw [← h] at hbounds'
  have hyear := year_unique hbounds hbounds'
  obtain ⟨year, month, day, hpos, hle, hday, hdayLe⟩ := date
  obtain ⟨year', month', day', hpos', hle', hday', hdayLe'⟩ := date'
  simp only at hyear
  subst hyear
  simp only [Date.number] at h
  have hsucc := daysBeforeMonth_succ year hpos
  have hsucc' := daysBeforeMonth_succ year hpos'
  have hmonth : month = month' := by
    rcases Nat.lt_trichotomy month month' with hlt | heq | hlt
    · have := daysBeforeMonth_mono year (Nat.succ_le_of_lt hlt)
      simp only [Nat.succ_eq_add_one] at this
      omega
    · exact heq
    · have := daysBeforeMonth_mono year (Nat.succ_le_of_lt hlt)
      simp only [Nat.succ_eq_add_one] at this
      omega
  subst hmonth
  obtain rfl : day = day' := by omega
  rfl

theorem exists_date (day : Int) : ∃ date : Date, date.number = day := by
  obtain ⟨year, hlow, hhigh⟩ := exists_year day
  rw [firstDay_succ] at hhigh
  have hrest : ((day - firstDay year).toNat : Int) = day - firstDay year :=
    Int.toNat_of_nonneg (by omega)
  obtain ⟨month, hpos, hle, hbefore, hafter⟩ :=
    @exists_month year (day - firstDay year).toNat (by omega)
  rw [daysBeforeMonth_succ year hpos] at hafter
  refine ⟨⟨year, month, (day - firstDay year).toNat - daysBeforeMonth year month + 1, hpos, hle,
    by omega, by omega⟩, ?_⟩
  simp only [Date.number]
  omega

theorem weekday_lt (day : Int) : weekday day < 7 := by
  rw [weekday]
  omega

end Library
