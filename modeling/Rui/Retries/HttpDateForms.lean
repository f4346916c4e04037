import Rui.Retries.HttpDateLaws

/-!
# Reading the three forms

Each form gives back the fields of its moment, and a text that gives fields is that form of
them.
-/

namespace Rui.Retries

open Library

/-! ## The calendar of the source -/

theorem isLeap_eq (year : Nat) : isLeap year = isLeapYear year := by
  have hleap : isLeapYear year = true ↔
      (year : Int) % 4 = 0 ∧ ((year : Int) % 100 ≠ 0 ∨ (year : Int) % 400 = 0) :=
    decide_eq_true_iff
  rw [Bool.eq_iff_iff, hleap, isLeap, Bool.and_eq_true, Bool.or_eq_true, decide_eq_true_iff,
    decide_eq_true_iff, decide_eq_true_iff]
  omega

theorem daysInMonth_eq (year month : Nat) : daysInMonth year month = monthDays year month := by
  rw [daysInMonth, monthDays, isLeap_eq]

theorem daysBefore_eq (year month : Nat) : daysBefore year month = daysBeforeMonth year month := by
  simp only [daysBefore, daysBeforeMonth, daysInMonth_eq]

variable {year : Nat} {current t : Int} {name day : List UInt8}

theorem daysBeforeYear_eq (h : 1 ≤ year) : daysBeforeYear year = firstDay year := by
  simp only [daysBeforeYear, firstDay, leapYearsThrough, leapsThrough, Nat.cast_sub h]
  rfl

theorem yearOf_eq {day year : Int} (h : 0 ≤ day)
    (hyear : firstDay year ≤ day ∧ day < firstDay (year + 1)) :
    (yearOf day : Int) = min year 9999 := by
  have hmean : 1970 ≤ meanYear day := by
    rw [meanYear]
    omega
  obtain ⟨hbelow, habove⟩ := meanYear_bounds day
  -- The mean year is the year, the one before or the one after.
  have hlow : meanYear day - 1 < year + 1 :=
    firstDay_strictMono.lt_iff_lt.mp (hbelow.trans_lt hyear.2)
  have hhigh : year < meanYear day + 2 := firstDay_strictMono.lt_iff_lt.mp (hyear.1.trans_lt habove)
  have hyears : ∀ other : Nat, 1 ≤ other → (daysBeforeYear other ≤ day ↔ (other : Int) ≤ year) := by
    intro other hother
    rw [daysBeforeYear_eq hother]
    constructor
    · intro hle
      have := firstDay_strictMono.lt_iff_lt.mp (hle.trans_lt hyear.2)
      omega
    · exact fun hle => (firstDay_strictMono.monotone hle).trans hyear.1
  obtain ⟨estimate, hestimate, hpos⟩ : ∃ estimate : Nat,
      (estimate : Int) = min (meanYear day) 9998 ∧ 1970 ≤ estimate :=
    ⟨(min (meanYear day) 9998).toNat, by omega, by omega⟩
  have hguess : (min (1970 + day * 10000 / 3652425) 9998).toNat = estimate := by
    rw [Int.mul_comm, ← meanYear, ← hestimate, Int.toNat_natCast]
  have hbefore : day < daysBeforeYear estimate ↔ year < estimate := by
    rw [← Int.not_le, hyears estimate (by omega), Int.not_le]
  simp only [yearOf, hguess, hbefore]
  by_cases hlt : year < estimate
  · have hnext := hyears (estimate - 1 + 1) (by omega)
    rw [if_pos hlt, if_neg (by omega)]
    omega
  · have hnext := hyears (estimate + 1) (by omega)
    rw [if_neg hlt]
    split_ifs <;> omega

variable {now : Int} {stamp : Stamp} {value : List UInt8}

/-- **The fifty-year rule.** In a year from 1970 to 9999, a date of a year that the rule
selects is read in this year. -/
theorem rfc850Year_eq (hmin : 1970 ≤ year) (hmax : year ≤ 9999)
    (hcurrent : firstDay current ≤ now / 86400 ∧ now / 86400 < firstDay (current + 1))
    (hselected : selectedYear current (year % 100) = year) :
    rfc850Year (year % 100) now = year := by
  have hyear : ((yearOf (max now 0 / 86400) : Nat) : Int) = min (max current 1970) 9999 := by
    rcases Int.lt_or_le now 0 with hneg | hnonneg
    · have hbefore : current < 1970 := by
        refine firstDay_strictMono.lt_iff_lt.mp (hcurrent.1.trans_lt ?_)
        rw [firstDay_1970]
        omega
      have hepoch := @yearOf_eq 0 1970 le_rfl
        ⟨le_of_eq firstDay_1970, by decide⟩
      rw [max_eq_right (by omega : now ≤ 0), max_eq_right (by omega : current ≤ 1970)]
      exact hepoch
    · have hsince : 1970 < current + 1 := by
        refine firstDay_strictMono.lt_iff_lt.mp (lt_of_le_of_lt ?_ hcurrent.2)
        rw [firstDay_1970]
        omega
      rw [max_eq_left hnonneg, yearOf_eq (by omega) hcurrent, max_eq_left (by omega)]
  rw [rfc850Year]
  generalize yearOf (max now 0 / 86400) = read at hyear
  simp only [selectedYear] at hselected
  split_ifs at hselected ⊢ <;> omega

theorem rfc850Year_le (short : Nat) (now : Int) (h : short < 100) :
    rfc850Year short now ≤ 9999 ∧
      (1970 ≤ rfc850Year short now → rfc850Year short now % 100 = short) := by
  have hyear : yearOf (max now 0 / 86400) ≤ 9999 := by
    obtain ⟨year, hyear⟩ := exists_year (max now 0 / 86400)
    have := yearOf_eq (by omega) hyear
    omega
  rw [rfc850Year]
  generalize yearOf (max now 0 / 86400) = read at hyear
  split_ifs <;> omega

/-! ## Moments and their fields -/

/-- What the forms of a moment name. -/
def Stamp.fields (stamp : Stamp) : Fields :=
  ⟨weekday stamp.date.number, stamp.date.day, stamp.date.month, stamp.date.year.toNat,
    stamp.timeOfDay⟩

theorem seconds_fields (hyear : 1970 ≤ stamp.date.year) :
    stamp.fields.seconds = some stamp.seconds := by
  obtain ⟨year, hyearEq⟩ := Int.eq_ofNat_of_zero_le (by omega : 0 ≤ stamp.date.year)
  have hhour : digits largestU8 (slice stamp.timeOfDay 0 2) = some stamp.hour :=
    digits_two (stamp.hour_lt.trans (by decide)) (by decide)
  have hminute : digits largestU8 (slice stamp.timeOfDay 3 5) = some stamp.minute :=
    digits_two (stamp.minute_lt.trans (by decide)) (by decide)
  have hsecond : digits largestU8 (slice stamp.timeOfDay 6 8) = some stamp.second :=
    digits_two (stamp.second_le.trans_lt (by decide)) (by decide)
  have hcolons : ¬ (stamp.timeOfDay[2]? ≠ colon ∨ stamp.timeOfDay[5]? ≠ colon) := by
    rintro (h | h) <;> exact h rfl
  have hrange : ¬ (23 < stamp.hour ∨ 59 < stamp.minute ∨ 60 < stamp.second) := by
    have := stamp.hour_lt
    have := stamp.minute_lt
    have := stamp.second_le
    omega
  have hdays : ¬ (year < 1970 ∨ stamp.date.day = 0 ∨
      daysInMonth year stamp.date.month < stamp.date.day) := by
    have := stamp.date.day_pos
    have hle := stamp.date.day_le
    rw [hyearEq] at hle
    rw [daysInMonth_eq]
    omega
  have hnumber : daysBeforeYear year + daysBefore year stamp.date.month +
      ((stamp.date.day : Int) - 1) = stamp.date.number := by
    rw [daysBeforeYear_eq (by omega), daysBefore_eq, Date.number, hyearEq]
  have htoNat : stamp.date.year.toNat = year := by omega
  rw [Fields.seconds, Stamp.fields]
  simp only [if_neg hcolons, hhour, hminute, hsecond, Option.bind_eq_bind, Option.bind_some,
    if_neg hrange, htoNat, if_neg hdays, hnumber]
  rw [if_neg (fun h => h rfl)]
  rfl

/-- Fields that name a moment are the fields of a moment. -/
theorem fields_of_seconds {fields : Fields} (htime : fields.time.length = 8)
    (hmonth : 1 ≤ fields.month ∧ fields.month ≤ 12) (h : fields.seconds = some t) :
    ∃ stamp : Stamp, stamp.fields = fields ∧ 1970 ≤ stamp.date.year ∧ stamp.seconds = t := by
  obtain ⟨weekday', day, month, year, time⟩ := fields
  simp only at htime hmonth
  rw [Fields.seconds] at h
  by_cases hcolons : time[2]? ≠ colon ∨ time[5]? ≠ colon
  · rw [if_pos hcolons] at h
    cases h
  rw [if_neg hcolons] at h
  simp only [not_or, not_not] at hcolons
  obtain ⟨hour, hhour, hclock⟩ := Option.bind_eq_some_iff.mp h
  obtain ⟨minute, hminute, hclock⟩ := Option.bind_eq_some_iff.mp hclock
  obtain ⟨second, hsecond, hmoment⟩ := Option.bind_eq_some_iff.mp hclock
  clear h
  split_ifs at hmoment with hrange hdays
  dsimp only at hmoment
  split_ifs at hmoment with hweekday
  rw [Option.some_inj] at hmoment
  simp only [not_or, Nat.not_lt, not_not] at hrange hdays hweekday
  rw [daysInMonth_eq] at hdays
  rw [daysBeforeYear_eq (by omega), daysBefore_eq] at hmoment hweekday
  refine ⟨⟨⟨year, month, day, hmonth.1, hmonth.2, by omega, hdays.2.2⟩, hour, minute, second,
    by omega, by omega, hrange.2.2⟩, ?_, by simp only; omega, ?_⟩
  · have hlength : ∀ a b, b ≤ 8 → (slice time a b).length = b - a := fun a b hb =>
      length_slice (htime ▸ hb)
    obtain ⟨hhourText, -⟩ := two_of_digits (hlength 0 2 (by decide)) hhour
    obtain ⟨hminuteText, -⟩ := two_of_digits (hlength 3 5 (by decide)) hminute
    obtain ⟨hsecondText, -⟩ := two_of_digits (hlength 6 8 (by decide)) hsecond
    have hwhole : slice time 0 2 ++ slice time 2 3 ++ slice time 3 5 ++ slice time 5 6 ++
        slice time 6 8 = time := by
      simp (disch := decide) only [slice_cat]
      rw [← htime, slice_whole]
    rw [hhourText, hminuteText, hsecondText, slice_one hcolons.1, slice_one hcolons.2] at hwhole
    simp only [Stamp.fields, Stamp.timeOfDay, Date.number, weekday, Fields.mk.injEq,
      Int.toNat_natCast, true_and]
    refine ⟨hweekday, ?_⟩
    rw [← hwhole]
    simp only [List.append_assoc, List.cons_append, List.nil_append]
  · simpa only [Stamp.seconds, Date.number] using hmoment

/-! ## Names of a moment -/

namespace Stamp

theorem indexOf_dayName (stamp : Stamp) :
    indexOf dayNames stamp.dayName = some (weekday stamp.date.number) :=
  (dayName_index _ (weekday_lt _)).1

theorem indexOf_longDayName (stamp : Stamp) :
    indexOf longDayNames stamp.longDayName = some (weekday stamp.date.number) :=
  (longDayName_index _ (weekday_lt _)).1

theorem monthOf_monthName (stamp : Stamp) : monthOf stamp.monthName = some stamp.date.month := by
  have hpos := stamp.date.month_pos
  have hle := stamp.date.month_le
  rw [monthOf, monthName, (monthName_index _ (by omega : stamp.date.month - 1 < 12)).1,
    Option.map_some, Nat.sub_add_cancel hpos]

theorem dayName_three (stamp : Stamp) : ∃ a b c, stamp.dayName = [a, b, c] :=
  List.length_eq_three.mp (dayName_index _ (weekday_lt _)).2.1

theorem monthName_three (stamp : Stamp) : ∃ a b c, stamp.monthName = [a, b, c] := by
  have hpos := stamp.date.month_pos
  have hle := stamp.date.month_le
  exact List.length_eq_three.mp
    (monthName_index _ (by omega : stamp.date.month - 1 < 12)).2.1

theorem day_lt (stamp : Stamp) : stamp.date.day < 100 := by
  have hle := stamp.date.day_le
  rw [monthDays] at hle
  split_ifs at hle <;> omega

end Stamp

theorem dayName_of_indexOf {names : List (List UInt8)} {i : Nat} (h : indexOf names name = some i) :
    names.getD i [] = name := by
  rw [List.getD_eq_getElem?_getD, indexOf_eq_some h]
  rfl

theorem monthName_of_monthOf {month : Nat} (h : monthOf name = some month) :
    (1 ≤ month ∧ month ≤ 12) ∧ monthNames.getD (month - 1) [] = name := by
  obtain ⟨i, hi, rfl⟩ := Option.map_eq_some_iff.mp h
  obtain ⟨hlt, -⟩ := List.getElem?_eq_some_iff.mp (indexOf_eq_some hi)
  have hlength : monthNames.length = 12 := rfl
  exact ⟨⟨by omega, by omega⟩, dayName_of_indexOf hi⟩

/-! ## The IMF-fixdate -/

theorem imfFields_imfFixdate (hyear : stamp.date.year.toNat < 10000) :
    imfFields stamp.imfFixdate = some stamp.fields := by
  obtain ⟨a, b, c, hname⟩ := stamp.dayName_three
  obtain ⟨d, e, f, hmonth⟩ := stamp.monthName_three
  have hvalue : stamp.imfFixdate = a :: b :: c :: ascii ',' :: ascii ' ' ::
      (twoDigits stamp.date.day ++ ascii ' ' :: d :: e :: f :: ascii ' ' ::
        (fourDigits stamp.date.year.toNat ++ ascii ' ' :: (stamp.timeOfDay ++ text " GMT"))) := by
    rw [Stamp.imfFixdate, hname, hmonth]
    rfl
  have hday : slice stamp.imfFixdate 0 3 = stamp.dayName := by rw [hvalue, hname]; rfl
  have hnumber : slice stamp.imfFixdate 5 7 = twoDigits stamp.date.day := by rw [hvalue]; rfl
  have hmonthText : slice stamp.imfFixdate 8 11 = stamp.monthName := by rw [hvalue, hmonth]; rfl
  have hyearText : slice stamp.imfFixdate 12 16 = fourDigits stamp.date.year.toNat := by
    rw [hvalue]; rfl
  have htime : slice stamp.imfFixdate 17 25 = stamp.timeOfDay := by rw [hvalue]; rfl
  have hspaces : ¬ (stamp.imfFixdate[4]? ≠ space ∨ stamp.imfFixdate[7]? ≠ space ∨
      stamp.imfFixdate[11]? ≠ space ∨ stamp.imfFixdate[16]? ≠ space) := by
    rw [hvalue]
    rintro (h | h | h | h) <;> exact h rfl
  simp only [imfFields, hday, stamp.indexOf_dayName, Option.bind_eq_bind, Option.bind_some,
    if_neg hspaces, hnumber, digits_two stamp.day_lt (by decide : 99 ≤ largestU8), hmonthText,
    stamp.monthOf_monthName, hyearText, digits_four hyear, htime]
  rfl

theorem imfFixdate_of_imfFields {fields : Fields} (hlength : value.length = 29)
    (hcomma : value[3]? = some (ascii ',')) (hzone : endsWith value (text " GMT") = true)
    (h : imfFields value = some fields) :
    fields.time.length = 8 ∧ (1 ≤ fields.month ∧ fields.month ≤ 12) ∧ fields.year < 10000 ∧
      ∀ stamp : Stamp, stamp.fields = fields → value = stamp.imfFixdate := by
  have hslices : ∀ a b, b ≤ 29 → (slice value a b).length = b - a := fun a b hb =>
    length_slice (hlength ▸ hb)
  rw [imfFields] at h
  obtain ⟨day, hday, h⟩ := Option.bind_eq_some_iff.mp h
  by_cases hspaces : value[4]? ≠ space ∨ value[7]? ≠ space ∨ value[11]? ≠ space ∨
      value[16]? ≠ space
  · rw [if_pos hspaces] at h
    cases h
  rw [if_neg hspaces] at h
  obtain ⟨number, hnumber, h⟩ := Option.bind_eq_some_iff.mp h
  obtain ⟨month, hmonth, h⟩ := Option.bind_eq_some_iff.mp h
  obtain ⟨year, hyear, h⟩ := Option.bind_eq_some_iff.mp h
  cases h
  simp only [not_or, not_not] at hspaces
  obtain ⟨h4, h7, h11, h16⟩ := hspaces
  obtain ⟨hmonthRange, hmonthText⟩ := monthName_of_monthOf hmonth
  obtain ⟨hnumberText, -⟩ := two_of_digits (hslices 5 7 (by decide)) hnumber
  obtain ⟨hyearText, hyearLt⟩ := four_of_digits (hslices 12 16 (by decide)) hyear
  have hzoneText : slice value 25 29 = text " GMT" := by
    have hend := slice_of_endsWith hzone
    rw [hlength] at hend
    exact hend
  have hwhole : slice value 0 3 ++ slice value 3 4 ++ slice value 4 5 ++ slice value 5 7 ++
      slice value 7 8 ++ slice value 8 11 ++ slice value 11 12 ++ slice value 12 16 ++
      slice value 16 17 ++ slice value 17 25 ++ slice value 25 29 = value := by
    simp (disch := decide) only [slice_cat]
    rw [← hlength, slice_whole]
  refine ⟨hslices 17 25 (by decide), hmonthRange, hyearLt, ?_⟩
  intro stamp hstamp
  obtain ⟨hstampDay, hstampNumber, hstampMonth, hstampYear, hstampTime⟩ := Fields.mk.inj hstamp
  rw [Stamp.imfFixdate, Stamp.dayName, Stamp.monthName, hstampDay, hstampNumber, hstampMonth,
    hstampYear, hstampTime, dayName_of_indexOf hday, hmonthText, ← hnumberText, ← hyearText,
    ← hzoneText]
  conv_lhs => rw [← hwhole, slice_one hcomma, slice_one h4, slice_one h7, slice_one h11,
    slice_one h16]
  simp only [List.append_assoc, List.cons_append, List.nil_append]

/-! ## The asctime date -/

/-- A spelling of the day in an asctime date: two digits, or a space and one. -/
def Stamp.IsDay (stamp : Stamp) (day : List UInt8) : Prop :=
  day = twoDigits stamp.date.day ∨ stamp.date.day < 10 ∧ day = [ascii ' ', digitOf stamp.date.day]

theorem asctimeFields_asctimeWith (hday : stamp.IsDay day) (hyear : stamp.date.year.toNat < 10000) :
    asctimeFields (stamp.asctimeWith day) = some stamp.fields := by
  obtain ⟨a, b, c, hname⟩ := stamp.dayName_three
  obtain ⟨d, e, f, hmonth⟩ := stamp.monthName_three
  obtain ⟨x, y, hxy, hnumber⟩ : ∃ x y, day = [x, y] ∧
      (if some x = space then digits largestU8 [y] else digits largestU8 [x, y]) =
        some stamp.date.day := by
    rcases hday with rfl | ⟨hlt, rfl⟩
    · refine ⟨_, _, rfl, ?_⟩
      have hdigit := (isDigit_digitOf (by have := stamp.day_lt; omega :
        stamp.date.day / 10 < 10)).1
      rw [if_neg]
      · exact digits_two stamp.day_lt (by decide)
      · rintro hspace
        rw [space, Option.some_inj] at hspace
        rw [hspace] at hdigit
        revert hdigit
        decide
    · exact ⟨_, _, rfl, (if_pos rfl).trans (digits_one hlt)⟩
  subst hxy
  have hvalue : stamp.asctimeWith [x, y] = a :: b :: c :: ascii ' ' :: d :: e :: f :: ascii ' ' ::
      x :: y :: ascii ' ' :: (stamp.timeOfDay ++ ascii ' ' :: fourDigits stamp.date.year.toNat) := by
    rw [Stamp.asctimeWith, hname, hmonth]
    rfl
  have hdayText : slice (stamp.asctimeWith [x, y]) 0 3 = stamp.dayName := by
    rw [hvalue, hname]; rfl
  have hmonthText : slice (stamp.asctimeWith [x, y]) 4 7 = stamp.monthName := by
    rw [hvalue, hmonth]; rfl
  have hfirst : (stamp.asctimeWith [x, y])[8]? = some x := by rw [hvalue]; rfl
  have hone : slice (stamp.asctimeWith [x, y]) 9 10 = [y] := by rw [hvalue]; rfl
  have htwo : slice (stamp.asctimeWith [x, y]) 8 10 = [x, y] := by rw [hvalue]; rfl
  have hdayNumber : asctimeDay (stamp.asctimeWith [x, y]) = some stamp.date.day := by
    rw [asctimeDay, hfirst, hone, htwo, hnumber]
  have htime : slice (stamp.asctimeWith [x, y]) 11 19 = stamp.timeOfDay := by rw [hvalue]; rfl
  have hyearText : slice (stamp.asctimeWith [x, y]) 20 24 = fourDigits stamp.date.year.toNat := by
    rw [hvalue]; rfl
  have hspaces : ¬ ((stamp.asctimeWith [x, y])[3]? ≠ space ∨
      (stamp.asctimeWith [x, y])[7]? ≠ space ∨ (stamp.asctimeWith [x, y])[10]? ≠ space ∨
      (stamp.asctimeWith [x, y])[19]? ≠ space) := by
    rw [hvalue]
    rintro (h | h | h | h) <;> exact h rfl
  simp only [asctimeFields, hdayText, stamp.indexOf_dayName, Option.bind_eq_bind,
    Option.bind_some, if_neg hspaces, hmonthText, stamp.monthOf_monthName, hdayNumber,
    hyearText, digits_four hyear, htime]
  rfl

theorem asctimeWith_of_asctimeFields {fields : Fields} (hlength : value.length = 24)
    (h : asctimeFields value = some fields) :
    fields.time.length = 8 ∧ (1 ≤ fields.month ∧ fields.month ≤ 12) ∧ fields.year < 10000 ∧
      ∀ stamp : Stamp, stamp.fields = fields →
        ∃ day, stamp.IsDay day ∧ value = stamp.asctimeWith day := by
  have hslices : ∀ a b, b ≤ 24 → (slice value a b).length = b - a := fun a b hb =>
    length_slice (hlength ▸ hb)
  rw [asctimeFields] at h
  obtain ⟨day, hday, h⟩ := Option.bind_eq_some_iff.mp h
  by_cases hspaces : value[3]? ≠ space ∨ value[7]? ≠ space ∨ value[10]? ≠ space ∨
      value[19]? ≠ space
  · rw [if_pos hspaces] at h
    cases h
  rw [if_neg hspaces] at h
  obtain ⟨month, hmonth, h⟩ := Option.bind_eq_some_iff.mp h
  obtain ⟨number, hnumber, h⟩ := Option.bind_eq_some_iff.mp h
  obtain ⟨year, hyear, h⟩ := Option.bind_eq_some_iff.mp h
  cases h
  simp only [not_or, not_not] at hspaces
  obtain ⟨h3, h7, h10, h19⟩ := hspaces
  obtain ⟨hmonthRange, hmonthText⟩ := monthName_of_monthOf hmonth
  obtain ⟨hyearText, hyearLt⟩ := four_of_digits (hslices 20 24 (by decide)) hyear
  have hwhole : slice value 0 3 ++ slice value 3 4 ++ slice value 4 7 ++ slice value 7 8 ++
      slice value 8 10 ++ slice value 10 11 ++ slice value 11 19 ++ slice value 19 20 ++
      slice value 20 24 = value := by
    simp (disch := decide) only [slice_cat]
    rw [← hlength, slice_whole]
  refine ⟨hslices 11 19 (by decide), hmonthRange, hyearLt, ?_⟩
  intro stamp hstamp
  obtain ⟨hstampDay, hstampNumber, hstampMonth, hstampYear, hstampTime⟩ := Fields.mk.inj hstamp
  refine ⟨slice value 8 10, ?_, ?_⟩
  · rw [Stamp.IsDay, hstampNumber]
    rw [asctimeDay] at hnumber
    by_cases hspace : value[8]? = space
    · rw [if_pos hspace] at hnumber
      obtain ⟨hnumberText, hlt⟩ := one_of_digits (hslices 9 10 (by decide)) hnumber
      refine Or.inr ⟨hlt, ?_⟩
      rw [← slice_cat (by decide : 8 ≤ 9) (by decide : 9 ≤ 10), slice_one hspace, hnumberText]
      rfl
    · rw [if_neg hspace] at hnumber
      exact Or.inl (two_of_digits (hslices 8 10 (by decide)) hnumber).1
  · rw [Stamp.asctimeWith, Stamp.dayName, Stamp.monthName, hstampDay, hstampMonth, hstampYear,
      hstampTime, dayName_of_indexOf hday, hmonthText, ← hyearText]
    conv_lhs => rw [← hwhole, slice_one h3, slice_one h7, slice_one h10, slice_one h19]

/-! ## The RFC 850 date -/

/-- What stands after the comma of an RFC 850 date. -/
def Stamp.rfc850Rest (stamp : Stamp) : List UInt8 :=
  [ascii ' '] ++ twoDigits stamp.date.day ++ [ascii '-'] ++ stamp.monthName ++ [ascii '-'] ++
    twoDigits (stamp.date.year.toNat % 100) ++ [ascii ' '] ++ stamp.timeOfDay ++ text " GMT"

theorem Stamp.rfc850Date_eq (stamp : Stamp) :
    stamp.rfc850Date = stamp.longDayName ++ ascii ',' :: stamp.rfc850Rest := by
  simp only [rfc850Date, rfc850Rest, List.append_assoc, List.cons_append, List.nil_append]

theorem rfc850Fields_rfc850Date
    (hyear : rfc850Year (stamp.date.year.toNat % 100) now = stamp.date.year.toNat) :
    rfc850Fields stamp.rfc850Date stamp.longDayName.length now = some stamp.fields := by
  obtain ⟨d, e, f, hmonth⟩ := stamp.monthName_three
  have hrest : stamp.rfc850Date.drop (stamp.longDayName.length + 1) = stamp.rfc850Rest := by
    rw [Stamp.rfc850Date_eq, ← List.drop_drop, List.drop_left]
    rfl
  have hname : stamp.rfc850Date.take stamp.longDayName.length = stamp.longDayName := by
    rw [Stamp.rfc850Date_eq, List.take_left]
  have hvalue : stamp.rfc850Rest = ascii ' ' :: (twoDigits stamp.date.day ++ ascii '-' :: d :: e ::
      f :: ascii '-' :: (twoDigits (stamp.date.year.toNat % 100) ++
        ascii ' ' :: (stamp.timeOfDay ++ text " GMT"))) := by
    rw [Stamp.rfc850Rest, hmonth]
    rfl
  have hnumber : slice stamp.rfc850Rest 1 3 = twoDigits stamp.date.day := by rw [hvalue]; rfl
  have hmonthText : slice stamp.rfc850Rest 4 7 = stamp.monthName := by rw [hvalue, hmonth]; rfl
  have hshort : slice stamp.rfc850Rest 8 10 = twoDigits (stamp.date.year.toNat % 100) := by
    rw [hvalue]; rfl
  have htime : slice stamp.rfc850Rest 11 19 = stamp.timeOfDay := by rw [hvalue]; rfl
  have hmarks : ¬ (stamp.rfc850Rest.length ≠ 23 ∨ stamp.rfc850Rest[0]? ≠ space ∨
      stamp.rfc850Rest[3]? ≠ hyphen ∨ stamp.rfc850Rest[7]? ≠ hyphen ∨
      stamp.rfc850Rest[10]? ≠ space ∨ ¬ endsWith stamp.rfc850Rest (text " GMT") = true) := by
    rw [hvalue]
    rintro (h | h | h | h | h | h)
    · exact h rfl
    · exact h rfl
    · exact h rfl
    · exact h rfl
    · exact h rfl
    · exact h rfl
  simp only [rfc850Fields, hname, stamp.indexOf_longDayName, Option.bind_eq_bind,
    Option.bind_some, hrest, if_neg hmarks, hnumber,
    digits_two stamp.day_lt (by decide : 99 ≤ largestU8), hmonthText, stamp.monthOf_monthName,
    hshort, digits_two (Nat.mod_lt _ (by decide)) (by decide : 99 ≤ largestU16), htime, hyear]
  rfl

theorem rfc850Date_of_rfc850Fields {fields : Fields} (hcomma : ascii ',' ∈ value)
    (h : rfc850Fields value (value.idxOf (ascii ',')) now = some fields) :
    fields.time.length = 8 ∧ (1 ≤ fields.month ∧ fields.month ≤ 12) ∧ fields.year < 10000 ∧
      ∀ stamp : Stamp, stamp.fields = fields → 1970 ≤ stamp.date.year →
        value = stamp.rfc850Date := by
  have hparts : value.take (value.idxOf (ascii ',')) ++
      ascii ',' :: value.drop (value.idxOf (ascii ',') + 1) = value := by
    have hlt := List.idxOf_lt_length_of_mem hcomma
    conv_rhs => rw [← List.take_append_drop (value.idxOf (ascii ',')) value,
      List.drop_eq_getElem_cons hlt, List.getElem_idxOf hlt]
  rw [rfc850Fields] at h
  generalize value.take (value.idxOf (ascii ',')) = name at h hparts
  generalize value.drop (value.idxOf (ascii ',') + 1) = rest at h hparts
  obtain ⟨day, hday, h⟩ := Option.bind_eq_some_iff.mp h
  by_cases hmarks : rest.length ≠ 23 ∨ rest[0]? ≠ space ∨ rest[3]? ≠ hyphen ∨ rest[7]? ≠ hyphen ∨
      rest[10]? ≠ space ∨ ¬ endsWith rest (text " GMT") = true
  · rw [if_pos hmarks] at h
    cases h
  rw [if_neg hmarks] at h
  obtain ⟨number, hnumber, h⟩ := Option.bind_eq_some_iff.mp h
  obtain ⟨month, hmonth, h⟩ := Option.bind_eq_some_iff.mp h
  obtain ⟨short, hshort, h⟩ := Option.bind_eq_some_iff.mp h
  cases h
  simp only [not_or, not_not] at hmarks
  obtain ⟨hlength, h0, h3, h7, h10, hzone⟩ := hmarks
  have hslices : ∀ a b, b ≤ 23 → (slice rest a b).length = b - a := fun a b hb =>
    length_slice (hlength ▸ hb)
  obtain ⟨hmonthRange, hmonthText⟩ := monthName_of_monthOf hmonth
  obtain ⟨hnumberText, -⟩ := two_of_digits (hslices 1 3 (by decide)) hnumber
  obtain ⟨hshortText, hshortLt⟩ := two_of_digits (hslices 8 10 (by decide)) hshort
  obtain ⟨hyearLe, hyearMod⟩ := rfc850Year_le short now hshortLt
  have hzoneText : slice rest 19 23 = text " GMT" := by
    have hend := slice_of_endsWith hzone
    rw [hlength] at hend
    exact hend
  have hwhole : slice rest 0 1 ++ slice rest 1 3 ++ slice rest 3 4 ++ slice rest 4 7 ++
      slice rest 7 8 ++ slice rest 8 10 ++ slice rest 10 11 ++ slice rest 11 19 ++
      slice rest 19 23 = rest := by
    simp (disch := decide) only [slice_cat]
    rw [← hlength, slice_whole]
  refine ⟨hslices 11 19 (by decide), hmonthRange, Nat.lt_succ_of_le hyearLe, ?_⟩
  intro stamp hstamp hstampMin
  obtain ⟨hstampDay, hstampNumber, hstampMonth, hstampYear, hstampTime⟩ := Fields.mk.inj hstamp
  have hmod : stamp.date.year.toNat % 100 = short := by
    rw [hstampYear]
    exact hyearMod (by omega)
  rw [Stamp.rfc850Date_eq, Stamp.rfc850Rest, Stamp.longDayName, Stamp.monthName, hmod, hstampDay,
    hstampNumber, hstampMonth, hstampTime, dayName_of_indexOf hday, hmonthText, ← hnumberText,
    ← hshortText, ← hzoneText]
  conv_lhs => rw [← hparts, ← hwhole, slice_one h0, slice_one h3, slice_one h7, slice_one h10]

/-! ## Spellings -/

inductive Form
  | imfFixdate | rfc850 | asctime
  deriving DecidableEq, Repr

/-- A text is this form of a moment. -/
def Stamp.Spells (stamp : Stamp) : Form → List UInt8 → Prop
  | .imfFixdate, value => value = stamp.imfFixdate
  | .rfc850, value => value = stamp.rfc850Date
  | .asctime, value => ∃ day, stamp.IsDay day ∧ value = stamp.asctimeWith day

theorem comma_not_mem_twoDigits {n : Nat} (h : n < 100) : ascii ',' ∉ twoDigits n := by
  have hcomma : ∀ d, d < 10 → ascii ',' ≠ digitOf d := by
    intro d hd heq
    have hdigit := (isDigit_digitOf hd).1
    rw [← heq] at hdigit
    revert hdigit
    decide
  simp only [twoDigits, List.mem_cons, List.not_mem_nil, or_false, not_or]
  exact ⟨hcomma _ (by omega), hcomma _ (by omega)⟩

namespace Stamp

theorem length_imfFixdate (stamp : Stamp) : stamp.imfFixdate.length = 29 := by
  obtain ⟨a, b, c, hname⟩ := stamp.dayName_three
  obtain ⟨d, e, f, hmonth⟩ := stamp.monthName_three
  rw [imfFixdate, hname, hmonth]
  rfl

theorem length_rfc850Date (stamp : Stamp) : 30 ≤ stamp.rfc850Date.length := by
  obtain ⟨d, e, f, hmonth⟩ := stamp.monthName_three
  have hname : 6 ≤ stamp.longDayName.length := (longDayName_index _ (weekday_lt _)).2.1
  have hrest : stamp.rfc850Rest.length = 23 := by
    rw [rfc850Rest, hmonth]
    rfl
  rw [rfc850Date_eq, List.length_append, List.length_cons, hrest]
  omega

variable {stamp : Stamp} {day : List UInt8}

theorem IsDay.two (h : stamp.IsDay day) : ∃ x y, day = [x, y] := by
  rcases h with rfl | ⟨-, rfl⟩ <;> exact ⟨_, _, rfl⟩

theorem length_asctimeWith (h : stamp.IsDay day) : (stamp.asctimeWith day).length = 24 := by
  obtain ⟨a, b, c, hname⟩ := stamp.dayName_three
  obtain ⟨d, e, f, hmonth⟩ := stamp.monthName_three
  obtain ⟨x, y, rfl⟩ := h.two
  rw [asctimeWith, hname, hmonth]
  rfl

theorem comma_not_mem_timeOfDay (stamp : Stamp) : ascii ',' ∉ stamp.timeOfDay := by
  have hhour := stamp.hour_lt
  have hminute := stamp.minute_lt
  have hsecond := stamp.second_le
  have hcolon : ascii ',' ≠ ascii ':' := by decide
  simp only [timeOfDay, List.mem_append, List.mem_cons, not_or]
  exact ⟨⟨comma_not_mem_twoDigits (by omega), hcolon, comma_not_mem_twoDigits (by omega)⟩, hcolon,
    comma_not_mem_twoDigits (by omega)⟩

theorem comma_not_mem_asctimeWith (h : stamp.IsDay day) (hyear : stamp.date.year.toNat < 10000) :
    ascii ',' ∉ stamp.asctimeWith day := by
  have hpos := stamp.date.month_pos
  have hle := stamp.date.month_le
  have hname : ascii ',' ∉ stamp.dayName := (dayName_index _ (weekday_lt _)).2.2
  have hmonth : ascii ',' ∉ stamp.monthName :=
    (monthName_index _ (by omega : stamp.date.month - 1 < 12)).2.2
  have hspace : ascii ',' ∉ [ascii ' '] := by decide
  have hday : ascii ',' ∉ day := by
    rcases h with rfl | ⟨hlt, rfl⟩
    · exact comma_not_mem_twoDigits stamp.day_lt
    · have hdigits := comma_not_mem_twoDigits (show stamp.date.day < 100 from stamp.day_lt)
      rw [twoDigits, Nat.mod_eq_of_lt hlt] at hdigits
      simp only [List.mem_cons, List.not_mem_nil, or_false, not_or] at hdigits hspace ⊢
      exact ⟨hspace, hdigits.2⟩
  simp only [asctimeWith, fourDigits, List.mem_append, not_or]
  exact ⟨⟨⟨⟨⟨⟨⟨⟨hname, hspace⟩, hmonth⟩, hspace⟩, hday⟩, hspace⟩, stamp.comma_not_mem_timeOfDay⟩,
    hspace⟩, comma_not_mem_twoDigits (by omega), comma_not_mem_twoDigits (by omega)⟩

theorem Spells.form_unique {stamp' : Stamp} {form form' : Form} {value : List UInt8}
    (h : stamp.Spells form value) (h' : stamp'.Spells form' value) : form = form' := by
  have hlength : ∀ {s : Stamp} {f : Form}, s.Spells f value →
      (f = .imfFixdate ∧ value.length = 29) ∨ (f = .rfc850 ∧ 30 ≤ value.length) ∨
        (f = .asctime ∧ value.length = 24) := by
    intro s f hf
    cases f with
    | imfFixdate => exact Or.inl ⟨rfl, (congrArg List.length hf).trans s.length_imfFixdate⟩
    | rfc850 =>
      exact Or.inr (Or.inl ⟨rfl, s.length_rfc850Date.trans_eq (congrArg List.length hf).symm⟩)
    | asctime =>
      obtain ⟨day, hday, rfl⟩ := hf
      exact Or.inr (Or.inr ⟨rfl, length_asctimeWith hday⟩)
  rcases hlength h with ⟨rfl, h1⟩ | ⟨rfl, h1⟩ | ⟨rfl, h1⟩ <;>
    rcases hlength h' with ⟨rfl, h2⟩ | ⟨rfl, h2⟩ | ⟨rfl, h2⟩ <;> first | rfl | omega

end Stamp

/-! ## Parsing -/

theorem parseHttpDate_imfFixdate (now : Int) (hmin : 1970 ≤ stamp.date.year)
    (hmax : stamp.date.year ≤ 9999) : parseHttpDate stamp.imfFixdate now = some stamp.seconds := by
  have hbranch : stamp.imfFixdate.length = 29 ∧ stamp.imfFixdate[3]? = some (ascii ',') ∧
      endsWith stamp.imfFixdate (text " GMT") = true := by
    obtain ⟨a, b, c, hname⟩ := stamp.dayName_three
    obtain ⟨d, e, f, hmonth⟩ := stamp.monthName_three
    rw [Stamp.imfFixdate, hname, hmonth]
    exact ⟨rfl, rfl, rfl⟩
  rw [parseHttpDate, if_pos hbranch, imfFields_imfFixdate (by omega), Option.bind_some,
    seconds_fields hmin]

theorem parseHttpDate_asctimeWith (now : Int) (hday : stamp.IsDay day)
    (hmin : 1970 ≤ stamp.date.year) (hmax : stamp.date.year ≤ 9999) :
    parseHttpDate (stamp.asctimeWith day) now = some stamp.seconds := by
  have hlength := Stamp.length_asctimeWith hday
  rw [parseHttpDate, if_neg (by omega),
    if_neg (Stamp.comma_not_mem_asctimeWith hday (by omega)), if_pos hlength,
    asctimeFields_asctimeWith hday (by omega), Option.bind_some, seconds_fields hmin]

theorem parseHttpDate_rfc850Date (hmin : 1970 ≤ stamp.date.year) (hmax : stamp.date.year ≤ 9999)
    (hcurrent : firstDay current ≤ now / 86400 ∧ now / 86400 < firstDay (current + 1))
    (hselected : selectedYear current (stamp.date.year.toNat % 100) = stamp.date.year) :
    parseHttpDate stamp.rfc850Date now = some stamp.seconds := by
  have hlength := stamp.length_rfc850Date
  have hname : ascii ',' ∉ stamp.longDayName := (longDayName_index _ (weekday_lt _)).2.2
  have hcomma : ascii ',' ∈ stamp.rfc850Date := by
    rw [Stamp.rfc850Date_eq]
    exact List.mem_append_right _ List.mem_cons_self
  have hidx : stamp.rfc850Date.idxOf (ascii ',') = stamp.longDayName.length := by
    rw [Stamp.rfc850Date_eq, List.idxOf_append_of_notMem hname, List.idxOf_cons_self, Nat.add_zero]
  have hyear : rfc850Year (stamp.date.year.toNat % 100) now = stamp.date.year.toNat :=
    rfc850Year_eq (by omega) (by omega) hcurrent (by rw [hselected]; omega)
  rw [parseHttpDate, if_neg (by omega), if_pos hcomma, hidx, rfc850Fields_rfc850Date hyear,
    Option.bind_some, seconds_fields hmin]

/-- **What parses is a spelling.** -/
theorem spells_of_parseHttpDate (h : parseHttpDate value now = some t) :
    ∃ (stamp : Stamp) (form : Form), 1970 ≤ stamp.date.year ∧ stamp.date.year ≤ 9999 ∧
      stamp.seconds = t ∧ stamp.Spells form value := by
  rw [parseHttpDate] at h
  split_ifs at h with himf hcomma hlength
  · obtain ⟨fields, hfields, hseconds⟩ := Option.bind_eq_some_iff.mp h
    obtain ⟨htime, hmonth, hyear, hvalue⟩ :=
      imfFixdate_of_imfFields himf.1 himf.2.1 himf.2.2 hfields
    obtain ⟨stamp, rfl, hmin, ht⟩ := fields_of_seconds htime hmonth hseconds
    simp only [Stamp.fields] at hyear
    exact ⟨stamp, .imfFixdate, hmin, by omega, ht, hvalue stamp rfl⟩
  · obtain ⟨fields, hfields, hseconds⟩ := Option.bind_eq_some_iff.mp h
    obtain ⟨htime, hmonth, hyear, hvalue⟩ := rfc850Date_of_rfc850Fields hcomma hfields
    obtain ⟨stamp, rfl, hmin, ht⟩ := fields_of_seconds htime hmonth hseconds
    simp only [Stamp.fields] at hyear
    exact ⟨stamp, .rfc850, hmin, by omega, ht, hvalue stamp rfl hmin⟩
  · obtain ⟨fields, hfields, hseconds⟩ := Option.bind_eq_some_iff.mp h
    obtain ⟨htime, hmonth, hyear, hvalue⟩ := asctimeWith_of_asctimeFields hlength hfields
    obtain ⟨stamp, rfl, hmin, ht⟩ := fields_of_seconds htime hmonth hseconds
    simp only [Stamp.fields] at hyear
    exact ⟨stamp, .asctime, hmin, by omega, ht, hvalue stamp rfl⟩

/-- **The three forms, and nothing else.** -/
theorem httpDate_spellings :
    (∀ (stamp : Stamp) (now : Int), 1970 ≤ stamp.date.year → stamp.date.year ≤ 9999 →
      parseHttpDate stamp.imfFixdate now = some stamp.seconds ∧
      (∀ day, stamp.IsDay day → parseHttpDate (stamp.asctimeWith day) now = some stamp.seconds) ∧
      (∀ current, firstDay current ≤ now / 86400 ∧ now / 86400 < firstDay (current + 1) →
        selectedYear current (stamp.date.year.toNat % 100) = stamp.date.year →
        parseHttpDate stamp.rfc850Date now = some stamp.seconds)) ∧
    (∀ (value : List UInt8) (now t : Int), parseHttpDate value now = some t →
      ∃ (stamp : Stamp) (form : Form), 1970 ≤ stamp.date.year ∧ stamp.date.year ≤ 9999 ∧
        stamp.seconds = t ∧ stamp.Spells form value ∧
        ∀ (stamp' : Stamp) (form' : Form), stamp'.Spells form' value → form' = form) ∧
    ∀ t : Int, ∃! stamp : Stamp, stamp.second < 60 ∧ stamp.seconds = t := by
  refine ⟨?_, ?_, ?_⟩
  · intro stamp now hmin hmax
    refine ⟨parseHttpDate_imfFixdate now hmin hmax, fun day hday => ?_, fun current hcurrent h => ?_⟩
    · exact parseHttpDate_asctimeWith now hday hmin hmax
    · exact parseHttpDate_rfc850Date hmin hmax hcurrent h
  · intro value now t h
    obtain ⟨stamp, form, hmin, hmax, ht, hspells⟩ := spells_of_parseHttpDate h
    exact ⟨stamp, form, hmin, hmax, ht, hspells, fun stamp' form' h' => h'.form_unique hspells⟩
  · intro t
    obtain ⟨stamp, hsecond, ht⟩ := exists_stamp t
    exact ⟨stamp, ⟨hsecond, ht⟩, fun stamp' h => stamp_unique (h.2.trans ht.symm) h.1 hsecond⟩

end Rui.Retries
