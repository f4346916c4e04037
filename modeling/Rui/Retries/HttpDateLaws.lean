import Rui.Library.Calendar
import Rui.Retries.HttpDate

/-!
# What an HTTP-date spells

Each form of a moment parses to the moment, and what parses is a form of the moment it
gives, its weekday included.
-/

namespace Rui.Retries

open Library

/-! ## Moments -/

/-- A date and a time of day, whose second may be a leap second. -/
structure Stamp where
  date : Date
  hour : Nat
  minute : Nat
  second : Nat
  hour_lt : hour < 24
  minute_lt : minute < 60
  second_le : second ≤ 60

def Stamp.seconds (stamp : Stamp) : Int :=
  stamp.date.number * 86400 + stamp.hour * 3600 + stamp.minute * 60 + stamp.second

/-- Every second is the second of one stamp that is no leap second. -/
theorem exists_stamp (t : Int) : ∃ stamp : Stamp, stamp.second < 60 ∧ stamp.seconds = t := by
  obtain ⟨date, hdate⟩ := exists_date (t / 86400)
  refine ⟨⟨date, (t % 86400 / 3600).toNat, (t % 3600 / 60).toNat, (t % 60).toNat, by omega,
    by omega, by omega⟩, by simp only; omega, ?_⟩
  simp only [Stamp.seconds, hdate]
  omega

theorem stamp_unique {stamp stamp' : Stamp} (h : stamp.seconds = stamp'.seconds)
    (hsecond : stamp.second < 60) (hsecond' : stamp'.second < 60) : stamp = stamp' := by
  obtain ⟨date, hour, minute, second, hhour, hminute, _⟩ := stamp
  obtain ⟨date', hour', minute', second', hhour', hminute', _⟩ := stamp'
  simp only [Stamp.seconds] at h hsecond hsecond'
  obtain rfl : date = date' := Date.number_injective (by omega)
  obtain rfl : hour = hour' := by omega
  obtain rfl : minute = minute' := by omega
  obtain rfl : second = second' := by omega
  rfl

/-! ## The three forms -/

def digitOf (d : Nat) : UInt8 := ascii (Nat.digitChar d)

def twoDigits (n : Nat) : List UInt8 := [digitOf (n / 10), digitOf (n % 10)]

def fourDigits (n : Nat) : List UInt8 := twoDigits (n / 100) ++ twoDigits (n % 100)

namespace Stamp

def dayName (stamp : Stamp) : List UInt8 := dayNames.getD (weekday stamp.date.number) []

def longDayName (stamp : Stamp) : List UInt8 := longDayNames.getD (weekday stamp.date.number) []

def monthName (stamp : Stamp) : List UInt8 := monthNames.getD (stamp.date.month - 1) []

def timeOfDay (stamp : Stamp) : List UInt8 :=
  twoDigits stamp.hour ++ ascii ':' :: twoDigits stamp.minute ++
    ascii ':' :: twoDigits stamp.second

def imfFixdate (stamp : Stamp) : List UInt8 :=
  stamp.dayName ++ [ascii ',', ascii ' '] ++ twoDigits stamp.date.day ++ [ascii ' '] ++
    stamp.monthName ++ [ascii ' '] ++ fourDigits stamp.date.year.toNat ++ [ascii ' '] ++
    stamp.timeOfDay ++ text " GMT"

def rfc850Date (stamp : Stamp) : List UInt8 :=
  stamp.longDayName ++ [ascii ',', ascii ' '] ++ twoDigits stamp.date.day ++ [ascii '-'] ++
    stamp.monthName ++ [ascii '-'] ++ twoDigits (stamp.date.year.toNat % 100) ++ [ascii ' '] ++
    stamp.timeOfDay ++ text " GMT"

/-- An asctime date with this spelling of its day. -/
def asctimeWith (stamp : Stamp) (day : List UInt8) : List UInt8 :=
  stamp.dayName ++ [ascii ' '] ++ stamp.monthName ++ [ascii ' '] ++ day ++ [ascii ' '] ++
    stamp.timeOfDay ++ [ascii ' '] ++ fourDigits stamp.date.year.toNat

end Stamp

/-- The year that the fifty-year rule selects in this year: the one of this century with
these last two digits, or a century before where that is more than 50 years ahead. -/
def selectedYear (current : Int) (short : Nat) : Int :=
  let year := current / 100 * 100 + short
  if current + 50 < year then year - 100 else year

/-! ## Names and digits -/

variable {bytes : List UInt8} {largest n : Nat}

theorem slice_of_endsWith {suffix : List UInt8} (h : endsWith bytes suffix = true) :
    slice bytes (bytes.length - suffix.length) bytes.length = suffix := by
  rw [endsWith, Bool.and_eq_true, decide_eq_true_iff, decide_eq_true_iff] at h
  rw [slice, h.2, List.take_of_length_le (by omega)]

theorem indexOf_eq_some {names : List (List UInt8)} {name : List UInt8} {i : Nat}
    (h : indexOf names name = some i) : names[i]? = some name := by
  rw [indexOf, List.findIdx?_eq_some_iff_getElem] at h
  obtain ⟨hlt, hname, -⟩ := h
  rw [List.getElem?_eq_getElem hlt, of_decide_eq_true hname]

theorem dayName_index : ∀ i < 7, indexOf dayNames (dayNames.getD i []) = some i ∧
    (dayNames.getD i []).length = 3 ∧ ascii ',' ∉ dayNames.getD i [] := by
  decide

theorem longDayName_index : ∀ i < 7, indexOf longDayNames (longDayNames.getD i []) = some i ∧
    6 ≤ (longDayNames.getD i []).length ∧ ascii ',' ∉ longDayNames.getD i [] := by
  decide

theorem monthName_index : ∀ i < 12, indexOf monthNames (monthNames.getD i []) = some i ∧
    (monthNames.getD i []).length = 3 ∧ ascii ',' ∉ monthNames.getD i [] := by
  decide

theorem isDigit_digitOf {d : Nat} (h : d < 10) :
    isDigit (digitOf d) = true ∧ digitValue (digitOf d) = d :=
  isDigit_digitChar h

theorem digitOf_digitValue {byte : UInt8} (h : isDigit byte = true) :
    digitOf (digitValue byte) = byte :=
  ascii_digitChar h

theorem digits_eq_some (hne : bytes ≠ []) : digits largest bytes = some n ↔
      (∀ byte ∈ bytes, isDigit byte = true) ∧ decimalValue bytes = n ∧ n ≤ largest := by
  rw [digits]
  by_cases hall : bytes.all isDigit = true
  · have hdigits := List.all_eq_true.mp hall
    rw [if_pos hall, parseInt_digits largest hne hdigits]
    by_cases hle : decimalValue bytes ≤ largest
    · rw [if_pos hle]
      constructor
      · rintro ⟨⟩
        exact ⟨hdigits, rfl, hle⟩
      · rintro ⟨-, rfl, -⟩
        rfl
    · rw [if_neg hle]
      refine ⟨fun h => (by cases h), fun h => ?_⟩
      obtain ⟨-, rfl, hle'⟩ := h
      exact absurd hle' hle
  · rw [if_neg hall]
    exact ⟨fun h => (by cases h), fun h => absurd (List.all_eq_true.mpr h.1) hall⟩

theorem digits_one {d : Nat} (h : d < 10) : digits largestU8 [digitOf d] = some d := by
  obtain ⟨hdigit, hvalue⟩ := isDigit_digitOf h
  refine (digits_eq_some (by simp)).mpr ⟨by simpa using hdigit, ?_, ?_⟩
  · simp [decimalValue, hvalue]
  · rw [largestU8]
    omega

theorem digits_two (h : n < 100) (hlargest : 99 ≤ largest) :
    digits largest (twoDigits n) = some n := by
  obtain ⟨hhigh, hhighValue⟩ := isDigit_digitOf (show n / 10 < 10 by omega)
  obtain ⟨hlow, hlowValue⟩ := isDigit_digitOf (show n % 10 < 10 by omega)
  refine (digits_eq_some (by simp [twoDigits])).mpr ⟨?_, ?_, by omega⟩
  · simp [twoDigits, hhigh, hlow]
  · simp only [twoDigits, decimalValue, valueFrom_cons, valueFrom_nil, hhighValue, hlowValue]
    omega

theorem digits_four (h : n < 10000) : digits largestU16 (fourDigits n) = some n := by
  obtain ⟨ha, haValue⟩ := isDigit_digitOf (show n / 100 / 10 < 10 by omega)
  obtain ⟨hb, hbValue⟩ := isDigit_digitOf (show n / 100 % 10 < 10 by omega)
  obtain ⟨hc, hcValue⟩ := isDigit_digitOf (show n % 100 / 10 < 10 by omega)
  obtain ⟨hd, hdValue⟩ := isDigit_digitOf (show n % 100 % 10 < 10 by omega)
  refine (digits_eq_some (by simp [fourDigits, twoDigits])).mpr ⟨?_, ?_, ?_⟩
  · intro byte hbyte
    simp only [fourDigits, twoDigits, List.cons_append, List.nil_append, List.mem_cons,
      List.not_mem_nil, or_false] at hbyte
    rcases hbyte with rfl | rfl | rfl | rfl <;> assumption
  · simp only [fourDigits, twoDigits, List.cons_append, List.nil_append, decimalValue,
      valueFrom_cons, valueFrom_nil, haValue, hbValue, hcValue, hdValue]
    omega
  · rw [largestU16]
    omega

theorem one_of_digits (hlength : bytes.length = 1) (h : digits largest bytes = some n) :
    bytes = [digitOf n] ∧ n < 10 := by
  obtain ⟨a, rfl⟩ := List.length_eq_one_iff.mp hlength
  obtain ⟨hdigits, rfl, -⟩ := (digits_eq_some (by simp)).mp h
  have ha := hdigits a (by simp)
  simp only [decimalValue, valueFrom_cons, valueFrom_nil, Nat.mul_zero, Nat.zero_add]
  exact ⟨by rw [digitOf_digitValue ha], digitValue_lt ha⟩

theorem two_of_digits (hlength : bytes.length = 2) (h : digits largest bytes = some n) :
    bytes = twoDigits n ∧ n < 100 := by
  obtain ⟨a, b, rfl⟩ := List.length_eq_two.mp hlength
  obtain ⟨hdigits, rfl, -⟩ := (digits_eq_some (by simp)).mp h
  have ha := hdigits a (by simp)
  have hb := hdigits b (by simp)
  have halt := digitValue_lt ha
  have hblt := digitValue_lt hb
  simp only [decimalValue, valueFrom_cons, valueFrom_nil, Nat.mul_zero, Nat.zero_add, twoDigits]
  have hdiv : (10 * digitValue a + digitValue b) / 10 = digitValue a := by omega
  have hmod : (10 * digitValue a + digitValue b) % 10 = digitValue b := by omega
  rw [hdiv, hmod, digitOf_digitValue ha, digitOf_digitValue hb]
  exact ⟨rfl, by omega⟩

theorem four_of_digits (hlength : bytes.length = 4) (h : digits largest bytes = some n) :
    bytes = fourDigits n ∧ n < 10000 := by
  obtain ⟨a, b, c, d, rfl⟩ : ∃ a b c d, bytes = [a, b, c, d] := by
    rcases bytes with _ | ⟨a, _ | ⟨b, _ | ⟨c, _ | ⟨d, _ | ⟨e, rest⟩⟩⟩⟩⟩ <;>
      simp at hlength
    exact ⟨a, b, c, d, rfl⟩
  obtain ⟨hdigits, rfl, -⟩ := (digits_eq_some (by simp)).mp h
  have ha := hdigits a (by simp)
  have hb := hdigits b (by simp)
  have hc := hdigits c (by simp)
  have hd := hdigits d (by simp)
  have halt := digitValue_lt ha
  have hblt := digitValue_lt hb
  have hclt := digitValue_lt hc
  have hdlt := digitValue_lt hd
  simp only [decimalValue, valueFrom_cons, valueFrom_nil, Nat.mul_zero, Nat.zero_add, fourDigits,
    twoDigits]
  generalize hn : 10 * (10 * (10 * digitValue a + digitValue b) + digitValue c) + digitValue d = n
  have h1 : n / 100 / 10 = digitValue a := by omega
  have h2 : n / 100 % 10 = digitValue b := by omega
  have h3 : n % 100 / 10 = digitValue c := by omega
  have h4 : n % 100 % 10 = digitValue d := by omega
  rw [h1, h2, h3, h4, digitOf_digitValue ha, digitOf_digitValue hb, digitOf_digitValue hc,
    digitOf_digitValue hd]
  exact ⟨rfl, by omega⟩

end Rui.Retries
