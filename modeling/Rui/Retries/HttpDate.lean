import Rui.Library.Decimal
import Rui.Library.Slices

/-!
# HTTP-dates

`parseHttpDate` of `transport_policy.zig`: an IMF-fixdate (`Sun, 06 Nov 1994 08:49:37 GMT`),
an RFC 850 date (`Sunday, 06-Nov-94 08:49:37 GMT`) or an asctime date
(`Sun Nov  6 08:49:37 1994`), in seconds since the epoch. Years are `u16` and days `i64` in
the source, and every number here is far within them.
-/

namespace Rui.Retries

open Library

def dayNames : List (List UInt8) :=
  [text "Mon", text "Tue", text "Wed", text "Thu", text "Fri", text "Sat", text "Sun"]

def longDayNames : List (List UInt8) :=
  [text "Monday", text "Tuesday", text "Wednesday", text "Thursday", text "Friday",
    text "Saturday", text "Sunday"]

def monthNames : List (List UInt8) :=
  [text "Jan", text "Feb", text "Mar", text "Apr", text "May", text "Jun", text "Jul",
    text "Aug", text "Sep", text "Oct", text "Nov", text "Dec"]

def endsWith (bytes suffix : List UInt8) : Bool :=
  decide (suffix.length ≤ bytes.length) &&
    decide (bytes.drop (bytes.length - suffix.length) = suffix)

def indexOf (names : List (List UInt8)) (text : List UInt8) : Option Nat :=
  names.findIdx? fun name => decide (name = text)

def monthOf (text : List UInt8) : Option Nat :=
  (indexOf monthNames text).map (· + 1)

/-- `digits` for a type with this largest number. -/
def digits (largest : Nat) (text : List UInt8) : Option Nat :=
  if text.all isDigit then parseInt largest text else none

def largestU8 : Nat := 2 ^ 8 - 1

def largestU16 : Nat := 2 ^ 16 - 1

/-! ## The calendar -/

def isLeap (year : Nat) : Bool :=
  decide (year % 4 = 0) && (decide (year % 100 ≠ 0) || decide (year % 400 = 0))

def daysInMonth (year month : Nat) : Nat :=
  if month = 2 then (if isLeap year then 29 else 28)
  else if month = 4 ∨ month = 6 ∨ month = 9 ∨ month = 11 then 30
  else 31

/-- Leap years in 1..=year, so a date costs no loop over the years. -/
def leapYearsThrough (year : Nat) : Int :=
  (year : Int) / 4 - (year : Int) / 100 + (year : Int) / 400

/-- Days from 1970-01-01 to January 1 of `year`. -/
def daysBeforeYear (year : Nat) : Int :=
  365 * ((year : Int) - 1970) + leapYearsThrough (year - 1) - leapYearsThrough 1969

/-- The year holding `days` since 1970-01-01. An estimate from the 365.2425-day mean
year is off by at most one. -/
def yearOf (days : Int) : Nat :=
  let estimate := (min (1970 + days * 10000 / 3652425) 9998).toNat
  let year := if days < daysBeforeYear estimate then estimate - 1 else estimate
  if daysBeforeYear (year + 1) ≤ days then year + 1 else year

/-- A two-digit year more than 50 years in the future is the most recent past year with
the same last two digits. -/
def rfc850Year (short : Nat) (nowSeconds : Int) : Nat :=
  let current := yearOf (max nowSeconds 0 / 86400)
  let year := current / 100 * 100 + short
  if current + 50 < year then year - 100 else year

/-! ## The three forms -/

/-- What a form names, with the text of its time of day. -/
structure Fields where
  weekday : Nat
  day : Nat
  month : Nat
  year : Nat
  time : List UInt8
  deriving DecidableEq, Repr

def space : Option UInt8 := some (ascii ' ')

def hyphen : Option UInt8 := some (ascii '-')

def colon : Option UInt8 := some (ascii ':')

def imfFields (value : List UInt8) : Option Fields := do
  let weekday ← indexOf dayNames (slice value 0 3)
  if value[4]? ≠ space ∨ value[7]? ≠ space ∨ value[11]? ≠ space ∨ value[16]? ≠ space then none
  else
    let day ← digits largestU8 (slice value 5 7)
    let month ← monthOf (slice value 8 11)
    let year ← digits largestU16 (slice value 12 16)
    some ⟨weekday, day, month, year, slice value 17 25⟩

def rfc850Fields (value : List UInt8) (comma : Nat) (nowSeconds : Int) : Option Fields := do
  let weekday ← indexOf longDayNames (value.take comma)
  let rest := value.drop (comma + 1)
  if rest.length ≠ 23 ∨ rest[0]? ≠ space ∨ rest[3]? ≠ hyphen ∨ rest[7]? ≠ hyphen ∨
      rest[10]? ≠ space ∨ ¬ endsWith rest (text " GMT") then none
  else
    let day ← digits largestU8 (slice rest 1 3)
    let month ← monthOf (slice rest 4 7)
    let short ← digits largestU16 (slice rest 8 10)
    some ⟨weekday, day, month, rfc850Year short nowSeconds, slice rest 11 19⟩

/-- The day of an asctime date, whose first digit may be a space. -/
def asctimeDay (value : List UInt8) : Option Nat :=
  if value[8]? = space then digits largestU8 (slice value 9 10)
  else digits largestU8 (slice value 8 10)

def asctimeFields (value : List UInt8) : Option Fields := do
  let weekday ← indexOf dayNames (slice value 0 3)
  if value[3]? ≠ space ∨ value[7]? ≠ space ∨ value[10]? ≠ space ∨ value[19]? ≠ space then none
  else
    let month ← monthOf (slice value 4 7)
    let day ← asctimeDay value
    let year ← digits largestU16 (slice value 20 24)
    some ⟨weekday, day, month, year, slice value 11 19⟩

/-- The days of the months before this one. -/
def daysBefore (year month : Nat) : Nat :=
  ((List.range (month - 1)).map fun m => daysInMonth year (m + 1)).sum

/-- The seconds that the fields name, where they name a moment of the calendar. -/
def Fields.seconds (fields : Fields) : Option Int :=
  if fields.time[2]? ≠ colon ∨ fields.time[5]? ≠ colon then none
  else do
    let hour ← digits largestU8 (slice fields.time 0 2)
    let minute ← digits largestU8 (slice fields.time 3 5)
    let second ← digits largestU8 (slice fields.time 6 8)
    if 23 < hour ∨ 59 < minute ∨ 60 < second then none
    else if fields.year < 1970 ∨ fields.day = 0 ∨
        daysInMonth fields.year fields.month < fields.day then none
    else
      let days := daysBeforeYear fields.year + daysBefore fields.year fields.month +
        ((fields.day : Int) - 1)
      if ((days + 3) % 7).toNat ≠ fields.weekday then none
      else some (days * 86400 + hour * 3600 + minute * 60 + second)

def parseHttpDate (value : List UInt8) (nowSeconds : Int) : Option Int :=
  if value.length = 29 ∧ value[3]? = some (ascii ',') ∧ endsWith value (text " GMT") then
    (imfFields value).bind Fields.seconds
  else if ascii ',' ∈ value then
    (rfc850Fields value (value.idxOf (ascii ',')) nowSeconds).bind Fields.seconds
  else if value.length = 24 then (asctimeFields value).bind Fields.seconds
  else none

end Rui.Retries
