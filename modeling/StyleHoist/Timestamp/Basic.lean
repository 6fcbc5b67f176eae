/-! Points in time to the nanosecond, and the calendar in which they are written. -/
namespace StyleHoist

/-- A date of the Gregorian calendar, which also counts for times before it was made. -/
structure Date where
  year : Int
  month : Nat
  day : Nat
deriving DecidableEq, Repr

namespace Date

def isLeapYear (year : Int) : Bool := year % 4 = 0 && (year % 100 ≠ 0 || year % 400 = 0)

def daysInMonth (year : Int) (month : Nat) : Nat :=
  if month = 2 then if isLeapYear year then 29 else 28
  else if month = 4 || month = 6 || month = 9 || month = 11 then 30
  else 31

def isValid (date : Date) : Bool :=
  1 ≤ date.month && date.month ≤ 12 && 1 ≤ date.day && date.day ≤ daysInMonth date.year date.month

/-- Days since the first of January 1970. Years are counted from March, so that the day
that leap years add is the last of a year. -/
def toDays (date : Date) : Int :=
  let year := if date.month ≤ 2 then date.year - 1 else date.year
  let month := (date.month + 9) % 12
  let dayOfYear := (153 * month + 2) / 5 + date.day - 1
  365 * year + year / 4 - year / 100 + year / 400 + dayOfYear - 719468

def ofDays (days : Int) : Date :=
  let shifted := days + 719468
  let era := shifted / 146097
  let dayOfEra := (shifted % 146097).toNat
  let yearOfEra := (dayOfEra - dayOfEra / 1460 + dayOfEra / 36524 - dayOfEra / 146096) / 365
  let dayOfYear := dayOfEra - (365 * yearOfEra + yearOfEra / 4 - yearOfEra / 100)
  let month := (5 * dayOfYear + 2) / 153
  let day := dayOfYear - (153 * month + 2) / 5 + 1
  let month := if month < 10 then month + 3 else month - 9
  let year := era * 400 + yearOfEra
  ⟨if month ≤ 2 then year + 1 else year,month,day⟩

end Date

/-- A point in time. -/
structure Timestamp where
  /-- Seconds since the start of 1970. A leap second has the number of the one before it. -/
  seconds : Int
  nanos : Nat
  leap : Bool
deriving DecidableEq, Repr, Inhabited

namespace Timestamp

def secondsPerDay : Int := 86400

/-- Years that have dates. -/
def firstYear : Int := -262143

def lastYear : Int := 262142

def hasYear (year : Int) : Bool := firstYear ≤ year && year ≤ lastYear

/-- Whether a second since the start of 1970 falls into such a year. -/
def hasDate (seconds : Int) : Bool := hasYear (Date.ofDays (seconds / secondsPerDay)).year

/-- A number in at least so many digits. -/
def padded (width n : Nat) : List Char :=
  let digits := Nat.toDigits 10 n
  List.replicate (width - digits.length) '0' ++ digits

/-- Four digits, or a sign and at least four digits for other years. -/
def yearText (year : Int) : List Char :=
  if 0 ≤ year && year ≤ 9999 then padded 4 year.toNat
  else if 0 ≤ year then '+' :: padded 4 year.toNat
  else '-' :: padded 4 (-year).toNat

/-- The fraction of a second in groups of three digits, as many as are needed. -/
def fractionText (nanos : Nat) : List Char :=
  if nanos = 0 then []
  else if nanos % 1000000 = 0 then '.' :: padded 3 (nanos / 1000000)
  else if nanos % 1000 = 0 then '.' :: padded 6 (nanos / 1000)
  else '.' :: padded 9 nanos

/-- Date and time in UTC. -/
def text (time : Timestamp) : List Char :=
  let date := Date.ofDays (time.seconds / secondsPerDay)
  let second := (time.seconds % secondsPerDay).toNat
  yearText date.year ++ '-' :: padded 2 date.month ++ '-' :: padded 2 date.day ++
    'T' :: padded 2 (second / 3600) ++ ':' :: padded 2 (second / 60 % 60) ++
    ':' :: padded 2 (second % 60 + if time.leap then 1 else 0) ++ fractionText time.nanos ++ ['Z']

/-- Nanoseconds from one time to another. -/
def since (later earlier : Timestamp) : Int :=
  let count := fun (time : Timestamp) =>
    1000000000 * (time.seconds + if time.leap then 1 else 0) + (time.nanos : Int)
  count later - count earlier

/-- An age in minutes, in hours and minutes, or in days and hours. A part of a minute does
not count, and a negative age is given in minutes. -/
def ageText (nanoseconds : Int) : String :=
  let minutes := nanoseconds.tdiv 60000000000
  let hours := minutes.tdiv 60
  let days := hours.tdiv 24
  if 0 < days then toString days ++ "d " ++ toString (hours.tmod 24) ++ "h"
  else if 0 < hours then toString hours ++ "h " ++ toString (minutes.tmod 60) ++ "m"
  else toString minutes ++ "m"

end Timestamp

end StyleHoist
