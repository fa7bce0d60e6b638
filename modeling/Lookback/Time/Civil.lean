-- SUMMARY: Dates and clock readings of the proleptic Gregorian calendar, and their day numbers.

/-!
# Civil dates

The calendar is proleptic Gregorian with a year 0. Days are numbered from
1970-01-01; years run from `firstYear` to `lastYear`.

Day numbers are computed on years that begin in March, so that the leap day is
the last day of its year, and within cycles of 400 years, which all have the
same length.
-/

namespace Lookback

structure CivilDate where
  year : Int
  month : Nat
  day : Nat
deriving DecidableEq, Repr

namespace CivilDate

def firstYear : Int := -262143

def lastYear : Int := 262142

/-- Every fourth year is a leap year, but of the full centuries only every fourth. -/
def isLeapYear (year : Int) : Bool :=
  year % 4 == 0 && (year % 100 != 0 || year % 400 == 0)

/-- Number of days of a month; 0 for a month that does not exist. -/
def daysInMonth (year : Int) (month : Nat) : Nat :=
  match month with
  | 1 | 3 | 5 | 7 | 8 | 10 | 12 => 31
  | 4 | 6 | 9 | 11 => 30
  | 2 => if isLeapYear year then 29 else 28
  | _ => 0

/-- Whether the date exists and its year is supported. -/
def isValid (d : CivilDate) : Bool :=
  decide (firstYear ≤ d.year) && decide (d.year ≤ lastYear) &&
    decide (1 ≤ d.day) && decide (d.day ≤ daysInMonth d.year d.month)

def daysPerCycle : Int := 146097

/-- Day number of 0000-03-01, on which a cycle begins, counted down from 1970-01-01. -/
def daysBeforeEpoch : Int := 719468

/-- Days since 1970-01-01. -/
def dayNumber (d : CivilDate) : Int :=
  let fromMarch : Int := if d.month ≤ 2 then d.month + 9 else d.month - 3
  let year := if d.month ≤ 2 then d.year - 1 else d.year
  let cycle := year / 400
  let yearOfCycle := year % 400
  let dayOfYear := (153 * fromMarch + 2) / 5 + d.day - 1
  let dayOfCycle := yearOfCycle * 365 + yearOfCycle / 4 - yearOfCycle / 100 + dayOfYear
  cycle * daysPerCycle + dayOfCycle - daysBeforeEpoch

def ofDayNumber (days : Int) : CivilDate :=
  let shifted := days + daysBeforeEpoch
  let cycle := shifted / daysPerCycle
  let dayOfCycle := shifted % daysPerCycle
  let yearOfCycle :=
    (dayOfCycle - dayOfCycle / 1460 + dayOfCycle / 36524 - dayOfCycle / 146096) / 365
  let dayOfYear := dayOfCycle - (365 * yearOfCycle + yearOfCycle / 4 - yearOfCycle / 100)
  let fromMarch := (5 * dayOfYear + 2) / 153
  let day := dayOfYear - (153 * fromMarch + 2) / 5 + 1
  let month := if fromMarch < 10 then fromMarch + 3 else fromMarch - 9
  let year := yearOfCycle + cycle * 400
  { year := if month ≤ 2 then year + 1 else year
    month := month.toNat
    day := day.toNat }

end CivilDate

/-- A date with a clock reading. A leap second prolongs the second before it:
    nanoseconds run on from `10 ^ 9` up to `2 * 10 ^ 9` there. -/
structure CivilDateTime where
  date : CivilDate
  hour : Nat
  minute : Nat
  second : Nat
  nano : Nat
deriving DecidableEq, Repr

namespace CivilDateTime

/-- Whether the date exists and the clock can show the time. Any minute may end with
    a leap second. -/
def isValid (t : CivilDateTime) : Bool :=
  t.date.isValid && decide (t.hour < 24) && decide (t.minute < 60) && decide (t.second < 60) &&
    (decide (t.nano < 1000000000) || (t.second == 59 && decide (t.nano < 2000000000)))

end CivilDateTime

end Lookback
