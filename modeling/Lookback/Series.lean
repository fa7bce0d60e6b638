-- SUMMARY: Series of observed values, read by bar or as of a date.
import Lookback.Compiled
import Lookback.Error
import Lookback.PreviousKeys

/-!
# Series

A series holds observed values, oldest first: bar `i` is value `i`. A dated
series also has a calendar of the same length, and the `i`-th entry of the
calendar is when value `i` was observed. Reading a dated series at a time gives
the latest observation at or before that time.

The calendar ought to ascend, but this is asked for only where the series is
used as a context to step back through (`previousKeys?`).
-/

namespace Lookback

structure Series where
  name : String
  values : Array Float
  calendar : Option (Array Timestamp)
  calendar_size : ∀ c ∈ calendar, c.size = values.size

namespace Series

def undated (name : String) (values : Array Float) : Series :=
  ⟨name, values, none, by simp⟩

/-- The series with its values dated, if there is a date for each. -/
def withCalendar? (s : Series) (calendar : Array Timestamp) : Option Series :=
  if h : calendar.size = s.values.size then
    some ⟨s.name, s.values, some calendar, by simp [h]⟩
  else
    none

def size (s : Series) : Nat := s.values.size

/-- Value at a bar; NaN outside the series. -/
def valueAt (s : Series) (bar : Int) : Float :=
  if 0 ≤ bar then s.values[bar.toNat]?.getD Double.nan else Double.nan

/-- Number of calendar entries at or before a time. -/
def countUpTo (calendar : Array Timestamp) (time : Timestamp) : Nat :=
  Bisection.partitionPoint (fun i => calendar[i]?.any (· ≤ time)) calendar.size

/-- The value at the last calendar entry at or before a time; NaN if there is none. -/
def readAsOf (calendar : Array Timestamp) (values : Array Float) (time : Timestamp) : Float :=
  match countUpTo calendar time with
  | 0 => Double.nan
  | count + 1 => values[count]?.getD Double.nan

/-- Value as of a time; NaN before the first observation or without a calendar. -/
def valueAsOf (s : Series) (time : Timestamp) : Float :=
  match s.calendar with
  | some calendar => readAsOf calendar s.values time
  | none => Double.nan

/-- The context of the series: its calendar if it is dated, bars otherwise. There
    is none when the calendar does not ascend. -/
def previousKeys? (s : Series) : Option PreviousKeys :=
  match s.calendar with
  | some calendar => (Calendar.ofArray? calendar).map .calendar
  | none => some .bars

def compile (s : Series) (M : KeyModel) : Except EvalError (Compiled M.Key) :=
  match M with
  | .keyless => .error (.unsupported s.name .keyless .seriesNeedsKey)
  | .bar => .ok (.double fun bar => pure (s.valueAt bar))
  | .date =>
    match s.calendar with
    | none => .error (.unsupported s.name .date .seriesUndated)
    | some calendar => .ok (.double fun time => pure (readAsOf calendar s.values time))

end Series

end Lookback
