-- SUMMARY: Stepping back in time: histories of keys, and the three ways to find the key some observations earlier.
import Lookback.Bisection
import Lookback.KeyModel

/-!
# Previous keys

Historical functions look back from the current key. What they look back
through is a `History`: the key found at each offset, offset 0 being the current
key itself. An offset with no key lies before the first observation, and then so
do all larger ones.

There are three built-in contexts to step back through: bars, the entries of a
calendar, and a fixed interval of time. Users may bring their own histories of
bars or of dates.
-/

namespace Lookback

/-- The keys seen from one key, by how many observations earlier they lie. -/
abbrev History (K : Type) := Nat → Option K

namespace History

/-- Largest offset that can be asked for. -/
def maxOffset : Nat := 18446744073709551615

/-- The history up to the largest offset. -/
def bounded {K : Type} (history : History K) : History K := fun offset =>
  if offset ≤ maxOffset then history offset else none

end History

/-! ## Bars -/

namespace Bars

/-- Bars count down to bar 0. -/
def history (bar : Int) : History Int := fun offset =>
  if offset = 0 then
    some bar
  else if 0 ≤ bar - offset then
    some (bar - offset)
  else
    none

end Bars

/-! ## Calendars -/

/-- Observation times in ascending order; a time may occur more than once. -/
structure Calendar where
  entries : Array Timestamp
  ascending : ∀ i, (h : i < entries.size - 1) → entries[i] ≤ entries[i + 1]

namespace Calendar

/-- The calendar with the given entries, if they ascend. -/
def ofArray? (entries : Array Timestamp) : Option Calendar :=
  if h : ∀ i, (h : i < entries.size - 1) → entries[i] ≤ entries[i + 1] then
    some ⟨entries, h⟩
  else
    none

def size (c : Calendar) : Nat := c.entries.size

/-- Number of entries strictly before a time. -/
def countBefore (c : Calendar) (time : Timestamp) : Nat :=
  Bisection.partitionPoint (fun i => c.entries[i]?.any (· < time)) c.entries.size

/-- Entries strictly before the key, latest first; so a gap in the calendar costs
    one step however long it is. -/
def history (c : Calendar) (key : Timestamp) : History Timestamp := fun offset =>
  if offset = 0 then
    some key
  else
    let before := c.countBefore key
    if offset ≤ before then c.entries[before - offset]? else none

end Calendar

/-! ## Intervals -/

/-- A positive duration, in nanoseconds. -/
structure Interval where
  nanos : Nat
  pos : 0 < nanos

namespace Interval

/-- The interval of the given length in milliseconds, if that is positive. -/
def ofMillis? (millis : Int) : Option Interval :=
  if h : 0 < millis then
    some ⟨(millis * nanosPerMilli).toNat, by simp only [nanosPerMilli]; omega⟩
  else
    none

/-- Largest number of intervals that one step back can span: durations are multiplied
    by 32-bit integers. -/
def maxSteps : Nat := 2147483647

/-- Longest duration that one step back can span, in nanoseconds. The date library
    documents that a duration holds at most `2 ^ 63 - 1` milliseconds and that a
    checked product beyond that is refused. -/
def maxNanos : Nat := 9223372036854775807 * 1000000

/-- Whole intervals before the key, as long as a duration can express them and time
    goes back that far. -/
def history (s : Interval) (key : Timestamp) : History Timestamp := fun offset =>
  if offset = 0 then
    some key
  else if offset ≤ maxSteps ∧ s.nanos * offset ≤ maxNanos then
    key.beforeNanos? (s.nanos * offset : Nat)
  else
    none

end Interval

/-! ## Contexts -/

/-- The context a historical function steps back through. -/
inductive PreviousKeys where
  | bars
  | calendar (entries : Calendar)
  | interval (step : Interval)
  /-- Bars found in the user's own way. -/
  | customBars (history : Int → History Int)
  /-- Dates found in the user's own way. -/
  | customDates (history : Timestamp → History Timestamp)

namespace PreviousKeys

def model : PreviousKeys → KeyModel
  | .bars => .bar
  | .calendar _ => .date
  | .interval _ => .date
  | .customBars _ => .bar
  | .customDates _ => .date

/-- The histories the context gives the keys of a model, if it serves that model. -/
def history? (keys : PreviousKeys) (M : KeyModel) : Option (M.Key → History M.Key) :=
  match M, keys with
  | .bar, .bars => some Bars.history
  | .date, .calendar c => some c.history
  | .date, .interval s => some s.history
  | .bar, .customBars h => some fun bar => (h bar).bounded
  | .date, .customDates h => some fun time => (h time).bounded
  | _, _ => none

theorem ne_keyless {keys : PreviousKeys} {M : KeyModel} {histories : M.Key → History M.Key}
    (h : keys.history? M = some histories) : M ≠ .keyless := by
  rintro rfl
  cases keys <;> cases h

def describe (keys : PreviousKeys) : String :=
  "PreviousKeys(" ++ keys.model.name ++ ")"

end PreviousKeys

end Lookback
