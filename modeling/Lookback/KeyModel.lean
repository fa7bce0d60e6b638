-- SUMMARY: The three key models: what a key is when an expression is evaluated.
import Lookback.Time.Timestamp

/-!
# Key models

A key says at which observation an expression is evaluated. There are three
kinds of keys, and an expression is compiled for each of them separately: none
at all, a bar (the index of an observation), or a date.
-/

namespace Lookback

/-- How evaluation is keyed. -/
inductive KeyModel where
  /-- No key: only values that are the same everywhere can be computed. -/
  | keyless
  /-- Bars: indices into the observations. -/
  | bar
  /-- Dates: timestamps on a calendar. -/
  | date
deriving DecidableEq, Repr

namespace KeyModel

abbrev Key : KeyModel → Type
  | .keyless => Unit
  | .bar => Int
  | .date => Timestamp

def name : KeyModel → String
  | .keyless => "no key"
  | .bar => "int key"
  | .date => "date key"

end KeyModel

end Lookback
