-- SUMMARY: Key sources: what supplies the keys of a walk, oldest first.
import Lookback.Series

/-!
# Key sources

A walk evaluates an expression at the keys of a source, in order. A source says
how many keys it counts and which key, if any, it has at an index.
-/

namespace Lookback

/-- A numbered supply of keys. -/
structure KeySource (K : Type) where
  count : Nat
  keyAt : Nat → Option K

def KeySource.ofList {K : Type} (keys : List K) : KeySource K where
  count := keys.length
  keyAt index := keys[index]?

/-- Bars from `start` up to, not including, `stop`. -/
structure BarRange where
  start : Int64
  stop : Int64
deriving DecidableEq, Repr

namespace BarRange

/-- Largest length and index that bars can express. -/
def limit : Nat := 9223372036854775807

/-- Number of bars; longer ranges count `limit`. -/
def count (r : BarRange) : Nat :=
  min (r.stop.toInt - r.start.toInt).toNat limit

/-- The bar at an index, if it lies before `stop`. -/
def barAt (r : BarRange) (index : Nat) : Option Int :=
  let bar := r.start.toInt + index
  if index ≤ limit ∧ bar < r.stop.toInt then some bar else none

def keys (r : BarRange) : KeySource Int := ⟨r.count, r.barAt⟩

end BarRange

namespace Series

/-- One bar per value. -/
def bars (s : Series) : KeySource Int where
  count := s.size
  keyAt index := if index < s.size then some (index : Int) else none

/-- The entries of the calendar; no keys without one. -/
def dates (s : Series) : KeySource Timestamp where
  count := s.calendar.elim 0 Array.size
  keyAt index := s.calendar.bind fun calendar => calendar[index]?

/-- The keys of the series under a key model that has keys. -/
def keys? (s : Series) : (M : KeyModel) → Option (KeySource M.Key)
  | .keyless => none
  | .bar => some s.bars
  | .date => some s.dates

end Series

/-! ## Walks -/

namespace KeySource

variable {ω K α : Type}

/-- Evaluate at the key of each index from `index` on, for `n` indices. -/
def walkFrom (source : KeySource K) (evaluate : K → Traced ω α) :
    Nat → Nat → Traced ω (List α)
  | 0, _ => pure []
  | n + 1, index =>
    match source.keyAt index with
    | none => walkFrom source evaluate n (index + 1)
    | some key => do
      let value ← evaluate key
      let rest ← walkFrom source evaluate n (index + 1)
      return value :: rest

def walk (source : KeySource K) (evaluate : K → Traced ω α) : Traced ω (List α) :=
  source.walkFrom evaluate source.count 0

end KeySource

end Lookback
