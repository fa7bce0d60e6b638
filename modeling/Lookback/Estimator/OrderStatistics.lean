-- SUMMARY: Quantiles of the most recent values.
import Lookback.Bisection
import Lookback.Scalar

/-!
# Order statistics

The values retained are kept twice: as they arrived, to know which is the oldest,
and sorted, to read quantiles off. A window bounds how many are retained.
-/

namespace Lookback

structure OrderStatistics (α : Type) where
  /-- How many values are retained at most, if that is bounded. -/
  window : Option Nat
  /-- In order of arrival, newest first. -/
  recent : List α
  /-- Ascending in the total order. -/
  sorted : List α

namespace OrderStatistics

variable {α : Type} [Scalar α]

def unbounded : OrderStatistics α := ⟨none, [], []⟩

/-- No values yet, and at most `window` of them, but at least one. -/
def bounded (window : Nat) : OrderStatistics α := ⟨some (max window 1), [], []⟩

def size (s : OrderStatistics α) : Nat := s.sorted.length

/-- A sorted list with one more value, placed before its equals by bisection. -/
def insertSorted (x : α) (xs : List α) : List α :=
  xs.insertIdx
    (Bisection.partitionPoint (fun i => xs[i]?.any fun y => Scalar.order y x == .lt) xs.length) x

/-- Where in a sorted list a value identical to `x` is, by bisection. -/
def findIdentical? (x : α) (xs : List α) : Option Nat :=
  Bisection.find? (fun i => xs[i]?.elim .gt fun y => Scalar.order y x) xs.length

/-- A sorted list without the value identical to `x` that bisection finds; the list
    as it is if it finds none. -/
def removeOne (x : α) (xs : List α) : List α :=
  match findIdentical? x xs with
  | some i => xs.eraseIdx i
  | none => xs

def evictOldest (s : OrderStatistics α) : OrderStatistics α :=
  match s.recent.getLast? with
  | none => s
  | some oldest => ⟨s.window, s.recent.dropLast, removeOne oldest s.sorted⟩

/-- Whether another value needs room to be made. -/
def isFull (s : OrderStatistics α) : Bool :=
  s.window.any fun window => decide (window ≤ s.recent.length)

def add (s : OrderStatistics α) (x : α) : OrderStatistics α :=
  let s := if s.isFull then s.evictOldest else s
  ⟨s.window, x :: s.recent, insertSorted x s.sorted⟩

/-- The quantile that is asked for: NaN stands for the median, and others are
    clamped to `[0, 1]`. -/
def clampQuantile (q : α) : α :=
  if Scalar.isNaN q then Scalar.ofDecimal 5 1
  else if Scalar.below q Scalar.zero then Scalar.zero
  else if Scalar.below Scalar.one q then Scalar.one
  else q

/-- Linear interpolation between the two ranks closest to a quantile; zero when
    nothing is retained. -/
def percentile (s : OrderStatistics α) (q : α) : α :=
  match s.sorted with
  | [] => Scalar.zero
  | [x] => x
  | xs =>
    let position := clampQuantile q * Scalar.ofNat (xs.length - 1)
    let low := Scalar.floor position
    let high := Scalar.ceil position
    let fraction := position - Scalar.ofNat low
    let lower := xs[low]?.getD Scalar.zero
    let upper := xs[high]?.getD Scalar.zero
    lower + (upper - lower) * fraction

def median (s : OrderStatistics α) : α := s.percentile (Scalar.ofDecimal 5 1)

end OrderStatistics

end Lookback
