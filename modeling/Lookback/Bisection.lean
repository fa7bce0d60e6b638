-- SUMMARY: Bisections over an index range: the boundary of a predicate that holds on an initial segment.

/-!
# Bisection

`partitionPoint p n` is the number of leading indices below `n` at which `p`
holds, found with logarithmically many questions. `boundary p low high` finds
the end of the initial segment between two indices that are known to lie on
either side of it. Both presume that `p` holds on an initial segment; on any
other predicate they still answer, at an index where the halving happened to end.

`find? place n` looks for an index below `n` where one thing sought for is, among
things in ascending order. It asks for the place of things next to what is sought:
before it (`lt`), at it (`eq`) or after it (`gt`).
-/

namespace Lookback.Bisection

/-- Halve the block of `size` indices from `base` on, keeping the upper part as
    long as its first index satisfies `p`, until one index is left. -/
def narrow (p : Nat → Bool) (base size : Nat) : Nat :=
  if size ≤ 1 then
    base
  else
    let middle := base + size / 2
    narrow p (if p middle then middle else base) (size - size / 2)
termination_by size

/-- Number of leading indices below `size` that satisfy `p`. -/
def partitionPoint (p : Nat → Bool) (size : Nat) : Nat :=
  if size = 0 then
    0
  else
    let last := narrow p 0 size
    if p last then last + 1 else last

/-- An index below `size` whose place is `eq`. The halving looks at one index in the
    end, and there is no answer when the place of that one is another. -/
def find? (place : Nat → Ordering) (size : Nat) : Option Nat :=
  if size = 0 then
    none
  else
    let last := narrow (fun i => place i != .gt) 0 size
    if place last == .eq then some last else none

/-- First index from `low` on at which `p` fails, when it holds at none from `high`
    on: halve the range, keeping the part with the boundary in it. -/
def boundary (p : Nat → Bool) (low high : Nat) : Nat :=
  if low < high then
    let middle := low + (high - low) / 2
    if p middle then boundary p (middle + 1) high else boundary p low middle
  else
    low
termination_by high - low

end Lookback.Bisection
