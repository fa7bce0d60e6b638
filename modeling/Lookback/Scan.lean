-- SUMMARY: Scans over a history: quantifiers, searches for matching offsets, and the samples of a window.
import Lookback.PreviousKeys
import Lookback.Scalar
import Lookback.Traced

/-!
# Scans

A window of length `n` covers the offsets below `n` of a history. Scans ask a
condition at the keys of a window, in a fixed order, and stop as soon as the
answer is known. Window lengths may be far larger than the history; every scan
ends with the history at the latest.
-/

namespace Lookback.Scan

variable {K ω : Type}

/-! ## Quantifiers -/

/-- Whether the condition holds at every offset of the window, newest first. An
    empty window does not qualify, nor does one that reaches past the history. -/
def holdsThroughout (history : History K) (condition : K → Traced ω Bool) (length : Nat) :
    Traced ω Bool :=
  if length = 0 then
    pure false
  else
    (Sum.elim (fun _ => true) id) <$> Traced.iterate
      (fun offset =>
        match history offset with
        | none => pure (.inr false)
        | some key => do
          if ← condition key then return .inl (offset + 1) else return .inr false)
      length 0

/-- Whether the condition holds at some offset of the window, newest first.
    Offsets past the history do not count. -/
def holdsSomewhere (history : History K) (condition : K → Traced ω Bool) (length : Nat) :
    Traced ω Bool :=
  (Sum.elim (fun _ => false) id) <$> Traced.iterate
    (fun offset =>
      match history offset with
      | none => pure (.inr false)
      | some key => do
        if ← condition key then return .inr true else return .inl (offset + 1))
    length 0

/-! ## Searches -/

/-- Number of leading offsets below `lookback` that have a key. A window within the
    history is recognised by its last offset. -/
def resolvableLength (history : History K) (lookback : Nat) : Nat :=
  if lookback = 0 ∨ (history (lookback - 1)).isSome then
    lookback
  else
    Bisection.boundary (fun offset => (history offset).isSome) 0 (lookback - 1)

/-- The largest offset below `count` at which the condition holds, asked in
    descending order. -/
def findDown (history : History K) (condition : K → Traced ω Bool) (count : Nat) :
    Traced ω (Option Nat) :=
  (Sum.elim (fun _ => none) id) <$> Traced.iterate
    (fun
      | 0 => pure (.inr none)
      | offset + 1 =>
        match history offset with
        | none => pure (.inl offset)
        | some key => do
          if ← condition key then return .inr (some offset) else return .inl offset)
    count count

/-- The smallest offset from `base` on at which the condition holds, among
    `lookback` offsets and within the history, asked in ascending order. An offset
    that is too large to ask for ends the history. -/
def findFrom (history : History K) (condition : K → Traced ω Bool) (lookback base : Nat) :
    Traced ω (Option Nat) :=
  (Sum.elim (fun _ => none) id) <$> Traced.iterate
    (fun offset =>
      match history.bounded offset with
      | none => pure (.inr none)
      | some key => do
        if ← condition key then return .inr (some offset) else return .inl (offset + 1))
    lookback base

/-- Largest offset that a search can report. -/
def maxIndex : Nat := 9223372036854775807

/-- The offset of a match as the result of a search; one that is too large to report
    counts as none. -/
def reported (offset : Nat) : Option Nat :=
  if offset ≤ maxIndex then some offset else none

/-- Oldest matching offset of the window, scanned from the oldest key on. -/
def firstIndexOf (history : History K) (lookback : Nat) (condition : K → Traced ω Bool) :
    Traced ω (Option Nat) :=
  (Option.bind · reported) <$> findDown history condition (resolvableLength history lookback)

/-- Newest matching offset of the window, scanned from the newest key on. -/
def lastIndexOf (history : History K) (lookback : Nat) (condition : K → Traced ω Bool) :
    Traced ω (Option Nat) :=
  (Option.bind · reported) <$> findFrom history condition lookback 0

/-- What a chained scan reports when a step finds nothing. -/
inductive ChainMode where
  /-- Nothing: every step has to match. -/
  | strict
  /-- The offset of the last step that matched. -/
  | furthest
deriving DecidableEq, Repr

/-- `steps` newest-first searches chained end to end. Each begins one key before
    the previous match and looks `lookback` keys back from there. The answer is
    the offset of the last match. The next search begins at the largest offset at
    the latest. -/
def chainedIndexOf (history : History K) (lookback steps : Nat) (mode : ChainMode)
    (condition : K → Traced ω Bool) : Traced ω (Option Nat) :=
  (Sum.elim Prod.snd id) <$> Traced.iterate
    (fun (base, found) => do
      match ← findFrom history condition lookback base with
      | some offset => return .inl (min (offset + 1) History.maxOffset, reported offset)
      | none =>
        match mode with
        | .strict => return .inr none
        | .furthest => return .inr found)
    steps (0, none)

/-! ## Samples -/

/-- The values at the keys of the window, newest first, without the missing ones. -/
def samples (history : History K) (value : K → Traced ω Float) (length : Nat) :
    Traced ω (List Float) :=
  (fun r => (Sum.elim Prod.snd id r).reverse) <$> Traced.iterate
    (fun (offset, taken) =>
      match history offset with
      | none => pure (.inr taken)
      | some key => do
        let x ← value key
        return .inl (offset + 1, if x.isNaN then taken else x :: taken))
    length (0, [])

/-! ## Window lengths -/

/-- Length of the window that a count asks for: fractions truncate, and NaN and
    counts below one give an empty window. -/
def windowLength (count : Float) : Nat :=
  if 1 ≤ count then count.toUInt64.toNat else 0

/-- The result of a search as a number; NaN when there was no match to report. -/
def indexToDouble : Option Nat → Float
  | some offset => Float.ofNat offset
  | none => Double.nan

end Lookback.Scan
