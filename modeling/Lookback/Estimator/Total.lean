-- SUMMARY: Running sums and products.
import Lookback.Scalar

/-! # Totals

The sum and the product of the values seen so far, with their number. -/

namespace Lookback

variable {α : Type} [Scalar α]

/-- A sum and the number of its terms. -/
structure RunningSum (α : Type) where
  count : Nat
  sum : α

namespace RunningSum

def empty : RunningSum α := ⟨0, Scalar.zero⟩

def add (s : RunningSum α) (x : α) : RunningSum α :=
  ⟨s.count + 1, s.sum + x⟩

def ofList (xs : List α) : RunningSum α := xs.foldl add empty

end RunningSum

/-- A product and the number of its factors. -/
structure RunningProduct (α : Type) where
  count : Nat
  accumulated : α

namespace RunningProduct

def empty : RunningProduct α := ⟨0, Scalar.zero⟩

/-- One more factor. The first factor is taken as it is. -/
def add (s : RunningProduct α) (x : α) : RunningProduct α :=
  ⟨s.count + 1, if s.count = 0 then x else s.accumulated * x⟩

/-- The product; zero while there are no factors. -/
def product (s : RunningProduct α) : α :=
  if s.count = 0 then Scalar.zero else s.accumulated

def ofList (xs : List α) : RunningProduct α := xs.foldl add empty

end RunningProduct

end Lookback
