-- SUMMARY: The compiled arguments of a call as its operation sees them, with defaults for omitted ones.
import Lookback.Compiled

/-! # Operands

An operation asks for its operands by position, in the kind it works on. Where a
call has no argument at a position, a constant stands in. -/

namespace Lookback

/-- Compiled arguments, with the numbers that stand for omitted ones. -/
structure Operands (K : Type) where
  given : List (Compiled K)
  omitted : Nat → Float

namespace Operands

variable {K : Type}

/-- The operand at a position. -/
def compiled (o : Operands K) (index : Nat) : Compiled K :=
  o.given[index]?.getD (.constant ⟨.double, o.omitted index⟩)

def double (o : Operands K) (index : Nat) : Evaluator K Float :=
  (o.compiled index).toDouble

def boolean (o : Operands K) (index : Nat) : Evaluator K Bool :=
  (o.compiled index).toBoolean

def nullable (o : Operands K) (index : Nat) : Evaluator K (Option Bool) :=
  (o.compiled index).toNullable

/-- All operands that are given, as doubles. -/
def doubles (o : Operands K) : List (Evaluator K Float) :=
  o.given.map Compiled.toDouble

end Operands

end Lookback
