-- SUMMARY: Rounding-tolerant comparison of scalars, its three policies for missing operands, and the six relations read off it.
import Lookback.Scalar

/-!
# Comparison

Two numbers that differ only by rounding noise compare equal: a difference
above `tolerance` decides at once, a smaller one is looked at again after both
sides have been rounded to nine decimals.

A missing operand is treated in one of three ways (`MissingPolicy`): it counts
as zero, it loses against every number, or it makes the result unknown.
-/

namespace Lookback

namespace Scalar

variable {α : Type} [Scalar α]

/-- Differences up to this size are looked at again after rounding. It is one
    unit of the last decimal kept by `roundToScale`. -/
def tolerance : α := ofDecimal 1 9

/-- Number of units per whole kept by rounding: nine decimals. -/
def unitsPerWhole : α := ofNat 1000000000

def roundToScale (x : α) : α :=
  round (x * unitsPerWhole) / unitsPerWhole

def nanAsZero (x : α) : α :=
  if isNaN x then zero else x

/-- Numeric order; values the numeric order does not separate are equal. -/
def plainCompare (a b : α) : Ordering :=
  if below a b then .lt else if below b a then .gt else .eq

/-- Tolerant comparison. A missing operand counts as zero. -/
def compare (a b : α) : Ordering :=
  let difference := a - b
  if below tolerance (abs difference) then
    if below zero difference then .gt else .lt
  else if same difference zero then
    .eq
  else
    plainCompare (roundToScale (nanAsZero a)) (roundToScale (nanAsZero b))

/-- Tolerant comparison in which a missing operand is below every number. -/
def compareMissingLow (a b : α) : Ordering :=
  match isNaN a, isNaN b with
  | true, true => .eq
  | true, false => .lt
  | false, true => .gt
  | false, false => compare a b

/-- Tolerant comparison, unknown when an operand is missing. -/
def compare? (a b : α) : Option Ordering :=
  if isNaN a || isNaN b then none else some (compare a b)

/-- The larger of two values, the first on a tie; a missing side loses. -/
def larger (a b : α) : α :=
  if compareMissingLow b a = .gt then b else a

/-- The smaller of two values, the first on a tie; a missing side loses. -/
def smaller (a b : α) : α :=
  match isNaN a, isNaN b with
  | true, _ => b
  | false, true => a
  | false, false => if compare b a = .lt then b else a

end Scalar

/-! ## Relations -/

/-- What a comparison does with a missing operand. -/
inductive MissingPolicy where
  | zero
  /-- It loses: no relation holds. -/
  | loses
  | unknown
deriving DecidableEq, Repr

inductive Relation where
  | greater
  | greaterEq
  | less
  | lessEq
  | equal
  | notEqual
deriving DecidableEq, Repr

namespace Relation

/-- All relations, in the order of the function table. -/
def all : List Relation := [.greater, .greaterEq, .less, .lessEq, .equal, .notEqual]

def symbol : Relation → String
  | .greater => ">"
  | .greaterEq => ">="
  | .less => "<"
  | .lessEq => "<="
  | .equal => "=="
  | .notEqual => "!="

/-- Whether the relation holds for operands that compare this way. -/
def admits : Relation → Ordering → Bool
  | .greater, o => o == .gt
  | .greaterEq, o => o != .lt
  | .less, o => o == .lt
  | .lessEq, o => o != .gt
  | .equal, o => o == .eq
  | .notEqual, o => o != .eq

variable {α : Type} [Scalar α]

/-- The relation with a missing operand counted as zero. -/
def apply (r : Relation) (a b : α) : Bool :=
  r.admits (Scalar.compare a b)

/-- The relation on numbers only; false when an operand is missing. -/
def applyPresent (r : Relation) (a b : α) : Bool :=
  !Scalar.isNaN a && !Scalar.isNaN b && r.apply a b

/-- The three-valued relation: unknown when an operand is missing. -/
def applyNullable (r : Relation) (a b : α) : Option Bool :=
  (Scalar.compare? a b).map r.admits

/-- Two-valued view of the three-valued relation; unknown is false. -/
def applyDefinite (r : Relation) (a b : α) : Bool :=
  (r.applyNullable a b).getD false

def applyUnder (r : Relation) : MissingPolicy → α → α → Option Bool
  | .zero, a, b => some (r.apply a b)
  | .loses, a, b => some (r.applyPresent a b)
  | .unknown, a, b => r.applyNullable a b

end Relation

/-- A comparison taken apart into its relation and its operands. -/
structure Comparison (β : Type) where
  relation : Relation
  left : β
  right : β

end Lookback
