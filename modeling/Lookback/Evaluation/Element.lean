-- SUMMARY: How elementwise operations evaluate: which operands they ask for at a key, in which order, and what they return.
import Lookback.Operands
import Lookback.Operation

/-!
# Elementwise evaluation

Operands are evaluated from left to right, and only if the result needs them: a
choice evaluates the selected branch alone, and a conjunction or disjunction
skips its right side once the left one decides.
-/

namespace Lookback

/-! ## Three-valued logic -/

namespace Truth

/-- False unless definitely false on either side; what the left side leaves open
    is decided by the right one. -/
def and {m : Type → Type} [Monad m] (left right : m (Option Bool)) : m (Option Bool) := do
  match ← left with
  | some false => return some false
  | some true => right
  | none =>
    match ← right with
    | some false => return some false
    | _ => return none

/-- True if definitely true on either side; what the left side leaves open is
    decided by the right one. -/
def or {m : Type → Type} [Monad m] (left right : m (Option Bool)) : m (Option Bool) := do
  match ← left with
  | some true => return some true
  | some false => right
  | none =>
    match ← right with
    | some true => return some true
    | _ => return none

end Truth

/-- An ordering as -1, 0 or 1. -/
def orderingToInteger : Ordering → Int32
  | .lt => -1
  | .eq => 0
  | .gt => 1

namespace ElementOp

variable {K : Type}

/-- The selected one of a list of values; NaN for an empty list. -/
def selectFrom (which : Extremum) : List Float → Float
  | [] => Double.nan
  | x :: xs => xs.foldl which.select x

def evaluator (o : Operands K) : ElementOp → Compiled K
  | .arithmetic op =>
    let left := o.double 0
    let right := o.double 1
    .double fun key => do
      let a ← left key
      let b ← right key
      return op.apply a b
  | .negate =>
    let value := o.double 0
    .double fun key => do return -(← value key)
  | .absolute =>
    let value := o.double 0
    .double fun key => do return (← value key).abs
  | .choose =>
    let condition := o.boolean 0
    let selected := o.double 1
    let otherwise := o.double 2
    .double fun key => do
      if ← condition key then selected key else otherwise key
  | .extremum which =>
    let values := o.doubles
    .double fun key => do return selectFrom which (← values.mapM fun value => value key)
  | .relation r =>
    let left := o.double 0
    let right := o.double 1
    .nullable fun key => do
      let a ← left key
      let b ← right key
      return r.applyNullable a b
  | .ordering =>
    let left := o.double 0
    let right := o.double 1
    .integer fun key => do
      let a ← left key
      let b ← right key
      return orderingToInteger (Scalar.compare a b)
  | .not =>
    let value := o.nullable 0
    .nullable fun key => do return (← value key).map (!·)
  | .isTrue =>
    let value := o.nullable 0
    .boolean fun key => do return (← value key) == some true
  | .isFalse =>
    let value := o.nullable 0
    .boolean fun key => do return (← value key) == some false
  | .and =>
    let left := o.nullable 0
    let right := o.nullable 1
    .nullable fun key => Truth.and (left key) (right key)
  | .or =>
    let left := o.nullable 0
    let right := o.nullable 1
    .nullable fun key => Truth.or (left key) (right key)
  | .isNaN =>
    let value := o.double 0
    .boolean fun key => do return (← value key).isNaN

end ElementOp

end Lookback
