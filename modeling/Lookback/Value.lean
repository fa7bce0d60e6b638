-- SUMMARY: Result kinds, the values of each kind, and the coercions between them.
import Lookback.Scalar

/-!
# Values

An expression produces one of four kinds of values: doubles, 32-bit integers,
two-valued and three-valued booleans. Every kind can be coerced to every other.
What is missing is NaN as a double and `none` as a three-valued boolean; in the
other two kinds it collapses to zero or false.
-/

namespace Lookback

inductive Kind where
  | double
  | integer
  /-- Two-valued; what is missing collapses to false. -/
  | boolean
  /-- Three-valued; what is missing stays unknown. -/
  | nullable
deriving DecidableEq, Repr

namespace Kind

def all : List Kind := [.double, .integer, .boolean, .nullable]

def name : Kind → String
  | .double => "Double"
  | .integer => "Integer"
  | .boolean => "Boolean"
  | .nullable => "BooleanNullable"

/-- Two-valued and three-valued booleans. -/
def isBoolean : Kind → Bool
  | .boolean | .nullable => true
  | .double | .integer => false

abbrev Carrier : Kind → Type
  | .double => Float
  | .integer => Int32
  | .boolean => Bool
  | .nullable => Option Bool

end Kind

/-! ## Conversions between doubles, integers and booleans -/

namespace Double

/-- True is 1 and false is 0. -/
def ofBool : Bool → Float
  | true => 1
  | false => 0

/-- Every number but zero is true; NaN is unknown. -/
def toBool? (x : Float) : Option Bool :=
  if x.isNaN then none else some (x != 0)

def ofInteger (n : Int32) : Float :=
  Float.ofInt n.toInt

/-- Truncates toward zero and clamps to the range of integers; NaN gives 0. -/
def truncate (x : Float) : Int32 :=
  if x < 0 then
    Int32.ofInt (-(min (-x).toUInt64.toNat 2147483648 : Nat))
  else
    Int32.ofNat (min x.toUInt64.toNat 2147483647)

end Double

/-! ## Coercions -/

namespace Kind

/-- Booleans map to 1 and 0, unknown to NaN. -/
def toDouble : (k : Kind) → k.Carrier → Float
  | .double, x => x
  | .integer, n => Double.ofInteger n
  | .boolean, b => Double.ofBool b
  | .nullable, some b => Double.ofBool b
  | .nullable, none => Double.nan

/-- Doubles truncate; true is 1; NaN, false and unknown are 0. -/
def toInteger : (k : Kind) → k.Carrier → Int32
  | .double, x => Double.truncate x
  | .integer, n => n
  | .boolean, b => if b then 1 else 0
  | .nullable, b => if b.getD false then 1 else 0

/-- NaN, zero and unknown are false. -/
def toBoolean : (k : Kind) → k.Carrier → Bool
  | .double, x => (Double.toBool? x).getD false
  | .integer, n => n != 0
  | .boolean, b => b
  | .nullable, b => b.getD false

/-- NaN is unknown; otherwise zero is false and every other number true. -/
def toNullable : (k : Kind) → k.Carrier → Option Bool
  | .double, x => Double.toBool? x
  | .integer, n => some (n != 0)
  | .boolean, b => some b
  | .nullable, b => b

def convert (source : Kind) : (target : Kind) → source.Carrier → target.Carrier
  | .double => source.toDouble
  | .integer => source.toInteger
  | .boolean => source.toBoolean
  | .nullable => source.toNullable

@[simp] theorem convert_self (k : Kind) (x : k.Carrier) : k.convert k x = x := by
  cases k with
  | nullable => cases x <;> rfl
  | _ => rfl

end Kind

structure Value where
  kind : Kind
  content : kind.Carrier

end Lookback
