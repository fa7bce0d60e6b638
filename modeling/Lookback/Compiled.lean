-- SUMMARY: Evaluators: expressions lowered to functions of the key, in their native kind.
import Lookback.Traced
import Lookback.Value

/-!
# Compiled expressions

Compiling an expression for a key model gives an evaluator, a function from keys
to traced values, together with the kind of the values it produces. Asking for
another kind composes the evaluator with a coercion; it evaluates nothing twice
and leaves the visits alone.
-/

namespace Lookback

/-- One evaluation of a user-defined node: its label and the key it was asked at. -/
structure Visit (K : Type) where
  label : String
  key : K
deriving DecidableEq, Repr

/-- A function of the key, with the visits it makes. -/
abbrev Evaluator (K α : Type) := K → Traced (Visit K) α

/-- An evaluator with the kind of the values it produces. -/
structure Compiled (K : Type) where
  kind : Kind
  evaluate : Evaluator K kind.Carrier

namespace Compiled

variable {K : Type}

def constant (v : Value) : Compiled K :=
  ⟨v.kind, fun _ => pure v.content⟩

def double (f : Evaluator K Float) : Compiled K := ⟨.double, f⟩

def integer (f : Evaluator K Int32) : Compiled K := ⟨.integer, f⟩

def boolean (f : Evaluator K Bool) : Compiled K := ⟨.boolean, f⟩

def nullable (f : Evaluator K (Option Bool)) : Compiled K := ⟨.nullable, f⟩

def coerced (c : Compiled K) (target : Kind) : Evaluator K target.Carrier := fun key =>
  c.kind.convert target <$> c.evaluate key

theorem coerced_kind (c : Compiled K) : c.coerced c.kind = c.evaluate := by
  funext key
  exact Traced.ext (by simp [coerced]) (by simp [coerced])

def toKind (c : Compiled K) (target : Kind) : Compiled K :=
  ⟨target, c.coerced target⟩

theorem toKind_kind (c : Compiled K) : c.toKind c.kind = c := by
  rw [toKind, coerced_kind]

/-- Doubles: booleans map to 1 and 0, unknown to NaN. -/
def toDouble (c : Compiled K) : Evaluator K Float := c.coerced .double

/-- Integers: doubles truncate, NaN gives 0. -/
def toInteger (c : Compiled K) : Evaluator K Int32 := c.coerced .integer

/-- Two-valued booleans: NaN, zero and unknown are false. -/
def toBoolean (c : Compiled K) : Evaluator K Bool := c.coerced .boolean

/-- Three-valued booleans: NaN is unknown. -/
def toNullable (c : Compiled K) : Evaluator K (Option Bool) := c.coerced .nullable

/-- The value at a key, with its kind. -/
def valueAt (c : Compiled K) (key : K) : Traced (Visit K) Value :=
  Value.mk c.kind <$> c.evaluate key

def describe (c : Compiled K) : String :=
  "Compiled::" ++ match c.kind with
    | .double => "Double"
    | .integer => "Integer"
    | .boolean => "Boolean"
    | .nullable => "Nullable"

end Compiled

end Lookback
