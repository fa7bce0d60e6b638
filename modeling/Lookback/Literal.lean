-- SUMMARY: Literals: the constants of the expression language.
import Lookback.Value

/-!
# Literals

A literal is a double, an integer, a boolean or the unknown truth value. A
definite three-valued value has no literal of its own; as a literal it is the
two-valued boolean.
-/

namespace Lookback

inductive Literal where
  | double (x : Float)
  | integer (n : Int32)
  | boolean (b : Bool)
  /-- The unknown truth value. -/
  | null
deriving DecidableEq

namespace Literal

def value : Literal → Value
  | .double x => ⟨.double, x⟩
  | .integer n => ⟨.integer, n⟩
  | .boolean b => ⟨.boolean, b⟩
  | .null => ⟨.nullable, none⟩

def kind (l : Literal) : Kind := l.value.kind

def ofValue : Value → Literal
  | ⟨.double, x⟩ => .double x
  | ⟨.integer, n⟩ => .integer n
  | ⟨.boolean, b⟩ => .boolean b
  | ⟨.nullable, some b⟩ => .boolean b
  | ⟨.nullable, none⟩ => .null

@[simp] theorem ofValue_value (l : Literal) : ofValue l.value = l := by
  cases l <;> rfl

end Literal

end Lookback
