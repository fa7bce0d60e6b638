-- SUMMARY: Functions: operations ready to be called, historical ones bound to the context they step back through.
import Lookback.Operation

/-!
# Functions

A function is an operation that can be called. An elementwise operation is one
as it stands; a historical operation becomes one when it is bound to a context
of previous keys. Names are resolved to functions against the table.
-/

namespace Lookback

inductive Function where
  | element (op : ElementOp)
  | historical (op : HistoryOp) (keys : PreviousKeys)

namespace Function

def operation : Function → Operation
  | .element op => .element op
  | .historical op _ => .history op

/-- The context a historical function is bound to. -/
def previousKeys? : Function → Option PreviousKeys
  | .element _ => none
  | .historical _ keys => some keys

def row (f : Function) : Row := f.operation.row

def name (f : Function) : String := f.row.name

def result (f : Function) : Kind := f.row.result

def parameters (f : Function) : List Parameter := f.row.parameters

def arity (f : Function) : Arity := Arity.ofParameters f.parameters

def relation? (f : Function) : Option Relation := f.operation.relation?

/-- The argument that has to be a comparison call, if there is one. -/
def comparisonArgument? (f : Function) : Option Nat := f.operation.comparisonArgument?

/-- Whether a result over constant arguments is the same at every key. -/
def isElementwise (f : Function) : Bool := !f.operation.isHistorical

def parameter (f : Function) (index : Nat) : Except BuildError Parameter :=
  match f.parameters[index]? with
  | some p => .ok p
  | none => .error (.indexOutOfRange f.name index f.parameters.length)

/-- The number that stands for an omitted argument: the default of its parameter,
    or NaN. -/
def defaultArgument (f : Function) (index : Nat) : Float :=
  (f.parameters[index]?.bind Parameter.default?).getD Double.nan

/-- Whether results are worth storing as a series of their own. -/
def shouldPersist (f : Function) : Bool := f.isElementwise

def describe (f : Function) : String :=
  let keys := match f.previousKeys? with
    | some keys => "Some(" ++ keys.describe ++ ")"
    | none => "None"
  "Function \x7b name: \"" ++ f.name ++ "\", previous_keys: " ++ keys ++ " \x7d"

/-- The function with a given name, for a caller that may or may not have a
    context. There is none when a historical operation lacks its context. -/
def resolve (name : String) (keys : Option PreviousKeys) : Except BuildError (Option Function) :=
  match Operation.ofName? name with
  | none => .error (.unknownFunction name)
  | some (.element op) => .ok (some (.element op))
  | some (.history op) => .ok (keys.map (.historical op))

end Function

end Lookback
