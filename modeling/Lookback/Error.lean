-- SUMMARY: What can go wrong when calls are built and expressions compiled, with the message for each cause.
import Lookback.KeyModel
import Lookback.Value

/-!
# Errors

Three families: a node that should be a comparison is not one (`ShapeError`), a
call cannot be built (`BuildError`), an expression cannot be evaluated under a
key model (`EvalError`).
-/

namespace Lookback

/-- Why a node cannot be read as a comparison of two operands. -/
inductive ShapeError where
  | notACall
  | notAComparison (name : String)
  | nonBinaryArity (name : String) (arity : Nat)
  | wrongResultKind (name : String) (kind : Kind)
deriving DecidableEq, Repr

def ShapeError.message : ShapeError → String
  | .notACall => "node is not a function call"
  | .notAComparison name => "`" ++ name ++ "` is not a comparison operator"
  | .nonBinaryArity name arity =>
    "comparison `" ++ name ++ "` has " ++ toString arity ++ " operands, expected 2"
  | .wrongResultKind name kind =>
    "comparison `" ++ name ++ "` yields " ++ kind.name ++ ", expected a boolean kind"

/-- Why a call cannot be built. -/
inductive BuildError where
  | unknownFunction (name : String)
  | invalidArity (name : String) (expected : String) (actual : Nat)
  | invalidArgumentShape (function : String) (index : Nat) (source : ShapeError)
  | indexOutOfRange (function : String) (index : Nat) (count : Nat)
deriving DecidableEq, Repr

namespace BuildError

def message : BuildError → String
  | .unknownFunction name => "unknown function `" ++ name ++ "`"
  | .invalidArity name expected actual =>
    "function `" ++ name ++ "` requires " ++ expected ++ " args, got " ++ toString actual
  | .invalidArgumentShape function index source =>
    "argument " ++ toString index ++ " of `" ++ function ++ "` must be a binary comparison: "
      ++ source.message
  | .indexOutOfRange function index count =>
    "parameter index " ++ toString index ++ " out of range for `" ++ function ++ "` with "
      ++ toString count ++ " parameters"

/-- The shape error a build error rests on. -/
def source? : BuildError → Option ShapeError
  | .invalidArgumentShape _ _ source => some source
  | _ => none

end BuildError

/-- Why a node cannot be evaluated under a key model. -/
inductive Obstacle where
  | seriesNeedsKey
  | seriesUndated
  | historyNeedsKey
  | historyOfOtherModel
  /-- A user-defined node refuses, in its own words. -/
  | refused (reason : String)
deriving DecidableEq, Repr

def Obstacle.message : Obstacle → String
  | .seriesNeedsKey => "use time or int key instead"
  | .seriesUndated => "series has no calendar; use int key instead"
  | .historyNeedsKey => "historical functions need an int or date key"
  | .historyOfOtherModel => "function is not bound to previous keys of this model"
  | .refused reason => reason

/-- Why an expression cannot be evaluated. -/
inductive EvalError where
  | unsupported (node : String) (model : KeyModel) (obstacle : Obstacle)
  /-- A call in the expression is ill-formed. -/
  | build (error : BuildError)
deriving DecidableEq, Repr

def EvalError.message : EvalError → String
  | .unsupported node model obstacle =>
    "`" ++ node ++ "` cannot be evaluated with " ++ model.name ++ ": " ++ obstacle.message
  | .build error => error.message

end Lookback
