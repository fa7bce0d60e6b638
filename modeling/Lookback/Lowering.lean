-- SUMMARY: Compiling expressions: lowering a tree to an evaluator for one key model.
import Lookback.Evaluation.Element
import Lookback.Evaluation.History
import Lookback.Expr

/-!
# Lowering

An expression is lowered for one key model, from the leaves up. The outcome of a
node is its evaluator or the first error met, arguments being lowered from left
to right and the context of a historical function being asked for last.

A swept function takes its comparison argument apart and needs the evaluators of
the operands, not that of the comparison. So a lowered node also keeps the call
it shows, with the outcomes of that call's arguments, and every node is lowered
just once.
-/

namespace Lookback

/-- What lowering finds out about a node. -/
structure Lowered (K : Type) where
  kind : Kind
  /-- The call the node shows, with its lowered arguments. -/
  call? : Option (Function × List (Except EvalError (Compiled K)))
  /-- The evaluator of the node itself. -/
  compiled : Except EvalError (Compiled K)

namespace Function

/-- The arguments that have a parameter. -/
def usedArguments {α : Type} (f : Function) (args : List α) : List α :=
  if f.arity.isVarargs then args else args.take f.parameters.length

def history (f : Function) (keys : PreviousKeys) (M : KeyModel) :
    Except EvalError (M.Key → History M.Key) :=
  match keys.history? M with
  | some history => .ok history
  | none => .error (.unsupported f.name M .historyOfOtherModel)

/-- The operands of the comparison at an argument position. -/
def comparisonAt {K : Type} (f : Function) (args : List (Lowered K)) (index : Nat) :
    Except EvalError (Comparison (Except EvalError (Compiled K))) :=
  match args[index]? with
  | none => .error (.build (.invalidArity f.name f.arity.describe args.length))
  | some arg =>
    match Comparison.ofCall arg.kind arg.call? with
    | .ok comparison => .ok comparison
    | .error source => .error (.build (.invalidArgumentShape f.name index source))

/-- The evaluator of a call, from its lowered arguments. -/
def lower (M : KeyModel) (f : Function) (args : List (Lowered M.Key)) :
    Except EvalError (Compiled M.Key) :=
  match f with
  | .element op => do
    let given ← (f.usedArguments args).mapM Lowered.compiled
    return op.evaluator ⟨given, f.defaultArgument⟩
  | .historical (.window op) keys => do
    if M = .keyless then
      throw (.unsupported f.name M .historyNeedsKey)
    let given ← (f.usedArguments args).mapM Lowered.compiled
    let history ← f.history keys M
    return op.evaluator history ⟨given, f.defaultArgument⟩
  | .historical (.swept side quantifier) keys => do
    if M = .keyless then
      throw (.unsupported f.name M .historyNeedsKey)
    let given ← (args.take 1).mapM Lowered.compiled
    let comparison ← f.comparisonAt args 1
    let left ← comparison.left
    let right ← comparison.right
    let history ← f.history keys M
    return HistoryOp.sweptEvaluator history side quantifier
      (Operands.double ⟨given, f.defaultArgument⟩ 0)
      ⟨comparison.relation, left.toDouble, right.toDouble⟩

end Function

namespace Expr

mutual

/-- Lowers an expression for a key model. -/
def lowered (M : KeyModel) : Expr → Lowered M.Key
  | .literal l => ⟨l.kind, none, .ok (.constant l.value)⟩
  | .series s => ⟨.double, none, s.compile M⟩
  | .call function args =>
    let loweredArgs := loweredAll M args
    ⟨function.result, some (function, loweredArgs.map Lowered.compiled),
      function.lower M loweredArgs⟩
  | .custom node inner =>
    let loweredInner := inner.lowered M
    ⟨node.kind?.getD loweredInner.kind, if node.exposesCall then loweredInner.call? else none,
      node.lower M loweredInner.compiled⟩

def loweredAll (M : KeyModel) : List Expr → List (Lowered M.Key)
  | [] => []
  | e :: es => e.lowered M :: loweredAll M es

end

/-- The evaluator of an expression in its native kind. -/
def compile (M : KeyModel) (e : Expr) : Except EvalError (Compiled M.Key) :=
  (e.lowered M).compiled

def compileTo (M : KeyModel) (kind : Kind) (e : Expr) : Except EvalError (Compiled M.Key) := do
  return (← e.compile M).toKind kind

def evalDouble (M : KeyModel) (e : Expr) (key : M.Key) :
    Except EvalError (Traced (Visit M.Key) Float) := do
  return (← e.compile M).toDouble key

def evalNullable (M : KeyModel) (e : Expr) (key : M.Key) :
    Except EvalError (Traced (Visit M.Key) (Option Bool)) := do
  return (← e.compile M).toNullable key

end Expr

namespace Function

/-- The evaluator of a call on arguments that need not pass the checks of `call`. -/
def compile (M : KeyModel) (f : Function) (args : List Expr) :
    Except EvalError (Compiled M.Key) :=
  f.lower M (Expr.loweredAll M args)

end Function

end Lookback
