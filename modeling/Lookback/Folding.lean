-- SUMMARY: Constant folding: calls over constants become the literals they evaluate to.
import Lookback.Lowering

/-!
# Constant folding

Folding works from the arguments up. A call whose arguments are all constant and
whose function does not look back is replaced by the literal it evaluates to,
without a key, in the kind it declares. A call with a changed argument is built
anew.

The comparison that a swept function takes apart must stay a call. At that
argument only the operands are folded.
-/

namespace Lookback

structure Folded where
  expr : Expr
  /-- Number of calls that became literals. -/
  folds : Nat
  /-- Whether anything in the expression was replaced. -/
  changed : Bool

structure FoldedArgs where
  args : List Expr
  folds : Nat
  changed : Bool

/-- Folding may fail to rebuild a call, and evaluating constants makes visits. -/
abbrev Folding := ExceptT EvalError (Traced (Visit Unit))

namespace Expr

/-- The literal an expression evaluates to without a key, in its own kind. -/
def constantValue (e : Expr) : Except EvalError (Traced (Visit Unit) Literal) := do
  let compiled ← e.compileTo .keyless e.kind
  return Literal.ofValue <$> compiled.valueAt ()

def kept (e : Expr) : Folded := ⟨e, 0, false⟩

/-- Replaces an expression whose arguments have been folded by its literal, if it
    shows a call that is the same at every key. One that cannot be evaluated
    stays. -/
def settle (r : Folded) : Folding Folded :=
  match r.expr.asCall? with
  | none => return r
  | some (function, args) =>
    if function.isNatural args then
      match r.expr.constantValue with
      | .error _ => return r
      | .ok evaluated => do
        let l ← ExceptT.lift evaluated
        return ⟨.literal l, r.folds + 1, true⟩
    else
      return r

mutual

/-- Folds the arguments of the call an expression shows, and builds the call anew
    if one of them changed. -/
def foldWithin : Expr → Folding Folded
  | .literal l => return kept (.literal l)
  | .series s => return kept (.series s)
  | .call function args => do
    let r ← foldArgs function.comparisonArgument? 0 args
    if r.changed then
      match function.call r.args with
      | .ok e => return ⟨e, r.folds, true⟩
      | .error error => throw (.build error)
    else
      return ⟨.call function args, r.folds, false⟩
  | .custom node inner => do
    if node.exposesCall then
      let r ← foldWithin inner
      if r.changed then return r else return ⟨.custom node inner, r.folds, false⟩
    else
      return kept (.custom node inner)

/-- Folds arguments in order, starting at a position. At the pinned position only
    what is below the argument is folded. -/
def foldArgs (pinned : Option Nat) (position : Nat) : List Expr → Folding FoldedArgs
  | [] => return ⟨[], 0, false⟩
  | e :: es => do
    let within ← foldWithin e
    let r ← if pinned = some position then pure within else settle within
    let rs ← foldArgs pinned (position + 1) es
    return ⟨r.expr :: rs.args, r.folds + rs.folds, r.changed || rs.changed⟩

end

/-- Folds an expression, its root included. -/
def fold (e : Expr) : Folding Folded := do
  settle (← foldWithin e)

/-- Folds an expression: the outcome together with the visits made. -/
def foldConstants (e : Expr) : Traced (Visit Unit) (Except EvalError Folded) :=
  e.fold.run

end Expr

end Lookback
