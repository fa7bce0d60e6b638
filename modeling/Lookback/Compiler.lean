-- SUMMARY: Compiling under options, with a manifest of what was done, and walking the keys of a source.
import Lookback.Folding
import Lookback.KeySource

/-!
# Compiling and running

A root is compiled once, in a requested kind, after folding its constants if the
options say so. A run then evaluates it at every key of a source. The manifest
counts the nodes and calls of the expression that was lowered.
-/

namespace Lookback

/-- What one compilation did. -/
structure Manifest where
  model : KeyModel
  kind : Kind
  /-- Nodes of the expression that was lowered. -/
  nodes : Nat
  /-- Calls among them. -/
  calls : Nat
  /-- Calls that became literals before lowering. -/
  folds : Nat
deriving DecidableEq, Repr

/-- One line of text, with the time taken in microseconds. -/
def Manifest.summary (m : Manifest) (micros : Nat) : String :=
  "key_model=" ++ m.model.name ++ " kind=" ++ m.kind.name ++ " nodes=" ++ toString m.nodes
    ++ " calls=" ++ toString m.calls ++ " folded=" ++ toString m.folds
    ++ " compile_us=" ++ toString micros

structure Compilation (K : Type) where
  compiled : Compiled K
  manifest : Option Manifest
  /-- Visits made while folding. -/
  visits : List (Visit Unit)

structure Run (K α : Type) where
  values : List α
  manifest : Option Manifest
  foldVisits : List (Visit Unit)
  /-- Visits made by the walk. -/
  visits : List (Visit K)

structure CompileOptions where
  /-- Replace calls over constants by literals before lowering. -/
  foldConstants : Bool := true
  collectManifest : Bool := true
deriving DecidableEq, Repr

namespace CompileOptions

/-- The expression to lower, the number of folds, and the visits they made. -/
def prepared (options : CompileOptions) (root : Expr) :
    Except EvalError (Expr × Nat × List (Visit Unit)) :=
  if options.foldConstants then
    let outcome := root.foldConstants
    outcome.value.map fun folded => (folded.expr, folded.folds, outcome.visits)
  else
    .ok (root, 0, [])

def compile (options : CompileOptions) (M : KeyModel) (kind : Kind) (root : Expr) :
    Except EvalError (Compilation M.Key) := do
  let (lowered, folds, visits) ← options.prepared root
  let compiled ← lowered.compileTo M kind
  let manifest : Option Manifest :=
    if options.collectManifest then
      let (nodes, calls) := lowered.counts
      some ⟨M, kind, nodes, calls, folds⟩
    else
      none
  return ⟨compiled, manifest, visits⟩

/-- Compiles a root in a kind and evaluates it at every key of a source. -/
def runAs (options : CompileOptions) (M : KeyModel) (kind : Kind) (root : Expr)
    (source : KeySource M.Key) : Except EvalError (Run M.Key kind.Carrier) := do
  let compilation ← options.compile M kind root
  let walk := source.walk (compilation.compiled.coerced kind)
  return ⟨walk.value, compilation.manifest, compilation.visits, walk.visits⟩

/-- Doubles at every key of a source. -/
def run (options : CompileOptions) (M : KeyModel) (root : Expr) (source : KeySource M.Key) :
    Except EvalError (Run M.Key Float) :=
  options.runAs M .double root source

def runNullable (options : CompileOptions) (M : KeyModel) (root : Expr)
    (source : KeySource M.Key) : Except EvalError (Run M.Key (Option Bool)) :=
  options.runAs M .nullable root source

end CompileOptions

end Lookback
