-- SUMMARY: Expressions: literals, series, calls and user-defined nodes, and how calls are checked and built.
import Lookback.Compiled
import Lookback.Function
import Lookback.Literal
import Lookback.Series

/-!
# Expressions

An expression is a tree of literals, series, calls of functions on argument
expressions, and user-defined nodes around an inner expression. A call is built
by `Function.call`, which checks the number of arguments and, where a function
needs a comparison to take apart, the shape of that argument.
-/

namespace Lookback

/-- What a user-defined node adds to the expression it wraps. -/
structure CustomNode where
  label : String
  /-- The kind it declares, if that is not the kind of the inner expression. -/
  kind? : Option Kind
  /-- Whether it declares its value to depend on the key, if it does not leave
      that to the inner expression. -/
  keyDependent? : Option Bool
  /-- Whether it shows the call it wraps, if the inner expression is one. -/
  exposesCall : Bool
  /-- Its evaluator under a key model, from the outcome of compiling the inner
      expression. -/
  lower : (M : KeyModel) → Except EvalError (Compiled M.Key) → Except EvalError (Compiled M.Key)

inductive Expr where
  | literal (value : Literal)
  | series (series : Series)
  | call (function : Function) (args : List Expr)
  | custom (node : CustomNode) (inner : Expr)

namespace Expr

/-- The kind of the values of an expression, as it declares it. -/
def kind : Expr → Kind
  | .literal value => value.kind
  | .series _ => .double
  | .call function _ => function.result
  | .custom node inner => node.kind?.getD inner.kind

/-- The call an expression shows: its function and its arguments. -/
def asCall? : Expr → Option (Function × List Expr)
  | .literal _ => none
  | .series _ => none
  | .call function args => some (function, args)
  | .custom node inner => if node.exposesCall then inner.asCall? else none

mutual

/-- Whether the value may differ between keys. -/
def isKeyDependent : Expr → Bool
  | .literal _ => false
  | .series _ => true
  | .call function args => !(function.isElementwise && allConstant args)
  | .custom node inner => node.keyDependent?.getD inner.isKeyDependent

def allConstant : List Expr → Bool
  | [] => true
  | e :: es => !e.isKeyDependent && allConstant es

end

def isConstant (e : Expr) : Bool := !e.isKeyDependent

mutual

/-- Number of nodes reached through calls that are shown; a shared expression
    counts once per use. -/
def nodeCount : Expr → Nat
  | .literal _ => 1
  | .series _ => 1
  | .call _ args => 1 + nodeCounts args
  | .custom node inner => if node.exposesCall then inner.nodeCount else 1

def nodeCounts : List Expr → Nat
  | [] => 0
  | e :: es => e.nodeCount + nodeCounts es

end

mutual

def callCount : Expr → Nat
  | .literal _ => 0
  | .series _ => 0
  | .call _ args => 1 + callCounts args
  | .custom node inner => if node.exposesCall then inner.callCount else 0

def callCounts : List Expr → Nat
  | [] => 0
  | e :: es => e.callCount + callCounts es

end

/-! ### Counting with a stack -/

def args (e : Expr) : List Expr :=
  match e.asCall? with
  | none => []
  | some (_, args) => args

theorem nodeCount_eq : (e : Expr) → e.nodeCount = 1 + nodeCounts e.args
  | .literal _ => rfl
  | .series _ => rfl
  | .call _ _ => by rw [nodeCount]; rfl
  | .custom node inner => by
    simp only [nodeCount, args, asCall?]
    split
    · exact nodeCount_eq inner
    · rfl

theorem nodeCounts_append (es rest : List Expr) :
    nodeCounts (es ++ rest) = nodeCounts es + nodeCounts rest := by
  induction es with
  | nil => rw [List.nil_append, nodeCounts, Nat.zero_add]
  | cons e es ih => rw [List.cons_append, nodeCounts, nodeCounts, ih, Nat.add_assoc]

theorem nodeCounts_reverse (es : List Expr) : nodeCounts es.reverse = nodeCounts es := by
  induction es with
  | nil => rfl
  | cons e es ih =>
    rw [List.reverse_cons, nodeCounts_append, ih, nodeCounts, nodeCounts, nodeCounts]
    omega

/-- Counts the nodes and calls of the expressions on a stack, beside those counted so
    far. The last argument of a call comes to lie on top. -/
def countStack (nodes calls : Nat) : List Expr → Nat × Nat
  | [] => (nodes, calls)
  | e :: rest =>
    countStack (nodes + 1) (if e.asCall?.isSome then calls + 1 else calls) (e.args.reverse ++ rest)
termination_by stack => nodeCounts stack
decreasing_by
  have hargs := nodeCount_eq e
  rw [nodeCounts_append, nodeCounts_reverse, nodeCounts]
  omega

def counts (e : Expr) : Nat × Nat := countStack 0 0 [e]

end Expr

/-! ## Comparisons -/

/-- Reads a node as a comparison, given its kind and the call it shows. The call
    must be a comparison of two operands, and the node of a boolean kind. -/
def Comparison.ofCall {α : Type} (kind : Kind) (call? : Option (Function × List α)) :
    Except ShapeError (Comparison α) :=
  match call? with
  | none => .error .notACall
  | some (function, args) =>
    match function.relation? with
    | none => .error (.notAComparison function.name)
    | some relation =>
      match args with
      | [left, right] =>
        if kind.isBoolean then
          .ok ⟨relation, left, right⟩
        else
          .error (.wrongResultKind function.name kind)
      | _ => .error (.nonBinaryArity function.name args.length)

def Expr.asComparison (e : Expr) : Except ShapeError (Comparison Expr) :=
  Comparison.ofCall e.kind e.asCall?

/-! ## Calls -/

namespace Function

/-- Whether the result on these arguments is the same at every key. -/
def isNatural (f : Function) (args : List Expr) : Bool :=
  f.isElementwise && Expr.allConstant args

/-- Checks the number of arguments and the shape of the argument that has to be a
    comparison. -/
def validate (f : Function) (args : List Expr) : Except BuildError Unit := do
  f.arity.check f.name args.length
  match f.comparisonArgument? with
  | none => return ()
  | some index =>
    match args[index]? with
    | none => return ()
    | some arg =>
      match arg.asComparison with
      | .ok _ => return ()
      | .error source => throw (.invalidArgumentShape f.name index source)

/-- The call of the function on arguments that pass its checks. -/
def call (f : Function) (args : List Expr) : Except BuildError Expr := do
  f.validate args
  return .call f args

end Function

/-! ## Probes -/

/-- A user-defined node that serves the listed key models, or all of them, and
    records each evaluation as a visit before it asks the inner expression. -/
def CustomNode.probe (label : String) (kind? : Option Kind) (keyDependent? : Option Bool)
    (exposesCall : Bool) (models? : Option (List KeyModel)) : CustomNode where
  label := label
  kind? := kind?
  keyDependent? := keyDependent?
  exposesCall := exposesCall
  lower M inner :=
    if models?.all (·.contains M) then do
      let compiled ← inner
      return ⟨compiled.kind, fun key => do
        Traced.visit ⟨label, key⟩
        compiled.evaluate key⟩
    else
      throw (.unsupported label M (.refused "custom node does not provide this model"))

end Lookback
