-- SUMMARY: The operations of the expression language and the table that describes them.
import Lookback.Comparison
import Lookback.Estimator.Statistic
import Lookback.Parameter
import Lookback.Scan

/-!
# Operations

There are two sorts of operations. The value of an elementwise operation
depends on its arguments at the current key only. A historical operation looks
back through previous keys. Every operation has a row that names it, describes
it and lists its parameters; `Operation.all` is the table of all rows.
-/

namespace Lookback

/-- What the table says about an operation. -/
structure Row where
  /-- Identifier in expressions. -/
  name : String
  displayName : String
  description : String
  parameters : List Parameter
  result : Kind

/-! ## Elementwise operations -/

inductive Arithmetic where
  | add
  | sub
  | mul
  | div
deriving DecidableEq, Repr

/-- The result on two doubles; dividing by zero gives NaN rather than an infinity. -/
def Arithmetic.apply : Arithmetic → Float → Float → Float
  | .add, a, b => a + b
  | .sub, a, b => a - b
  | .mul, a, b => a * b
  | .div, a, b => if b == 0 then Double.nan else a / b

/-- Which of several values is selected. -/
inductive Extremum where
  | largest
  | smallest
deriving DecidableEq, Repr

/-- The selected one of two values; a missing one is never selected over a number. -/
def Extremum.select : Extremum → Float → Float → Float
  | .largest => Scalar.larger
  | .smallest => Scalar.smaller

/-- Operations on the values at the current key. -/
inductive ElementOp where
  | arithmetic (op : Arithmetic)
  | negate
  | absolute
  | choose
  | extremum (which : Extremum)
  | relation (relation : Relation)
  | ordering
  | not
  | isTrue
  | isFalse
  | and
  | or
  | isNaN
deriving DecidableEq, Repr

/-! ## Historical operations -/

/-- Whether a condition has to hold throughout a window or somewhere in it. -/
inductive Quantifier where
  | throughout
  | somewhere
deriving DecidableEq, Repr

inductive Side where
  | left
  | right
deriving DecidableEq, Repr

/-- Which match of a window is searched for. -/
inductive Match where
  | oldest
  | newest
deriving DecidableEq, Repr

/-- Operations that evaluate their arguments at the keys of a window. -/
inductive WindowOp where
  | once
  | quantified (quantifier : Quantifier)
  | indexOf (which : Match)
  | chained (mode : Scan.ChainMode)
  | previous
  | statistic (statistic : Statistic)
  | percentile
deriving DecidableEq, Repr

/-- Operations that look back through previous keys. -/
inductive HistoryOp where
  | window (op : WindowOp)
  /-- Takes a comparison apart: one side ranges over the window, the other is held
      at the current key. -/
  | swept (side : Side) (quantifier : Quantifier)
deriving DecidableEq, Repr

/-! ## Rows -/

namespace Row

private def x := Parameter.required "x" .double "operand"
private def left := Parameter.required "left" .double "left operand"
private def right := Parameter.required "right" .double "right operand"
private def rest := Parameter.varargs "rest" .double "further operands"
private def truth := Parameter.required "x" .nullable "operand"
private def leftTruth := Parameter.required "left" .nullable "left operand"
private def rightTruth := Parameter.required "right" .nullable "right operand"
private def condition := Parameter.required "condition" .boolean "tested at each key"
private def comparison :=
  Parameter.required "condition" .boolean "binary comparison, one side swept"
private def count := Parameter.required "count" .double "window length"
private def lookback := Parameter.required "lookback" .double "keys to scan"
private def steps := Parameter.optional "steps" .double 1 "chained scans"
private def value := Parameter.required "value" .double "sampled value"
private def offset := Parameter.optional "offset" .double 1 "keys back"
private def quantile := Parameter.required "quantile" .double "in [0, 1], clamped"

def unary (name displayName description : String) (result : Kind) : Row :=
  ⟨name, displayName, description, [x], result⟩

def binary (name displayName description : String) (result : Kind) : Row :=
  ⟨name, displayName, description, [left, right], result⟩

def variadic (name displayName description : String) : Row :=
  ⟨name, displayName, description, [x, rest], .double⟩

def logicUnary (name displayName description : String) (result : Kind) : Row :=
  ⟨name, displayName, description, [truth], result⟩

def logicBinary (name displayName description : String) : Row :=
  ⟨name, displayName, description, [leftTruth, rightTruth], .nullable⟩

def relation (name displayName : String) : Row :=
  binary name displayName "nullable comparison; unknown when either side is NaN" .nullable

def choice (name displayName description : String) : Row :=
  ⟨name, displayName, description,
    [ Parameter.required "condition" .boolean "branch selector",
      Parameter.required "then" .double "value when true",
      Parameter.required "else" .double "value otherwise" ],
    .double⟩

/-- A row that tests a condition at the current key and the one before. -/
def edge (name displayName description : String) : Row :=
  ⟨name, displayName, description, [condition], .boolean⟩

def quantifier (name displayName description : String) : Row :=
  ⟨name, displayName, description, [count, condition], .boolean⟩

/-- A row that sweeps one side of a comparison over a window. -/
def swept (name displayName description : String) : Row :=
  ⟨name, displayName, description, [count, comparison], .boolean⟩

def index (name displayName description : String) : Row :=
  ⟨name, displayName, description, [condition, lookback], .double⟩

def chained (name displayName description : String) : Row :=
  ⟨name, displayName, description, [condition, lookback, steps], .double⟩

/-- A row that reads a value some keys back. -/
def lag (name displayName description : String) : Row :=
  ⟨name, displayName, description, [value, offset], .double⟩

def window (name displayName description : String) : Row :=
  ⟨name, displayName, description, [count, value], .double⟩

/-- A row that reads a quantile of a window. -/
def ranked (name displayName description : String) : Row :=
  ⟨name, displayName, description, [count, value, quantile], .double⟩

end Row

def ElementOp.row : ElementOp → Row
  | .arithmetic .add => .binary "add" "Add" "left + right" .double
  | .arithmetic .sub => .binary "sub" "Subtract" "left - right" .double
  | .arithmetic .mul => .binary "mul" "Multiply" "left * right" .double
  | .arithmetic .div => .binary "div" "Divide" "left / right; NaN when right is zero" .double
  | .negate => .unary "neg" "Negate" "-x" .double
  | .absolute => .unary "abs" "Absolute" "|x|" .double
  | .choose => .choice "if" "If" "then when condition holds, else otherwise"
  | .extremum .largest => .variadic "max" "Maximum" "largest non-NaN operand"
  | .extremum .smallest => .variadic "min" "Minimum" "smallest non-NaN operand"
  | .relation .greater => .relation "gt" "Greater Than"
  | .relation .greaterEq => .relation "ge" "Greater Or Equal"
  | .relation .less => .relation "lt" "Less Than"
  | .relation .lessEq => .relation "le" "Less Or Equal"
  | .relation .equal => .relation "eq" "Equal"
  | .relation .notEqual => .relation "ne" "Not Equal"
  | .ordering => .binary "compare" "Compare" "-1, 0 or 1; NaN orders as zero" .integer
  | .not => .logicUnary "not" "Not" "three-valued negation" .nullable
  | .isTrue => .logicUnary "isTrue" "Is True" "true only for a definite true" .boolean
  | .isFalse => .logicUnary "isFalse" "Is False" "true only for a definite false" .boolean
  | .and => .logicBinary "and" "And" "three-valued conjunction"
  | .or => .logicBinary "or" "Or" "three-valued disjunction"
  | .isNaN => .unary "isNaN" "Is NaN" "whether x is missing" .boolean

def WindowOp.row : WindowOp → Row
  | .once => .edge "once" "Once" "condition holds now but did not one key back"
  | .quantified .throughout =>
    .quantifier "stable" "Stable" "condition holds at every key of the window"
  | .quantified .somewhere =>
    .quantifier "occurs" "Occurs" "condition holds at some key of the window"
  | .indexOf .oldest =>
    .index "firstIndexOf" "First Index Of" "oldest offset in the lookback where condition holds"
  | .indexOf .newest =>
    .index "lastIndexOf" "Last Index Of" "newest offset in the lookback where condition holds"
  | .chained .strict =>
    .chained "previousIndexOf" "Previous Index Of"
      "offset of the steps-th chained match; NaN if any step misses"
  | .chained .furthest =>
    .chained "latestIndexOf" "Latest Index Of" "offset of the furthest chained match found"
  | .previous => .lag "previous" "Previous" "value offset keys back"
  | .statistic .count => .window "count" "Count" "non-NaN samples in the window"
  | .statistic .sum => .window "sum" "Sum" "sum of the window"
  | .statistic .product => .window "product" "Product" "product of the window"
  | .statistic .average => .window "avg" "Average" "mean of the window"
  | .statistic .variance => .window "variance" "Variance" "population variance of the window"
  | .statistic .sampleVariance =>
    .window "sampleVariance" "Sample Variance" "sample variance of the window"
  | .statistic .deviation =>
    .window "stdDev" "Standard Deviation" "population standard deviation of the window"
  | .statistic .sampleDeviation =>
    .window "sampleStdDev" "Sample Standard Deviation" "sample standard deviation of the window"
  | .statistic .median => .window "median" "Median" "median of the window"
  | .percentile => .ranked "percentile" "Percentile" "interpolated quantile of the window"

def HistoryOp.row : HistoryOp → Row
  | .window op => op.row
  | .swept .left .throughout =>
    .swept "stableLeft" "Stable Left"
      "left side swept, right side held at the current key; all must hold"
  | .swept .right .throughout =>
    .swept "stableRight" "Stable Right"
      "right side swept, left side held at the current key; all must hold"
  | .swept .left .somewhere =>
    .swept "occursLeft" "Occurs Left"
      "left side swept, right side held at the current key; any may hold"
  | .swept .right .somewhere =>
    .swept "occursRight" "Occurs Right"
      "right side swept, left side held at the current key; any may hold"

/-! ## The table -/

/-- All elementwise operations, in the order of the table. -/
def ElementOp.all : List ElementOp :=
  [ .arithmetic .add, .arithmetic .sub, .arithmetic .mul, .arithmetic .div,
    .negate, .absolute, .choose, .extremum .largest, .extremum .smallest,
    .relation .greater, .relation .greaterEq, .relation .less, .relation .lessEq,
    .relation .equal, .relation .notEqual, .ordering,
    .not, .isTrue, .isFalse, .and, .or, .isNaN ]

/-- All historical operations, in the order of the table. -/
def HistoryOp.all : List HistoryOp :=
  [ .window .once, .window (.quantified .throughout), .window (.quantified .somewhere),
    .swept .left .throughout, .swept .right .throughout,
    .swept .left .somewhere, .swept .right .somewhere,
    .window (.indexOf .oldest), .window (.indexOf .newest),
    .window (.chained .strict), .window (.chained .furthest), .window .previous,
    .window (.statistic .count), .window (.statistic .sum), .window (.statistic .product),
    .window (.statistic .average), .window (.statistic .variance),
    .window (.statistic .sampleVariance), .window (.statistic .deviation),
    .window (.statistic .sampleDeviation), .window (.statistic .median), .window .percentile ]

inductive Operation where
  | element (op : ElementOp)
  | history (op : HistoryOp)
deriving DecidableEq, Repr

namespace Operation

def row : Operation → Row
  | .element op => op.row
  | .history op => op.row

def name (op : Operation) : String := op.row.name

def isHistorical : Operation → Bool
  | .element _ => false
  | .history _ => true

def relation? : Operation → Option Relation
  | .element (.relation r) => some r
  | _ => none

/-- The argument that has to be a comparison call, if there is one. -/
def comparisonArgument? : Operation → Option Nat
  | .history (.swept _ _) => some 1
  | _ => none

/-- The key models the operation has values under: all of them, or for
    historical operations those that have keys. -/
def serves (op : Operation) (M : KeyModel) : Bool :=
  !op.isHistorical || M != .keyless

def describeModels (op : Operation) : String :=
  "Kernels \x7b no_key: " ++ toString (op.serves .keyless) ++ ", int: " ++ toString (op.serves .bar)
    ++ ", date: " ++ toString (op.serves .date) ++ " \x7d"

/-- The table: every operation once. -/
def all : List Operation :=
  ElementOp.all.map .element ++ HistoryOp.all.map .history

def ofName? (name : String) : Option Operation :=
  all.find? fun op => op.name == name

end Operation

end Lookback
