-- SUMMARY: Parameter descriptors of functions, the lists of them that are well-formed, and the argument counts they admit.
import Lookback.Error

/-!
# Parameters

A function describes its parameters: required ones first, then optional ones,
then possibly one that takes any number of further arguments. The number of
arguments a call may have follows from the list.
-/

namespace Lookback

/-- Whether an argument has to be given. -/
inductive Parameter.Mode where
  | required
  /-- May be omitted; the default, if there is one, takes its place. -/
  | optional (default? : Option Float)
  /-- Stands for any number of further arguments. -/
  | varargs
deriving DecidableEq

structure Parameter where
  name : String
  description : String
  kind : Kind
  mode : Parameter.Mode

namespace Parameter

def required (name : String) (kind : Kind) (description : String) : Parameter :=
  ⟨name, description, kind, .required⟩

def optional (name : String) (kind : Kind) (default : Float) (description : String) : Parameter :=
  ⟨name, description, kind, .optional (some default)⟩

def varargs (name : String) (kind : Kind) (description : String) : Parameter :=
  ⟨name, description, kind, .varargs⟩

def isRequired (p : Parameter) : Bool :=
  match p.mode with
  | .required => true
  | .optional _ | .varargs => false

def isVarargs (p : Parameter) : Bool :=
  match p.mode with
  | .varargs => true
  | .required | .optional _ => false

/-- The value that stands for an omitted argument, if one is given. -/
def default? (p : Parameter) : Option Float :=
  match p.mode with
  | .optional value => value
  | .required | .varargs => none

end Parameter

/-! ## Well-formed lists -/

/-- What is wrong with a list of parameters. -/
inductive ParameterError where
  | requiredAfterOptional (name : String)
  | varargsNotLast (name : String)
deriving DecidableEq, Repr

def ParameterError.message : ParameterError → String
  | .requiredAfterOptional name =>
    "required parameter `" ++ name ++ "` follows an optional one"
  | .varargsNotLast name =>
    "varargs parameter `" ++ name ++ "` must be the last parameter"

namespace Parameter

/-- Checks the parameters that follow, given whether an optional one came before. -/
def validateFrom (seenOptional : Bool) : List Parameter → Except ParameterError Unit
  | [] => .ok ()
  | p :: ps =>
    match p.mode with
    | .required =>
      if seenOptional then .error (.requiredAfterOptional p.name) else validateFrom seenOptional ps
    | .optional _ => validateFrom true ps
    | .varargs =>
      if ps.isEmpty then validateFrom true ps else .error (.varargsNotLast p.name)

/-- Accepts required parameters, then optional ones, then at most one varargs
    parameter; reports the first parameter that is out of place. -/
def validate (ps : List Parameter) : Except ParameterError Unit :=
  validateFrom false ps

end Parameter

/-! ## Arity -/

structure Arity where
  min : Nat
  /-- Unbounded when absent. -/
  max : Option Nat
deriving DecidableEq, Repr

namespace Arity

/-- All required parameters have to be given; a varargs parameter lifts the
    bound set by the number of parameters. -/
def ofParameters (ps : List Parameter) : Arity where
  min := ps.countP Parameter.isRequired
  max := if ps.any Parameter.isVarargs then none else some ps.length

def isVarargs (a : Arity) : Bool := a.max.isNone

def accepts (a : Arity) (count : Nat) : Bool :=
  decide (a.min ≤ count) && a.max.all fun max => decide (count ≤ max)

def describe (a : Arity) : String :=
  match a.max with
  | none => "at least " ++ toString a.min
  | some max =>
    if max = a.min then toString a.min else toString a.min ++ "~" ++ toString max

/-- Fails when a function of this name and arity cannot take this many arguments. -/
def check (a : Arity) (name : String) (actual : Nat) : Except BuildError Unit :=
  if a.accepts actual then .ok () else .error (.invalidArity name a.describe actual)

end Arity

end Lookback
