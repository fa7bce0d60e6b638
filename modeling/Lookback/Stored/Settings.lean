-- SUMMARY: The stored form of options, kinds, relations and policies as JSON.
import Lookback.Comparison
import Lookback.Compiler
import Lookback.Stored.Json
import Lookback.Time.Text

/-!
# Stored settings

Options are stored as an object with a boolean for each field, in a fixed order;
kinds, relations and policies are stored by name; a timestamp is stored as text.

Reading is more lenient than writing. Missing options take their defaults and
unknown members are skipped, but an option given twice is refused. Options may
also be a list of booleans in the order of the fields, and a name may be the
only member of an object, with null as its value.
-/

namespace Lookback

namespace Json

def content? : Json → Option String
  | .text content => content
  | _ => none

/-- The name that stands for one of several alternatives. -/
def alternative? : Json → Option String
  | .text content => content
  | .object [(name, .null)] => name
  | _ => none

/-- A name as a JSON string; names hold nothing that needs to be escaped. -/
def quoted (name : String) : String := "\"" ++ name ++ "\""

end Json

/-! ## Options -/

namespace CompileOptions

/-- Reads the members of an object in order, given the options found so far. -/
def readMembers (fold manifest : Option Bool) :
    List (Option String × Json) → Option CompileOptions
  | [] => some ⟨fold.getD true, manifest.getD true⟩
  | (none, _) :: _ => none
  | (some name, value) :: rest =>
    if name = "fold_constants" then
      match fold, value with
      | none, .bool b => readMembers (some b) manifest rest
      | _, _ => none
    else if name = "collect_manifest" then
      match manifest, value with
      | none, .bool b => readMembers fold (some b) rest
      | _, _ => none
    else
      readMembers fold manifest rest

def ofStored? : Json → Option CompileOptions
  | .object members => readMembers none none members
  | .array [] => some ⟨true, true⟩
  | .array [.bool fold] => some ⟨fold, true⟩
  | .array [.bool fold, .bool manifest] => some ⟨fold, manifest⟩
  | _ => none

def stored (options : CompileOptions) : String :=
  "\x7b\"fold_constants\":" ++ toString options.foldConstants
    ++ ",\"collect_manifest\":" ++ toString options.collectManifest ++ "\x7d"

end CompileOptions

/-! ## Names -/

def Kind.stored (k : Kind) : String := Json.quoted k.name

def Kind.ofStored? (value : Json) : Option Kind := do
  let name ← value.alternative?
  Kind.all.find? fun k => k.name == name

namespace Relation

def storedName : Relation → String
  | .greater => "Gt"
  | .greaterEq => "Ge"
  | .less => "Lt"
  | .lessEq => "Le"
  | .equal => "Eq"
  | .notEqual => "Ne"

def stored (r : Relation) : String := Json.quoted r.storedName

def ofStored? (value : Json) : Option Relation := do
  let name ← value.alternative?
  Relation.all.find? fun r => r.storedName == name

end Relation

namespace MissingPolicy

def storedName : MissingPolicy → String
  | .zero => "Default"
  | .loses => "NaNable"
  | .unknown => "Nullable"

def stored (p : MissingPolicy) : String := Json.quoted p.storedName

def ofStored? (value : Json) : Option MissingPolicy := do
  let name ← value.alternative?
  [MissingPolicy.zero, .loses, .unknown].find? fun p => p.storedName == name

end MissingPolicy

/-! ## Times -/

def Timestamp.ofJson? (value : Json) : Option Timestamp :=
  value.content?.bind ofStored?

end Lookback
