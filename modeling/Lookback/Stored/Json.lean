-- SUMMARY: JSON documents: their values and a reader for the standard grammar.

/-!
# JSON

The reader accepts exactly one value with blanks around it. Objects keep their
members in order, duplicates included, for the user of the value to judge. A
string may spell half of a surrogate pair, which is no character: such a string
is well-formed JSON but has no content.
-/

namespace Lookback

inductive Json where
  | null
  | bool (value : Bool)
  /-- A number as it is written. -/
  | number (written : List Char)
  /-- A string, without content if it spells something that is no character. -/
  | text (content : Option String)
  | array (elements : List Json)
  | object (members : List (Option String × Json))

namespace Json

/-! ## Strings -/

def hexDigit? (c : Char) : Option Nat :=
  if c.isDigit then some (c.toNat - 48)
  else if 'a' ≤ c ∧ c ≤ 'f' then some (c.toNat - 87)
  else if 'A' ≤ c ∧ c ≤ 'F' then some (c.toNat - 55)
  else none

def hexUnit? (a b c d : Char) : Option Nat := do
  return (((← hexDigit? a) * 16 + (← hexDigit? b)) * 16 + (← hexDigit? c)) * 16 + (← hexDigit? d)

/-- The character a one-letter escape stands for. -/
def escape? : Char → Option Char
  | '"' => some '"'
  | '\\' => some '\\'
  | '/' => some '/'
  | 'b' => some '\x08'
  | 'f' => some '\x0c'
  | 'n' => some '\n'
  | 'r' => some '\r'
  | 't' => some '\t'
  | _ => none

/-- The code points and escaped code units up to the closing quote, and the text
    after it. Control characters have to be escaped. -/
def stringUnits? : List Char → Option (List Nat × List Char)
  | [] => none
  | '"' :: rest => some ([], rest)
  | '\\' :: 'u' :: a :: b :: c :: d :: rest => do
    let unit ← hexUnit? a b c d
    let (units, rest) ← stringUnits? rest
    return (unit :: units, rest)
  | '\\' :: e :: rest => do
    let c ← escape? e
    let (units, rest) ← stringUnits? rest
    return (c.toNat :: units, rest)
  | c :: rest =>
    if c.toNat < 32 then
      none
    else do
      let (units, rest) ← stringUnits? rest
      return (c.toNat :: units, rest)

def isHighSurrogate (unit : Nat) : Bool := 0xD800 ≤ unit && unit < 0xDC00

def isLowSurrogate (unit : Nat) : Bool := 0xDC00 ≤ unit && unit < 0xE000

/-- The characters that code points and code units spell, with surrogate pairs
    joined; none if half of a pair is left over. -/
def characters? : List Nat → Option (List Char)
  | [] => some []
  | [unit] =>
    if isHighSurrogate unit || isLowSurrogate unit then none else some [Char.ofNat unit]
  | unit :: next :: rest =>
    if isHighSurrogate unit && isLowSurrogate next then
      (characters? rest).map
        (Char.ofNat (0x10000 + (unit - 0xD800) * 1024 + (next - 0xDC00)) :: ·)
    else if isHighSurrogate unit || isLowSurrogate unit then
      none
    else
      (characters? (next :: rest)).map (Char.ofNat unit :: ·)

/-- The content of a string after its opening quote, and the text after it. -/
def string? (s : List Char) : Option (Option String × List Char) := do
  let (units, rest) ← stringUnits? s
  return ((characters? units).map String.ofList, rest)

/-! ## Numbers -/

/-- One or more digits, and the text after them. -/
def digits? (s : List Char) : Option (List Char × List Char) :=
  match s.takeWhile Char.isDigit with
  | [] => none
  | ds => some (ds, s.dropWhile Char.isDigit)

/-- Digits without a leading zero, and the text after them. -/
def whole? (s : List Char) : Option (List Char × List Char) := do
  let (ds, rest) ← digits? s
  if ds.head? = some '0' ∧ ds.length ≠ 1 then none else some (ds, rest)

def fraction? : List Char → Option (List Char × List Char)
  | '.' :: s => do
    let (ds, rest) ← digits? s
    return ('.' :: ds, rest)
  | s => some ([], s)

def exponent? : List Char → Option (List Char × List Char)
  | c :: s =>
    if c = 'e' ∨ c = 'E' then
      match s with
      | sign :: t =>
        if sign = '+' ∨ sign = '-' then do
          let (ds, rest) ← digits? t
          return (c :: sign :: ds, rest)
        else do
          let (ds, rest) ← digits? s
          return (c :: ds, rest)
      | [] => none
    else
      some ([], c :: s)
  | [] => some ([], [])

def number? (s : List Char) : Option (List Char × List Char) := do
  let (sign, s) := match s with
    | '-' :: t => (['-'], t)
    | t => ([], t)
  let (ds, s) ← whole? s
  let (fraction, s) ← fraction? s
  let (exponent, s) ← exponent? s
  return (sign ++ ds ++ fraction ++ exponent, s)

/-! ## Values -/

def skipBlanks (s : List Char) : List Char :=
  s.dropWhile fun c => c == ' ' || c == '\t' || c == '\n' || c == '\r'

/-- The text after a word that it begins with. -/
def word? (word : String) (s : List Char) : Option (List Char) :=
  if word.toList.isPrefixOf s then some (s.drop word.length) else none

mutual

/-- A value, and the text after it. Each level of nesting and each further element
    takes one unit of fuel. -/
def value? : Nat → List Char → Option (Json × List Char)
  | 0, _ => none
  | fuel + 1, s =>
    match skipBlanks s with
    | '"' :: rest => (string? rest).map fun (content, rest) => (.text content, rest)
    | '[' :: rest =>
      match skipBlanks rest with
      | ']' :: rest => some (.array [], rest)
      | _ => (elements? fuel rest).map fun (elements, rest) => (.array elements, rest)
    | '\x7b' :: rest =>
      match skipBlanks rest with
      | '\x7d' :: rest => some (.object [], rest)
      | _ => (members? fuel rest).map fun (members, rest) => (.object members, rest)
    | 'n' :: rest => (word? "ull" rest).map fun rest => (.null, rest)
    | 't' :: rest => (word? "rue" rest).map fun rest => (.bool true, rest)
    | 'f' :: rest => (word? "alse" rest).map fun rest => (.bool false, rest)
    | rest => (number? rest).map fun (written, rest) => (.number written, rest)

/-- One or more elements up to the closing bracket, and the text after it. -/
def elements? : Nat → List Char → Option (List Json × List Char)
  | 0, _ => none
  | fuel + 1, s => do
    let (element, rest) ← value? fuel s
    match skipBlanks rest with
    | ',' :: rest => do
      let (elements, rest) ← elements? fuel rest
      return (element :: elements, rest)
    | ']' :: rest => return ([element], rest)
    | _ => none

def members? : Nat → List Char → Option (List (Option String × Json) × List Char)
  | 0, _ => none
  | fuel + 1, s =>
    match skipBlanks s with
    | '"' :: rest => do
      let (name, rest) ← string? rest
      match skipBlanks rest with
      | ':' :: rest => do
        let (value, rest) ← value? fuel rest
        match skipBlanks rest with
        | ',' :: rest => do
          let (members, rest) ← members? fuel rest
          return ((name, value) :: members, rest)
        | '\x7d' :: rest => return ([(name, value)], rest)
        | _ => none
      | _ => none
    | _ => none

end

/-- The value of a document. Every level and every element takes at least one
    character, so the fuel suffices for every document. -/
def ofText? (text : String) : Option Json :=
  match value? (2 * text.length + 1) text.toList with
  | some (value, rest) => if (skipBlanks rest).isEmpty then some value else none
  | none => none

end Json

end Lookback
