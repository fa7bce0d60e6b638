-- SUMMARY: Timestamps in writing: the displayed and the stored form, and the reader of the stored form.
import Lookback.Time.Timestamp

/-!
# Written timestamps

A timestamp is written as a date, a separator and a clock reading. Display puts
a space between them; the stored form puts a `T`. Years 0 to 9999 have four
digits, others a sign and at least four digits. A fraction of a second takes
three, six or nine digits, the fewest that are exact, and is left out when zero.
A leap second is written as the second that follows, second 60 at the end of a
minute.

The reader accepts more than the writer produces: parts of one digit, blanks
before every part and every mark but the point, blanks at the end, and any
number of fraction digits, of which the first nine count.
-/

namespace Lookback

/-! ## Writing -/

namespace CivilDate

/-- Decimal digits of `n`, padded with zeros to `width`. -/
def padded (width n : Nat) : String :=
  let digits := toString n
  String.ofList (List.replicate (width - digits.length) '0') ++ digits

/-- Four digits for the years 0 to 9999, otherwise a sign and at least four digits. -/
def yearText (year : Int) : String :=
  if 0 ≤ year ∧ year ≤ 9999 then
    padded 4 year.natAbs
  else
    (if year < 0 then "-" else "+") ++ padded 4 year.natAbs

def text (d : CivilDate) : String :=
  yearText d.year ++ "-" ++ padded 2 d.month ++ "-" ++ padded 2 d.day

end CivilDate

namespace CivilDateTime

open CivilDate (padded)

/-- The fraction of a second with its point, empty for none. -/
def fractionText (nano : Nat) : String :=
  if nano = 0 then ""
  else if nano % 1000000 = 0 then "." ++ padded 3 (nano / 1000000)
  else if nano % 1000 = 0 then "." ++ padded 6 (nano / 1000)
  else "." ++ padded 9 nano

def clockText (t : CivilDateTime) : String :=
  padded 2 t.hour ++ ":" ++ padded 2 t.minute ++ ":" ++ padded 2 (t.second + t.nano / 1000000000)
    ++ fractionText (t.nano % 1000000000)

def display (t : CivilDateTime) : String :=
  t.date.text ++ " " ++ t.clockText

def stored (t : CivilDateTime) : String :=
  t.date.text ++ "T" ++ t.clockText

end CivilDateTime

namespace Timestamp

def display (t : Timestamp) : String := t.toCivil.display

def stored (t : Timestamp) : String := t.toCivil.stored

end Timestamp

/-! ## Reading -/

/-- White space of any script. -/
def isBlank (c : Char) : Bool :=
  let n := c.toNat
  (9 ≤ n && n ≤ 13) || n == 32 || n == 0x85 || n == 0xA0 || n == 0x1680 ||
    (0x2000 ≤ n && n ≤ 0x200A) || n == 0x2028 || n == 0x2029 || n == 0x202F ||
    n == 0x205F || n == 0x3000

namespace CivilDateTime

def skipBlanks (s : List Char) : List Char :=
  s.dropWhile isBlank

def digitsValue (ds : List Char) : Nat :=
  ds.foldl (fun n c => n * 10 + (c.toNat - 48)) 0

/-- The run of leading digits, at most `width` of them, and the rest; there must
    be at least one. -/
def digits? (width : Option Nat) (s : List Char) : Option (List Char × List Char) :=
  let run := s.takeWhile Char.isDigit
  let taken := match width with
    | some w => run.take w
    | none => run
  if taken.isEmpty then none else some (taken, s.drop taken.length)

/-- Blanks, then a number of at most `width` digits. -/
def number? (width : Nat) (s : List Char) : Option (Nat × List Char) := do
  let (ds, rest) ← digits? (some width) (skipBlanks s)
  return (digitsValue ds, rest)

/-- Blanks, then a year: four digits at most, or a sign and any number of digits. -/
def year? (s : List Char) : Option (Int × List Char) :=
  match skipBlanks s with
  | '-' :: s => (digits? none s).map fun (ds, rest) => (-(digitsValue ds : Int), rest)
  | '+' :: s => (digits? none s).map fun (ds, rest) => ((digitsValue ds : Int), rest)
  | s => (digits? (some 4) s).map fun (ds, rest) => ((digitsValue ds : Int), rest)

/-- Blanks, then the given mark. -/
def mark? (mark : Char) (s : List Char) : Option (List Char) :=
  match skipBlanks s with
  | c :: rest => if c = mark then some rest else none
  | [] => none

/-- The fraction of a second, when a point follows at once: its first nine digits
    count and further ones are skipped. -/
def fraction? (s : List Char) : Option (Nat × List Char) :=
  match s with
  | '.' :: s => do
    let (ds, rest) ← digits? (some 9) s
    return (digitsValue (ds.rightpad 9 '0'), rest.dropWhile Char.isDigit)
  | s => some (0, s)

/-- The clock reading that is written with a second and a fraction: second 60
    prolongs second 59. -/
def ofWritten (date : CivilDate) (hour minute second nano : Nat) : CivilDateTime :=
  if second = 60 then
    ⟨date, hour, minute, 59, nano + 1000000000⟩
  else
    ⟨date, hour, minute, second, nano⟩

/-- Reads the stored form. Nothing but blanks may follow it. -/
def ofStored? (text : String) : Option CivilDateTime := do
  let (year, s) ← year? text.toList
  let (month, s) ← number? 2 (← mark? '-' s)
  let (day, s) ← number? 2 (← mark? '-' s)
  let (hour, s) ← number? 2 (← mark? 'T' s)
  let (minute, s) ← number? 2 (← mark? ':' s)
  let (second, s) ← number? 2 (← mark? ':' s)
  let (nano, s) ← fraction? s
  let t := ofWritten ⟨year, month, day⟩ hour minute second nano
  if (skipBlanks s).isEmpty && t.isValid then some t else none

end CivilDateTime

def Timestamp.ofStored? (text : String) : Option Timestamp :=
  (CivilDateTime.ofStored? text).bind ofCivil?

end Lookback
