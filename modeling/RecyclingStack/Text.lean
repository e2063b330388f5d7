/-! Reading bounded numbers in decimal, and writing records: a name and named fields, on one line or
with one field a line. The records are for people who inspect a stack; nothing reads them back. -/
namespace RecyclingStack

def digit? (c : Char) : Option Nat :=
  if '0' ≤ c ∧ c ≤ '9' then some (c.toNat - '0'.toNat) else none

/-- The number that `read` followed by the given digits spells; none if a character is no digit. -/
def extendNumber? (read : Nat) : List Char → Option Nat
  | [] => some read
  | c :: rest => (digit? c).bind fun d => extendNumber? (10 * read + d) rest

/-- An unsigned number below `bound`: at least one digit, a plus sign allowed in front. -/
def readNumber? (bound : Nat) (text : List Char) : Option Nat :=
  let digits := match text with
    | '+' :: rest => rest
    | text => text
  match digits with
  | [] => none
  | digits => (extendNumber? 0 digits).filter (· < bound)

def total (numbers : List Nat) : Nat := numbers.foldr (· + ·) 0

/-- A record ready to be written: its name and its fields in order, each with the text of its
value. -/
structure Record where
  name : String
  fields : List (String × String)

namespace Record

/-- One line, the fields between braces and parted by commas. -/
def inline (r : Record) : String :=
  r.name ++ " \x7b " ++ ", ".intercalate (r.fields.map fun (key, value) => key ++ ": " ++ value)
    ++ " \x7d"

/-- A line for each field, indented by four blanks and closed by a comma. -/
def indented (r : Record) : String :=
  r.name ++ " \x7b\n"
    ++ String.join (r.fields.map fun (key, value) => "    " ++ key ++ ": " ++ value ++ ",\n")
    ++ "\x7d"

def layout (r : Record) (multiline : Bool) : String :=
  if multiline then r.indented else r.inline

end Record

def boolText (b : Bool) : String := if b then "true" else "false"

def optionText : Option Nat → String
  | none => "None"
  | some n => "Some(" ++ toString n ++ ")"

end RecyclingStack
