import DocTemplate.Json.Basic

/-!
# Writing JSON

Two layouts of one value: on one line without blanks, and spread over lines with an indent of two
blanks per level. Strings are escaped the same way in both: quote, backslash and the control
characters, the latter by their short names where they have one and as four hexadecimal digits
otherwise. Everything else, non-ASCII text included, stands as itself.
-/

namespace DocTemplate.Json

/-- One hexadecimal digit, in lower case. -/
def hexDigit (n : Nat) : Char := (Nat.digitChar n)

/-- A character as it stands inside a quoted string. -/
def escapeChar (c : Char) : String :=
  if c = '"' then "\\\""
  else if c = '\\' then "\\\\"
  else if c = '\n' then "\\n"
  else if c = '\r' then "\\r"
  else if c = '\t' then "\\t"
  else if c.toNat = 8 then "\\b"
  else if c.toNat = 12 then "\\f"
  else if c.toNat < 32 then
    "\\u00" ++ String.ofList [hexDigit (c.toNat / 16), hexDigit (c.toNat % 16)]
  else String.singleton c

/-- A text between quotes. -/
def quoted (s : String) : String :=
  s.foldl (fun acc c => acc ++ escapeChar c) "\"" ++ "\""

/-- A value that takes no nesting. -/
def scalarText : Json → String
  | .null => "null"
  | .bool true => "true"
  | .bool false => "false"
  | .nat n => toString n
  | .numeral spelling => spelling
  | .string s => quoted s
  | .array _ | .object _ | .void => "null"

mutual

/-- The value on one line, appended to `acc`. -/
def writeCompact (acc : String) : Json → String
  | .array items => writeItems (acc ++ "[") true items ++ "]"
  | .object members => writeMembers (acc ++ "\x7b") true members ++ "\x7d"
  | j => acc ++ scalarText j

/-- Items after one another; `first` tells whether a comma is needed. -/
def writeItems (acc : String) (first : Bool) : List Json → String
  | [] => acc
  | j :: js => writeItems (writeCompact (if first then acc else acc ++ ",") j) false js

/-- Members after one another. -/
def writeMembers (acc : String) (first : Bool) : List (String × Json) → String
  | [] => acc
  | m :: ms => writeMembers (writeMember (if first then acc else acc ++ ",") m) false ms

/-- A key, a colon and the value. -/
def writeMember (acc : String) : String × Json → String
  | (key, j) => writeCompact (acc ++ quoted key ++ ":") j

end

/-- The value on one line. -/
def compact (j : Json) : String := writeCompact "" j

/-- The start of a line at a nesting level. -/
def indent (level : Nat) : String := "\n" ++ "".pushn ' ' (2 * level)

mutual

/-- The value over several lines, appended to `acc`; an empty array or object stays on its line. -/
def writePretty (level : Nat) (acc : String) : Json → String
  | .array items =>
    if items.isEmpty then acc ++ "[]"
    else prettyItems (level + 1) (acc ++ "[") true items ++ indent level ++ "]"
  | .object members =>
    if members.isEmpty then acc ++ "\x7b\x7d"
    else prettyMembers (level + 1) (acc ++ "\x7b") true members ++ indent level ++ "\x7d"
  | j => acc ++ scalarText j

/-- Items, each on a line of its own. -/
def prettyItems (level : Nat) (acc : String) (first : Bool) : List Json → String
  | [] => acc
  | j :: js =>
    prettyItems level (writePretty level ((if first then acc else acc ++ ",") ++ indent level) j)
      false js

/-- Members, each on a line of its own. -/
def prettyMembers (level : Nat) (acc : String) (first : Bool) : List (String × Json) → String
  | [] => acc
  | m :: ms =>
    prettyMembers level (prettyMember level ((if first then acc else acc ++ ",") ++ indent level) m)
      false ms

/-- A key, a colon, a blank and the value. -/
def prettyMember (level : Nat) (acc : String) : String × Json → String
  | (key, j) => writePretty level (acc ++ quoted key ++ ": ") j

end

/-- The value over several lines. -/
def pretty (j : Json) : String := writePretty 0 "" j

end DocTemplate.Json
