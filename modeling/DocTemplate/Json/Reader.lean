import DocTemplate.Json.Numeral

/-!
# Reading JSON

A text is read in one go, character by character. The characters of a string, a numeral or a word
are collected until it is complete; each complete lexeme is put into its place at once, with a stack
of the arrays and objects that are still open. Nothing looks ahead or calls itself on a nested
value, so the depth of a text is limited only by whoever uses the value (`Json.fits`).

The reader is strict: no comments, no trailing commas, no raw control characters in strings, no
leading zeros, and nothing but blanks after the value.
-/

namespace DocTemplate.Json

/-! ## Lexemes -/

/-- The smallest pieces of a JSON text. -/
inductive Lexeme where
  | openArray
  | closeArray
  | openObject
  | closeObject
  | colon
  | comma
  /-- A string; nothing when it names half of a surrogate pair. -/
  | text (content : Option String)
  /-- A word or a numeral. -/
  | atom (value : Json)

/-- Blank between lexemes. -/
def isSpace (c : Char) : Bool := c = ' ' || c = '\n' || c = '\t' || c = '\r'

/-- A character that can occur in a numeral. -/
def isNumeralChar (c : Char) : Bool :=
  c.isDigit || c = '+' || c = '-' || c = '.' || c = 'e' || c = 'E'

/-- A lexeme of one character. -/
def punctuation? (c : Char) : Option Lexeme :=
  match c with
  | '[' => some .openArray
  | ']' => some .closeArray
  | '\x7b' => some .openObject
  | '\x7d' => some .closeObject
  | ':' => some .colon
  | ',' => some .comma
  | _ => none

/-- The character after a backslash, for the escapes of one letter. -/
def shortEscape? (c : Char) : Option Char :=
  match c with
  | '"' => some '"'
  | '\\' => some '\\'
  | '/' => some '/'
  | 'b' => some (Char.ofNat 8)
  | 'f' => some (Char.ofNat 12)
  | 'n' => some '\n'
  | 'r' => some '\r'
  | 't' => some '\t'
  | _ => none

/-- The value of a word. -/
def word? (cs : List Char) : Option Json :=
  if cs = "true".toList then some (.bool true)
  else if cs = "false".toList then some (.bool false)
  else if cs = "null".toList then some .null
  else none

/-! ## Values that are still open -/

/-- An array or object that is still open, with what it holds so far, last first. -/
inductive Open where
  | array (items : List Json)
  /-- An object; `sound` falls when a key is no text. -/
  | object (sound : Bool) (members : List (String × Json))
  /-- An object whose next value belongs to `key`. -/
  | member (sound : Bool) (members : List (String × Json)) (key : Option String)

/-- What may come next. -/
inductive Awaited where
  /-- A value; `orClose` allows the end of the array instead. -/
  | value (orClose : Bool)
  /-- A key; `orClose` allows the end of the object instead. -/
  | key (orClose : Bool)
  | colon
  /-- A comma or the end of the innermost open value. -/
  | separator
  /-- Nothing: the value is complete. -/
  | nothing (result : Json)

/-- The open values, innermost first, and what may come next. -/
structure Assembly where
  stack : List Open
  awaited : Awaited

/-- Put a complete value where it belongs. -/
def Assembly.deliver (stack : List Open) (j : Json) : Assembly :=
  match stack with
  | [] => ⟨[], .nothing j⟩
  | .array items :: rest => ⟨.array (j :: items) :: rest, .separator⟩
  | .member sound members (some key) :: rest =>
    ⟨.object sound ((key, j) :: members) :: rest, .separator⟩
  | .member _ members none :: rest => ⟨.object false members :: rest, .separator⟩
  | .object sound members :: rest => ⟨.object sound members :: rest, .separator⟩

/-- The object that is complete. An object with a key that is no text is no value. -/
def closeObject (sound : Bool) (members : List (String × Json)) : Json :=
  if sound then .object members.reverse else .void

/-- Put a lexeme into its place, if it has one. -/
def Assembly.step (a : Assembly) (l : Lexeme) : Option Assembly :=
  match a.awaited, l, a.stack with
  | .value _, .openArray, stack => some ⟨.array [] :: stack, .value true⟩
  | .value _, .openObject, stack => some ⟨.object true [] :: stack, .key true⟩
  | .value _, .text (some s), stack => some (Assembly.deliver stack (.string s))
  | .value _, .text none, stack => some (Assembly.deliver stack .void)
  | .value _, .atom j, stack => some (Assembly.deliver stack j)
  | .value true, .closeArray, .array items :: rest =>
    some (Assembly.deliver rest (.array items.reverse))
  | .key _, .text key, .object sound members :: rest =>
    some ⟨.member sound members key :: rest, .colon⟩
  | .key true, .closeObject, .object sound members :: rest =>
    some (Assembly.deliver rest (closeObject sound members))
  | .colon, .colon, stack => some ⟨stack, .value false⟩
  | .separator, .comma, .array items :: rest => some ⟨.array items :: rest, .value false⟩
  | .separator, .comma, .object sound members :: rest =>
    some ⟨.object sound members :: rest, .key false⟩
  | .separator, .closeArray, .array items :: rest =>
    some (Assembly.deliver rest (.array items.reverse))
  | .separator, .closeObject, .object sound members :: rest =>
    some (Assembly.deliver rest (closeObject sound members))
  | _, _, _ => none

/-! ## Characters -/

/-- What is being spelled. The characters of a numeral or a word are listed last
first. -/
inductive Mode where
  /-- Between lexemes. -/
  | between
  /-- Inside a string. `sound` falls when half of a surrogate pair is met; `high` is the first half
  that waits for its second. -/
  | inString (sound : Bool) (high : Option Nat) (content : String)
  /-- After a backslash. -/
  | afterBackslash (sound : Bool) (high : Option Nat) (content : String)
  /-- Inside a four-digit escape, `wanted` digits before its end. -/
  | inEscape (sound : Bool) (high : Option Nat) (content : String) (wanted : Nat) (code : Nat)
  /-- Inside a numeral. -/
  | inNumeral (chars : List Char)
  /-- Inside a word. -/
  | inWord (chars : List Char)

/-- Put the code of a four-digit escape into a string: a pair of surrogates is one character, and
half a pair makes the string unsound. -/
def addCode (sound : Bool) (high : Option Nat) (content : String) (code : Nat) : Mode :=
  let isHigh := 0xD800 ≤ code && code < 0xDC00
  let isLow := 0xDC00 ≤ code && code < 0xE000
  match high with
  | some h =>
    if isLow then
      .inString sound none
        (content.push (Char.ofNat (0x10000 + (h - 0xD800) * 0x400 + (code - 0xDC00))))
    else .inString false none content
  | none =>
    if isHigh then .inString sound (some code) content
    else if isLow then .inString false none content
    else .inString sound none (content.push (Char.ofNat code))

/-- A text that is being read: what was complete so far has been put into its place. -/
inductive State where
  | reading (a : Assembly) (mode : Mode)
  /-- The text is malformed, whatever follows. -/
  | failed

namespace State

/-- Put a complete lexeme into its place. -/
def place (a : Assembly) (l : Lexeme) : State :=
  match a.step l with
  | some a => .reading a .between
  | none => .failed

/-- Start a lexeme at a character that does not continue the one before. -/
def begin (a : Assembly) (c : Char) : State :=
  if isSpace c then .reading a .between
  else if c = '"' then .reading a (.inString true none "")
  else if isNumeralChar c && c ≠ 'e' && c ≠ 'E' then .reading a (.inNumeral [c])
  else if c.isAlpha then .reading a (.inWord [c])
  else match punctuation? c with
    | some l => place a l
    | none => .failed

/-- Put an atom into its place, and go on with the character after it. -/
def beginAfter (a : Assembly) (atom : Option Json) (c : Char) : State :=
  match atom.bind fun j => a.step (.atom j) with
  | some a => begin a c
  | none => .failed

/-- One character. -/
def step (s : State) (c : Char) : State :=
  match s with
  | .failed => .failed
  | .reading a .between => begin a c
  | .reading a (.inString sound high content) =>
    if c = '"' then place a (.text (if sound && high.isNone then some content else none))
    else if c = '\\' then .reading a (.afterBackslash sound high content)
    else if c.toNat < 32 then .failed
    else .reading a (.inString (sound && high.isNone) none (content.push c))
  | .reading a (.afterBackslash sound high content) =>
    if c = 'u' then .reading a (.inEscape sound high content 4 0)
    else match shortEscape? c with
      | some e => .reading a (.inString (sound && high.isNone) none (content.push e))
      | none => .failed
  | .reading a (.inEscape sound high content wanted code) =>
    match Numeral.hexValue? c with
    | some v =>
      if wanted ≤ 1 then .reading a (addCode sound high content (16 * code + v))
      else .reading a (.inEscape sound high content (wanted - 1) (16 * code + v))
    | none => .failed
  | .reading a (.inNumeral chars) =>
    if isNumeralChar c then .reading a (.inNumeral (c :: chars))
    else beginAfter a (numeral? chars.reverse) c
  | .reading a (.inWord chars) =>
    if c.isAlpha then .reading a (.inWord (c :: chars))
    else beginAfter a (word? chars.reverse) c

/-- The value that is complete at the end of the text. A blank is added, which completes a numeral
or a word and changes nothing else. -/
def result? (s : State) : Option Json :=
  match s.step ' ' with
  | .reading ⟨_, .nothing j⟩ .between => some j
  | _ => none

end State

/-- The value that a text spells, if it is well formed. -/
def parse? (text : String) : Option Json :=
  (text.foldl State.step (.reading ⟨[], .value false⟩ .between)).result?

/-- Reading goes through the characters of a text one by one. -/
theorem parse?_eq_foldl (text : String) :
    parse? text =
      (text.toList.foldl State.step (.reading ⟨[], .value false⟩ .between)).result? := by
  rw [parse?, String.foldl_eq_foldl_toList]

end DocTemplate.Json
