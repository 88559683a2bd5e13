import DocTemplate.Toml.Basic
import DocTemplate.Toml.Moment
import DocTemplate.Toml.Number

/-!
# Reading TOML

Line by line: comments, `[table]` and `[[array of tables]]` headers, and `key = value` pairs with
dotted and quoted keys. Values are strings (basic and literal, on one line or several), booleans,
integers of 64 bits, floating point numbers, dates and times, arrays and inline tables. Whatever can
go on and on is read with a bound on the number of steps, which the length of the text supplies.
-/

namespace DocTemplate.Toml

/-! ## Characters -/

/-- A line break of two characters counts as one. -/
def joinBreaks : List Char → List Char → List Char
  | [], done => done.reverse
  | '\r' :: '\n' :: cs, done => joinBreaks cs ('\n' :: done)
  | c :: cs, done => joinBreaks cs (c :: done)

/-- Space or tab. -/
def isSpace (c : Char) : Bool := c = ' ' || c = '\t'

/-- A character that may stand in a comment or, quotes and backslashes apart, in a string. -/
def isPlain (c : Char) : Bool := c = '\t' || (32 ≤ c.toNat && c.toNat ≠ 127)

/-- A character of a key without quotes. -/
def isBare (c : Char) : Bool := c.isAlphanum || c = '_' || c = '-'

/-- Skip spaces and tabs. -/
def skipSpace (cs : List Char) : List Char := cs.dropWhile isSpace

/-- Skip a comment up to the end of its line. -/
def skipComment : List Char → List Char
  | '#' :: cs => cs.dropWhile isPlain
  | cs => cs

/-- Skip spaces and a comment, and the line break, which the end of the text may stand for. -/
def endLine? (cs : List Char) : Option (List Char) :=
  match skipComment (skipSpace cs) with
  | [] => some []
  | '\n' :: cs => some cs
  | _ => none

/-- Skip spaces, comments and line breaks; `n` bounds the number of lines. -/
def skipLines : Nat → List Char → List Char
  | 0, cs => cs
  | n + 1, cs => match skipComment (skipSpace cs) with
    | '\n' :: cs => skipLines n cs
    | cs => cs

/-! ## Strings -/

/-- A character given by its number; surrogates are none. -/
def charOf? (n : Nat) : Option Char :=
  if n < 0xD800 || (0xDFFF < n && n < 0x110000) then some (Char.ofNat n) else none

/-- The number that hexadecimal digits stand for. -/
def hex? (cs : List Char) : Option Nat :=
  cs.foldlM (fun n c => (Numeral.hexValue? c).map (16 * n + ·)) 0

/-- An escape of a fixed number of hexadecimal digits. -/
def longEscape? (size : Nat) (cs : List Char) : Option (Char × List Char) := do
  guard ((cs.take size).length = size)
  return (← charOf? (← hex? (cs.take size)), cs.drop size)

/-- What follows a backslash. -/
def escape? : List Char → Option (Char × List Char)
  | 'b' :: cs => some (Char.ofNat 8, cs)
  | 't' :: cs => some ('\t', cs)
  | 'n' :: cs => some ('\n', cs)
  | 'f' :: cs => some (Char.ofNat 12, cs)
  | 'r' :: cs => some ('\r', cs)
  | '"' :: cs => some ('"', cs)
  | '\\' :: cs => some ('\\', cs)
  | 'u' :: cs => longEscape? 4 cs
  | 'U' :: cs => longEscape? 8 cs
  | _ => none

/-- The rest of a basic string on one line; `done` holds what was read, last first. -/
def basic? : Nat → List Char → List Char → Option (String × List Char)
  | 0, _, _ => none
  | n + 1, done, cs => match cs with
    | '"' :: cs => some (String.ofList done.reverse, cs)
    | '\\' :: cs => (escape? cs).bind fun (c, cs) => basic? n (c :: done) cs
    | c :: cs => if isPlain c then basic? n (c :: done) cs else none
    | [] => none

/-- The rest of a literal string on one line. -/
def literal? (cs : List Char) : Option (String × List Char) :=
  match cs.dropWhile (fun c => isPlain c && c ≠ '\x27') with
  | '\x27' :: rest => some (String.ofList (cs.takeWhile (fun c => isPlain c && c ≠ '\x27')), rest)
  | _ => none

/-- The quotes at the end of a string over several lines: three close it, and up to two more belong
to its text. -/
def closing? (quote : Char) (cs : List Char) : Option (List Char × List Char) :=
  let quotes := cs.takeWhile (· = quote)
  if quotes.length < 3 then none
  else
    let extra := min (quotes.length - 3) 2
    some (List.replicate extra quote, cs.drop (extra + 3))

/-- Blanks and line breaks after a backslash at the end of a line. -/
def lineEnd? (cs : List Char) : Option (List Char) :=
  match skipSpace cs with
  | '\n' :: cs => some (cs.dropWhile (fun c => isSpace c || c = '\n'))
  | _ => none

/-- The rest of a string over several lines; only a basic one has escapes. -/
def multiline? (quote : Char) : Nat → List Char → List Char → Option (String × List Char)
  | 0, _, _ => none
  | n + 1, done, cs => match closing? quote cs with
    | some (extra, cs) => some (String.ofList (done.reverse ++ extra), cs)
    | none => match cs with
      | [] => none
      | c :: cs =>
        if c = '\\' && quote = '"' then
          match lineEnd? cs with
          | some cs => multiline? quote n done cs
          | none => (escape? cs).bind fun (c, cs) => multiline? quote n (c :: done) cs
        else if isPlain c || c = '\n' then multiline? quote n (c :: done) cs
        else none

/-- A line break just after the opening quotes does not count. -/
def skipBreak : List Char → List Char
  | '\n' :: cs => cs
  | cs => cs

/-- A string value; `size` bounds its length. -/
def string? (size : Nat) (cs : List Char) : Option (String × List Char) :=
  match cs with
  | '"' :: '"' :: '"' :: cs => multiline? '"' size [] (skipBreak cs)
  | '\x27' :: '\x27' :: '\x27' :: cs => multiline? '\x27' size [] (skipBreak cs)
  | '"' :: cs => basic? size [] cs
  | '\x27' :: cs => literal? cs
  | _ => none

/-! ## Keys -/

/-- How many parts a key may have, and how deep arrays and inline tables may be nested in each
other. -/
def maxDepth : Nat := 79

/-- One part of a key; `size` bounds its length. -/
def keyPart? (size : Nat) (cs : List Char) : Option (String × List Char) :=
  match cs with
  | '"' :: cs => basic? size [] cs
  | '\x27' :: cs => literal? cs
  | cs =>
    let bare := cs.takeWhile isBare
    if bare.isEmpty then none else some (String.ofList bare, cs.dropWhile isBare)

/-- A key of one or more parts, with the spaces after it skipped; `done` holds the parts already
read, last first, and at most `n` more may follow. The result lists the last part first. -/
def keyParts? (size : Nat) : Nat → List String → List Char → Option (List String × List Char)
  | 0, _, _ => none
  | n + 1, done, cs => do
    let (part, cs) ← keyPart? size (skipSpace cs)
    match skipSpace cs with
    | '.' :: cs => keyParts? size n (part :: done) cs
    | cs => return (part :: done, cs)

/-- A key, as the way to its table and the last part, and the text after it. -/
def key? (size : Nat) (cs : List Char) : Option (List String × String × List Char) :=
  match keyParts? size maxDepth [] cs with
  | some (key :: path, cs) => some (path.reverse, key, cs)
  | _ => none

/-! ## Values -/

/-- A value that is a word. -/
def word? (cs : List Char) : Option Toml :=
  if cs = "true".toList then some (.boolean true)
  else if cs = "false".toList then some (.boolean false)
  else match integer? cs with
    | some n => some (.integer n)
    | none => if isFloat cs then some .float else none

/-- A character that ends a word. -/
def endsWord (c : Char) : Bool :=
  isSpace c || c = '\n' || c = ',' || c = ']' || c = '\x7d' || c = '#'

mutual

/-- A value at the start of the text. `n` bounds the number of steps, and `depth` how many more
arrays and inline tables may be nested. -/
def value? (size : Nat) : Nat → Nat → List Char → Option (Toml × List Char)
  | 0, _, _ => none
  | n + 1, depth, cs => match cs with
    | '[' :: cs => match depth with
      | 0 => none
      | depth + 1 => items? size n depth [] cs
    | '\x7b' :: cs => match depth, skipSpace cs with
      | 0, _ => none
      | _ + 1, '\x7d' :: cs => some (.table [], cs)
      | depth + 1, cs => pairs? size n depth [] cs
    | '"' :: _ | '\x27' :: _ => (string? size cs).map fun (s, cs) => (.string s, cs)
    | cs => match skipMoment? cs with
      | some cs => some (.moment, cs)
      | none => (word? (cs.takeWhile (fun c => !endsWord c))).map fun v =>
          (v, cs.dropWhile (fun c => !endsWord c))

/-- The items of an array up to its end; `done` holds those already read, last first. -/
def items? (size : Nat) : Nat → Nat → List Toml → List Char → Option (Toml × List Char)
  | 0, _, _, _ => none
  | n + 1, depth, done, cs => match skipLines size cs with
    | ']' :: cs => some (.array done.reverse, cs)
    | cs => (value? size n depth cs).bind fun (v, cs) => match skipLines size cs with
      | ',' :: cs => items? size n depth (v :: done) cs
      | ']' :: cs => some (.array (v :: done).reverse, cs)
      | _ => none

/-- The pairs of an inline table up to its end. -/
def pairs? (size : Nat) : Nat → Nat → Entries → List Char → Option (Toml × List Char)
  | 0, _, _, _ => none
  | n + 1, depth, es, cs => (key? size cs).bind fun
    | (path, key, '=' :: cs) => (value? size n depth (skipSpace cs)).bind fun (v, cs) =>
      (es.assign false path key v).bind fun es => match skipSpace cs with
        | ',' :: cs => pairs? size n depth es cs
        | '\x7d' :: cs => some (.table (Node.entriesToToml es), cs)
        | _ => none
    | _ => none

end

/-! ## Files -/

/-- A file that is being read: its entries so far, and the header that the next pairs belong to. -/
structure Draft where
  entries : Entries := []
  header : List String := []

/-- Read one line, which may hold values over several lines; `size` bounds the length of the
text. -/
def line? (size : Nat) (d : Draft) (cs : List Char) : Option (Draft × List Char) :=
  match skipSpace cs with
  | '[' :: '[' :: cs => do
    match ← key? size cs with
    | (path, key, ']' :: ']' :: cs) =>
      let es ← d.entries.within path (Entries.extend key)
      return (⟨es, path ++ [key]⟩, ← endLine? cs)
    | _ => none
  | '[' :: cs => do
    match ← key? size cs with
    | (path, key, ']' :: cs) =>
      let es ← d.entries.within path (Entries.define key)
      return (⟨es, path ++ [key]⟩, ← endLine? cs)
    | _ => none
  | cs => match endLine? cs with
    | some rest => some (d, rest)
    | none => do
      match ← key? size cs with
      | (path, key, '=' :: cs) =>
        let (v, cs) ← value? size size maxDepth (skipSpace cs)
        let es ← d.entries.within d.header (Entries.assign false path key v)
        return (⟨es, d.header⟩, ← endLine? cs)
      | _ => none

/-- Read line after line; `n` bounds their number. -/
def lines? (size : Nat) : Nat → Draft → List Char → Option Draft
  | 0, _, _ => none
  | n + 1, d, cs =>
    if cs.isEmpty then some d
    else (line? size d cs).bind fun (d, cs) => lines? size n d cs

/-- A byte order mark at the start of a file does not count. -/
def skipMark : List Char → List Char
  | '\uFEFF' :: cs => cs
  | cs => cs

/-- The table that a file amounts to. -/
def parse? (text : String) : Option Toml :=
  let cs := joinBreaks (skipMark text.toList) []
  let size := cs.length + 1
  (lines? size size {} cs).map fun d => .table (Node.entriesToToml d.entries)

end DocTemplate.Toml
