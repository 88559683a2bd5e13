import DocTemplate.Expression.Basic
import DocTemplate.Text.Blank

/-!
# Checking brackets

The compiler that is used when no other one is given. It looks at the outer form of an expression
only: the text must not be empty, its round, square and curly brackets must match, and its quoted
literals must end. Brackets inside a literal do not count, and a backslash inside a literal takes
the next character as it is.

A closing bracket always takes the innermost open one with it, also when the two do not match, so
one slip is reported once. Places are offsets in bytes from the start of the trimmed text.
-/

namespace DocTemplate.Brackets

/-- What can be wrong with the outer form. -/
inductive Fault where
  | emptyText
  /-- A closing bracket that meets an open one of another kind. -/
  | mismatch (closing : Char) (place : Nat) (opening : Char) (openedAt : Nat)
  /-- A closing bracket with nothing open. -/
  | unbalanced (closing : Char) (place : Nat)
  | openLiteral
  /-- An opening bracket that the end of the text leaves open. -/
  | unclosed (opening : Char) (openedAt : Nat)
  deriving DecidableEq, Repr

/-- The wording of a fault. -/
def Fault.message : Fault → String
  | emptyText => "missing expression"
  | mismatch c i o j =>
    "'" ++ c.toString ++ "' at " ++ toString i ++ " closes '" ++ o.toString ++ "' opened at " ++
      toString j
  | unbalanced c i => "unbalanced '" ++ c.toString ++ "' at " ++ toString i
  | openLiteral => "unterminated string literal"
  | unclosed o j => "unclosed '" ++ o.toString ++ "' opened at " ++ toString j

/-- The closing bracket's partner. -/
def partner? (c : Char) : Option Char :=
  match c with
  | ')' => some '('
  | ']' => some '['
  | '\x7d' => some '\x7b'
  | _ => none

/-- An opening bracket. -/
def isOpening (c : Char) : Bool := c = '(' || c = '[' || c = '\x7b'

/-- Where a scan is. -/
inductive Mode where
  /-- Outside literals. -/
  | plain
  /-- Inside a literal. -/
  | literal
  /-- Inside a literal, after a backslash. -/
  | escaped
  deriving DecidableEq, Repr

/-- A scan in progress. -/
structure Scan where
  mode : Mode := .plain
  /-- Offset of the next character. -/
  offset : Nat := 0
  /-- Open brackets with their offsets, innermost first. -/
  opened : List (Char × Nat) := []
  /-- Faults found, last first. -/
  faults : List Fault := []
  deriving DecidableEq, Repr

/-- A closing bracket `c` whose partner is `p` takes the innermost open bracket with it. -/
def Scan.close (s : Scan) (c p : Char) : Scan :=
  match s.opened with
  | [] => { s with faults := .unbalanced c s.offset :: s.faults }
  | (o, j) :: rest =>
    if o = p then { s with opened := rest }
    else { s with opened := rest, faults := .mismatch c s.offset o j :: s.faults }

/-- What one character does, the offset apart. -/
def Scan.read (s : Scan) (c : Char) : Scan :=
  match s.mode with
  | .escaped => { s with mode := .literal }
  | .literal =>
    if c = '\\' then { s with mode := .escaped }
    else if c = '\x27' then { s with mode := .plain }
    else s
  | .plain =>
    if c = '\x27' then { s with mode := .literal }
    else if isOpening c then { s with opened := (c, s.offset) :: s.opened }
    else match partner? c with
      | some p => s.close c p
      | none => s

/-- One character. -/
def Scan.step (s : Scan) (c : Char) : Scan :=
  { s.read c with offset := s.offset + c.utf8Size }

/-- The faults of a scan that has reached the end of its text. -/
def Scan.finish (s : Scan) : List Fault :=
  s.faults.reverse ++ (if s.mode = .plain then [] else [.openLiteral]) ++
    s.opened.reverse.map (fun (o, j) => .unclosed o j)

/-- All faults of a text, in the order in which they are reported: closing brackets as they come,
then a literal left open, then the brackets left open. -/
def check (source : List Char) : List Fault :=
  if source.isEmpty then [.emptyText] else (source.foldl Scan.step {}).finish

/-- The compiler that accepts every text whose outer form is in order. -/
def compile : Compiler := fun text =>
  let source := Text.trim text.toList
  ⟨⟨String.ofList source⟩, (check source).map Fault.message⟩

end DocTemplate.Brackets
