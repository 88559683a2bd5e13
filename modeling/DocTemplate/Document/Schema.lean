import DocTemplate.Document.Basic
import DocTemplate.Json.Basic

/-!
# Documents as JSON

The form in which document bodies are stored: objects with fixed members, which may be left out
where a default is sensible, and an element's kind in its member `type`. An object may also be
written as the array of its members in their order, the last ones left out. Members with other
names are skipped; a known member must not stand twice.

What is skipped at the outermost object need only be well formed. Everything inside an element must
denote a value and must not nest too deep.
-/

namespace DocTemplate

/-! ## Writing -/

namespace FieldMark

def word : FieldMark → String
  | opening => "begin"
  | separator => "separate"
  | closing => "end"

/-- The mark of a word. -/
def ofWord? (s : String) : Option FieldMark :=
  [opening, separator, closing].find? (fun m => m.word = s)

end FieldMark

namespace Run

/-- A run; members that say nothing are left out. -/
def encode (r : Run) : Json :=
  .object (("id", .nat r.id) ::
    (if r.text.isEmpty then [] else [("text", .string r.text)]) ++
    (if r.fragments.isEmpty then [] else [("instr_text", .ofList .string r.fragments)]) ++
    (match r.mark with
      | some m => [("field_char", .string m.word)]
      | none => []))

end Run

namespace Body

mutual

/-- An element with its kind. -/
def encodeElement : Element → Json
  | .paragraph runs => .object [("type", .string "paragraph"), ("runs", .ofList Run.encode runs)]
  | .table id rows =>
    .object [("type", .string "table"), ("id", .nat id), ("rows", .array (encodeRows rows))]

/-- The elements of a body. -/
def encodeElements : List Element → List Json
  | [] => []
  | e :: es => encodeElement e :: encodeElements es

/-- The rows of a table. -/
def encodeRows : List (List (List Element)) → List Json
  | [] => []
  | r :: rs => .object [("cells", .array (encodeCells r))] :: encodeRows rs

/-- The cells of a row. -/
def encodeCells : List (List Element) → List Json
  | [] => []
  | c :: cs =>
    .object [("body", .object [("elements", .array (encodeElements c))])] :: encodeCells cs

end

/-- A body. -/
def encode (b : Body) : Json := .object [("elements", .array (encodeElements b))]

end Body

/-! ## Reading -/

namespace Schema

/-- The values of the members `names`, nothing for one that is left out. Refuses a known member that
stands twice, an array with more items than there are members, and every other value. -/
def members? (names : List String) : Json → Option (List (Option Json))
  | .object ms =>
    let values := names.map fun n => (ms.filter (fun m => m.1 = n)).map Prod.snd
    if values.all (fun vs => vs.length ≤ 1) then some (values.map List.head?) else none
  | .array items =>
    if items.length ≤ names.length then
      some (items.map some ++ List.replicate (names.length - items.length) none)
    else none
  | _ => none

/-- A member that may be left out. -/
def orDefault {α : Type} (read : Json → Option α) (default : α) : Option Json → Option α
  | none => some default
  | some j => read j

/-- Every item of an array. -/
def list? {α : Type} (read : Json → Option α) : Json → Option (List α)
  | .array items => items.mapM read
  | _ => none

/-- A text. -/
def text? : Json → Option String
  | .string s => some s
  | _ => none

/-- A number: plain digits that fit 64 bits. -/
def id? : Json → Option Nat
  | .nat n => if n < UInt64.size then some n else none
  | _ => none

/-- A field mark: its word, an object with the word as its only key and no content, or nothing. -/
def mark? : Json → Option (Option FieldMark)
  | .null => some none
  | .string s => (FieldMark.ofWord? s).map some
  | .object [(s, .null)] | .object [(s, .object [])] => (FieldMark.ofWord? s).map some
  | _ => none

/-- A run. -/
def run? (j : Json) : Option Run := do
  match ← members? ["id", "text", "instr_text", "field_char"] j with
  | [id, text, fragments, mark] =>
    return {
      id := ← orDefault id? 0 id
      text := ← orDefault text? "" text
      fragments := ← orDefault (list? text?) [] fragments
      mark := ← orDefault mark? none mark }
  | _ => none

/-- The two kinds of elements. -/
inductive ElementKind where
  | paragraph
  | table
  deriving DecidableEq, Repr

/-- The kind of an element. Inside a table cell the kinds may also be given as numbers. -/
def kind? (nested : Bool) : Json → Option ElementKind
  | .string "paragraph" => some .paragraph
  | .string "table" => some .table
  | .nat 0 => if nested then some .paragraph else none
  | .nat 1 => if nested then some .table else none
  | _ => none

/-- Separate the kind of an element from its other members. -/
def splitKind? (nested : Bool) : Json → Option (ElementKind × Json)
  | .object ms => do
    match ms.filter (fun m => m.1 = "type") with
    | [(_, kind)] => return (← kind? nested kind, .object (ms.filter (fun m => m.1 ≠ "type")))
    | _ => none
  | .array (kind :: rest) => do return (← kind? nested kind, .array rest)
  | _ => none

/-- The value of the only member of an object. -/
def only? (name : String) (j : Json) : Option (Option Json) := do
  match ← members? [name] j with
  | [value] => return value
  | _ => none

/-- A body whose elements are read by `element`. -/
def body? (element : Json → Option Element) (j : Json) : Option Body := do
  orDefault (list? element) [] (← only? "elements" j)

/-- A cell whose elements are read by `element`. -/
def cell? (element : Json → Option Element) (j : Json) : Option Body := do
  orDefault (body? element) [] (← only? "body" j)

/-- A row whose cells' elements are read by `element`. -/
def row? (element : Json → Option Element) (j : Json) : Option (List Body) := do
  orDefault (list? (cell? element)) [] (← only? "cells" j)

/-- An element. `levels` bounds how deep tables may nest. -/
def element? : Nat → Bool → Json → Option Element
  | 0, _, _ => none
  | levels + 1, nested, j => do
    let (kind, j) ← splitKind? nested j
    match kind with
    | .paragraph => return .paragraph (← orDefault (list? run?) [] (← only? "runs" j))
    | .table =>
      match ← members? ["id", "rows"] j with
      | [id, rows] =>
        return .table (← orDefault id? 0 id)
          (← orDefault (list? (row? (element? levels true))) [] rows)
      | _ => none

/-- How deep arrays and objects of a document may nest, the outermost one included. -/
def nestingLimit : Nat := 127

/-- How deep an element may nest: two less, for the body and its list of elements. -/
def elementLimit : Nat := nestingLimit - 2

/-- A body that is a whole document. -/
def document? (j : Json) : Option Body :=
  body? (fun e => if e.fits elementLimit then element? elementLimit false e else none) j

end Schema

end DocTemplate
