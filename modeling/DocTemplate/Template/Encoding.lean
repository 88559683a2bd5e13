import DocTemplate.Json.Basic
import DocTemplate.Template.Survey

/-!
# Templates as JSON

The form in which templates are given out. A conditional is written as a chain: each further
condition, and what follows `m:else`, stands as the alternative of the condition before it.
-/

namespace DocTemplate

/-- A run number. -/
def encodeRun (id : RunId) : Json := .nat id

namespace Problem

def encode (p : Problem) : Json :=
  .ofMembers [("code", .string p.code), ("message", .string p.message),
    ("run", .ofOption encodeRun p.run)]

end Problem

namespace Tag

def encode (t : Tag) : Json :=
  .ofMembers [("runs", .ofList encodeRun t.runs), ("closing_runs", .ofList encodeRun t.closingRuns),
    ("style_run", .ofOption encodeRun t.styleRun), ("errors", .ofList Problem.encode t.problems)]

end Tag

/-- An expression, or nothing where it is invalid. -/
def encodeExpression (e : Option Expression) : Json := .ofOption (fun e => .string e.source) e

namespace Display

def word : Display → String
  | text => "text"
  | label => "label"
  | icon => "icon"

end Display

namespace LegendPosition

def word : LegendPosition → String
  | above => "above"
  | below => "below"

end LegendPosition

namespace ImageOptions

def encode (o : ImageOptions) : Json :=
  .ofMembers [("file_name", .ofOption .string o.fileName), ("legend", .ofOption .string o.legend),
    ("legend_position", .string o.legendPosition.word),
    ("height", .ofOption (fun n => .nat n.toNat) o.height),
    ("width", .ofOption (fun n => .nat n.toNat) o.width)]

end ImageOptions

namespace OptionValue

def encode : OptionValue → Json
  | text s => .string s
  | expression e => encodeExpression e

end OptionValue

namespace Construct

mutual

/-- The members of a construct, its kind apart. -/
def members : Construct → List (String × Json)
  | .text tag => [("tag", tag.encode)]
  | .query tag expression display =>
    [("tag", tag.encode), ("expression", encodeExpression expression),
      ("behavior", .string display.word)]
  | .image tag options => [("tag", tag.encode), ("options", options.encode)]
  | .diagram tag options provider extras =>
    [("tag", tag.encode), ("options", options.encode), ("provider", .ofOption .string provider),
      ("provider_options", .ofDict OptionValue.encode extras)]
  | .loop tag iterator source body =>
    [("tag", tag.encode), ("iteration_var", .ofOption .string iterator),
      ("query", encodeExpression source), ("body", .array (encodeBody body))]
  | .conditional first links otherwise =>
    branchMembers first (encodeLinks links (encodeElse otherwise))
  | .table id rows => [("table", .nat id), ("rows", .array (encodeRows rows))]

/-- Each construct with its kind. -/
def encodeBody : List Construct → List Json
  | [] => []
  | c :: cs => .ofMembers (("kind", .string c.kindName) :: members c) :: encodeBody cs

/-- The members of a branch whose alternative is encoded already. -/
def branchMembers : Branch Construct → Json → List (String × Json)
  | ⟨tag, condition, body⟩, alternative =>
    [("tag", tag.encode), ("condition", encodeExpression condition),
      ("body", .array (encodeBody body)), ("alternative", alternative)]

/-- Further conditions as a chain that ends in `last`. -/
def encodeLinks : List (Branch Construct) → Json → Json
  | [], last => last
  | b :: bs, last =>
    .ofMembers (("kind", .string "else_if") :: branchMembers b (encodeLinks bs last))

/-- What follows `m:else`. -/
def encodeElse : Option (Section Construct) → Json
  | none => .null
  | some sec => .ofMembers (("kind", .string "else") :: sectionMembers sec)

/-- The members of a section. -/
def sectionMembers : Section Construct → List (String × Json)
  | ⟨tag, body⟩ => [("tag", tag.encode), ("body", .array (encodeBody body))]

/-- The rows of a table. -/
def encodeRows : List (List (Section Construct)) → List Json
  | [] => []
  | r :: rs => .ofMembers [("cells", .array (encodeCells r))] :: encodeRows rs

/-- The cells of a row. -/
def encodeCells : List (Section Construct) → List Json
  | [] => []
  | c :: cs => .ofMembers [("template", .ofMembers (sectionMembers c))] :: encodeCells cs

end

/-- A construct that stands by itself, without its kind. -/
def encode (c : Construct) : Json := .ofMembers c.members

end Construct

namespace Template

def encode (t : Template) : Json := .ofMembers (Construct.sectionMembers t)

end Template

namespace Stats

def encode (s : Stats) : Json :=
  .ofMembers [("constructs", .ofDict .nat s.constructs), ("elseif_branches", .nat s.links),
    ("table_cells", .nat s.tableCells), ("errors", .nat s.problems)]

end Stats

end DocTemplate
