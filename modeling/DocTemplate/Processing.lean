import DocTemplate.Config.Basic
import DocTemplate.Document.Load
import DocTemplate.Elapsed
import DocTemplate.Expression.Brackets
import DocTemplate.Parse.Events
import DocTemplate.Template.Encoding

/-!
# Processing documents

From a document and a configuration to a template: the configuration is checked, the document
loaded, and its body parsed with the providers that the configuration declares. The time that all
this takes is known only to whoever runs it, and is handed in where it is shown.
-/

namespace DocTemplate

/-- What keeps a document from being processed. -/
inductive ProcessingError where
  | document (e : DocumentError)
  | parse (e : ParseError)
  | config (e : ConfigError)
  deriving DecidableEq, Repr, Inhabited

namespace ProcessingError

/-- The code of an error. -/
def code : ProcessingError → String
  | document e => e.code
  | parse e => e.code
  | config e => e.code

/-- The wording of an error, which begins with the stage of the work. -/
def message : ProcessingError → String
  | document e => "Document loading failed: " ++ e.message
  | parse e => "Template parsing failed: " ++ e.message
  | config e => "Configuration failed: " ++ e.message

/-- The run an error is located at. -/
def run? : ProcessingError → Option RunId
  | parse e => e.run?
  | document _ | config _ => none

end ProcessingError

/-- A processed document. -/
structure Report where
  template : Template
  stats : Stats
  /-- How many runs the document has. -/
  runs : Nat

namespace Report

/-- The report on a body that was parsed. -/
def ofTemplate (b : Body) (t : Template) : Report := ⟨t, .ofTemplate t, b.runCount⟩

/-- The template has no problem. -/
def isValid (r : Report) : Bool := r.stats.problems = 0

/-- The report as JSON, with the time it took. -/
def encode (elapsed : Elapsed) (r : Report) : Json :=
  .ofMembers [
    ("duration_ms", .numeral elapsed.exact),
    ("runs", .nat r.runs),
    ("stats", r.stats.encode),
    ("template", r.template.encode)]

/-- The document at a path was processed. -/
def event (r : Report) (path : String) (elapsed : Elapsed) : Event :=
  (Event.success "I001" "Document processing completed").addingAll [
    ("file", path),
    ("runs", toString r.runs),
    ("constructs", toString r.stats.total),
    ("errors", toString r.stats.problems),
    ("duration_ms", elapsed.rounded)]

end Report

namespace Config

/-- What a parse depends on, as far as a configuration decides it. -/
def setting (c : Config) : Setting where
  compile := Brackets.compile
  providers := .ofList c.providers
  limit := Limits.nestingDepth

/-- Parse a body under a configuration that was checked. -/
def parse (c : Config) (b : Body) : Logged (Except ProcessingError Report) :=
  let ⟨result, events⟩ := b.parseLogged c.setting
  ⟨result.map (Report.ofTemplate b) |>.mapError .parse, events⟩

/-- Check a configuration and parse a body under it. -/
def process (c : Config) (b : Body) : Logged (Except ProcessingError Report) :=
  match c.validate with
  | .error e => ⟨.error (.config e), []⟩
  | .ok _ => c.parse b

/-- Check a configuration, load the document at a path and parse it. -/
def processFile (c : Config) (storage : Storage) (path : String) :
    Logged (Except ProcessingError Report) :=
  let first := (Event.info "Starting document processing").adding "file" path
  match c.validate with
  | .error e => ⟨.error (.config e), [first]⟩
  | .ok _ => match Body.load storage path with
    | ⟨.error e, events⟩ => ⟨.error (.document e), first :: events⟩
    | ⟨.ok b, events⟩ =>
      let ⟨result, more⟩ := c.parse b
      ⟨result, first :: (events ++ more)⟩

end Config

/-- The events of a file that was processed, with a last one on success. -/
def Logged.completed (l : Logged (Except ProcessingError Report)) (path : String)
    (elapsed : Elapsed) : List Event :=
  match l.value with
  | .ok r => l.events ++ [r.event path elapsed]
  | .error _ => l.events

end DocTemplate
