import DocTemplate.Document.Numbering
import DocTemplate.Document.Schema
import DocTemplate.Json.Reader
import DocTemplate.Log.Event
import DocTemplate.Storage

/-!
# Loading documents

A document is a JSON text that describes a body. Whatever numbers it gives to runs and tables, they
are numbered anew; a document with too many runs, or in too large a file, is refused.
-/

namespace DocTemplate

/-- Why there is no document. -/
inductive DocumentError where
  | notFound (path : String)
  | tooLarge (path : String) (size limit : Nat)
  /-- The text is not JSON, or the JSON does not describe a body. -/
  | malformed
  | tooManyRuns (count limit : Nat)
  | unreadable (path reason : String)
  deriving DecidableEq, Repr, Inhabited

namespace DocumentError

/-- The code of an error. -/
def code : DocumentError → String
  | notFound _ => "E020"
  | tooLarge .. => "E021"
  | malformed => "E022"
  | tooManyRuns .. => "E023"
  | unreadable .. => "E024"

/-- The wording of an error. -/
def message : DocumentError → String
  | notFound path => "Document not found: " ++ path
  | tooLarge path size limit =>
    "Document " ++ path ++ " is " ++ toString size ++ " bytes, limit is " ++ toString limit
  | malformed => "Invalid document body: the text does not describe a body"
  | tooManyRuns count limit =>
    "Document has " ++ toString count ++ " runs, limit is " ++ toString limit
  | unreadable path reason => "I/O error reading " ++ path ++ ": " ++ reason

end DocumentError

namespace Body

/-- The body that a JSON text describes, numbered. -/
def ofText (text : String) : Except DocumentError Body :=
  match (Json.parse? text).bind Schema.document? with
  | none => .error .malformed
  | some b =>
    let (b, next) := b.number
    if Limits.documentRuns < next.run then .error (.tooManyRuns next.run Limits.documentRuns)
    else .ok b

/-- The same, telling how many runs a body has. -/
def decode (text : String) : Logged (Except DocumentError Body) :=
  match ofText text with
  | .ok b =>
    ⟨.ok b, [(Event.debug "Document body decoded").adding "runs" (toString b.runCount)]⟩
  | .error e => ⟨.error e, []⟩

/-- The body that the file at a path describes. The size of the file is looked at before anything
in it. -/
def read (storage : Storage) (path : String) : Logged (Except DocumentError Body) :=
  match storage path with
  | .missing => ⟨.error (.notFound path), []⟩
  | .unreadable reason => ⟨.error (.unreadable path reason), []⟩
  | .file content =>
    if Limits.documentBytes < content.size then
      ⟨.error (.tooLarge path content.size Limits.documentBytes), []⟩
    else match (Entry.file content).text? with
      | .ok text => decode text
      | .error reason => ⟨.error (.unreadable path reason), []⟩

/-- The same, telling how it went. -/
def load (storage : Storage) (path : String) : Logged (Except DocumentError Body) :=
  let ⟨result, events⟩ := read storage path
  let last := match result with
    | .ok b => (Event.success "I020" "Document loaded").addingAll
        [("path", path), ("runs", toString b.runCount)]
    | .error e => (Event.error e.code "Document loading failed").addingAll
        [("path", path), ("error", e.message)]
  ⟨result, events ++ [last]⟩

end Body

end DocTemplate
