/-!
# Message codes

Every message carries a code: `E` for what ends an operation, `W` for what a template's author
should mend, `I` and `D` for the course of events. Codes of the first two kinds are described in a
table.
-/

namespace DocTemplate

/-- How grave a code is. -/
inductive Severity where
  | critical
  | high
  | medium
  | low
  deriving DecidableEq, Repr, Inhabited

namespace Severity

def title : Severity → String
  | critical => "Critical"
  | high => "High"
  | medium => "Medium"
  | low => "Low"

/-- Zero for the gravest. -/
def rank : Severity → Nat
  | critical => 0
  | high => 1
  | medium => 2
  | low => 3

end Severity

/-- What is known about a code. -/
structure CodeInfo where
  code : String
  category : String
  severity : Severity
  recoverable : Bool
  /-- The operation ends. -/
  halts : Bool
  description : String
  /-- What to do about it. -/
  action : String
  deriving DecidableEq, Repr

namespace CodeInfo

/-- A code after which nothing can go on. -/
def fatal (code category : String) (severity : Severity) (description action : String) :
    CodeInfo :=
  ⟨code, category, severity, false, true, description, action⟩

/-- A code about a template that is processed all the same. -/
def advice (code description action : String) : CodeInfo :=
  ⟨code, "Template", .low, true, false, description, action⟩

/-- The codes that are described. -/
def table : List CodeInfo := [
  fatal "ERR001" "System" .critical "Critical internal error"
    "File a bug report with the failing document",
  fatal "ERR002" "System" .critical "Logging or configuration initialization failure"
    "Check environment variables and configuration files",
  fatal "E010" "Configuration" .medium "Runtime configuration file could not be read"
    "Check the --config path and file permissions",
  fatal "E011" "Configuration" .medium "Runtime configuration is malformed"
    "Fix the TOML syntax or the provider declarations",
  fatal "E020" "Document" .medium "Document file not found" "Check the document path",
  fatal "E021" "Document" .medium "Document exceeds the maximum size limit"
    "Split the template or raise max_document_size",
  fatal "E022" "Document" .medium "Document body is not valid JSON for the body model"
    "Regenerate the body export",
  fatal "E023" "Document" .medium "Document has more runs than allowed"
    "Split the template or raise max_runs_per_document",
  fatal "E024" "Document" .medium "I/O error while reading the document"
    "Check file permissions and disk state",
  fatal "E040" "Syntax" .critical "Tag reading started away from a field begin"
    "Internal parser invariant violated; file a bug report",
  fatal "E041" "Syntax" .high "A table appears inside a field"
    "Move the table out of the field instruction",
  fatal "E042" "Syntax" .high "The body ended inside a field"
    "Close the field or repair the document",
  fatal "E043" "Syntax" .high "The template uses a construct this parser does not support"
    "Remove m:let or m:elt tags from the template",
  fatal "E087" "Syntax" .high "Template nesting exceeds the maximum depth"
    "Flatten the template or raise max_nesting_depth",
  advice "W100" "Tag found where it cannot close anything"
    "Remove the tag or add the matching opening tag",
  advice "W101" "Malformed m:for tag" "Use m:for variable | expression",
  advice "W102" "Expression does not compile" "Fix the expression syntax",
  advice "W103" "Conditional is not closed" "Add m:elseif, m:else or m:endif",
  advice "W104" "Image tag lacks a file option" "Add file:\"path\" to the tag",
  advice "W105" "Image or diagram option is unknown or has a bad value"
    "Check option names and values",
  advice "W106" "Option list is malformed" "Use key:\"value\" pairs separated by spaces",
  advice "W107" "Diagram provider cannot be resolved" "Register the provider or fix its name"]

/-- The description of a code. -/
def find? (code : String) : Option CodeInfo := table.find? (fun i => i.code = code)

/-- What is said about a code that is not described. -/
def unknown (code : String) : CodeInfo :=
  ⟨code, "Unknown", .medium, true, false, "Unknown error", "No specific action available"⟩

/-- The description of a code, or what is said in its place. -/
def of (code : String) : CodeInfo := (find? code).getD (unknown code)

end CodeInfo

end DocTemplate
