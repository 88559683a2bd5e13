import DocTemplate.Document.Basic
import DocTemplate.Keyword

/-!
# Problems

What a template's author can get wrong without ending the parse. A problem is kept at the tag it
concerns, with the run where it shows; only the end of the body has no run.
-/

namespace DocTemplate

/-- What is wrong. -/
inductive Cause where
  /-- A tag, or the end of the body, that closes nothing that is open here. -/
  | unexpected (kind : TokenKind)
  | loopWithoutSeparator
  | loopWithoutVariable
  | loopWithoutSource
  | invalidExpression (source : String) (details : List String)
  /-- A conditional that the end of the body leaves open. -/
  | conditionalLeftOpen
  | imageWithoutFile
  | unknownOption (key : String)
  | unknownOptionValue (key value : String)
  | notAnInteger (key value : String)
  /-- A key with a blank inside, `index` bytes from its start. -/
  | blankInKey (index : Nat) (key : String)
  /-- Something other than blanks between a key's colon and the opening quote. -/
  | strayBeforeQuote (key : String)
  /-- The option list ends in the middle of a pair. -/
  | unfinishedOption (key : String)
  | unknownProvider (name : String)
  | notADiagramProvider (name : String)
  | diagramWithoutProvider
  deriving DecidableEq, Repr, Inhabited

namespace Cause

/-- The code of a cause. -/
def code : Cause → String
  | unexpected _ => "W100"
  | loopWithoutSeparator | loopWithoutVariable | loopWithoutSource => "W101"
  | invalidExpression .. => "W102"
  | conditionalLeftOpen => "W103"
  | imageWithoutFile => "W104"
  | unknownOption _ | unknownOptionValue .. | notAnInteger .. => "W105"
  | blankInKey .. | strayBeforeQuote _ | unfinishedOption _ => "W106"
  | unknownProvider _ | notADiagramProvider _ | diagramWithoutProvider => "W107"

/-- The wording of a cause. -/
def message : Cause → String
  | unexpected kind => "Unexpected tag " ++ kind.display ++ " at this location"
  | loopWithoutSeparator => "Malformed tag m:for, no '|' found."
  | loopWithoutVariable => "Malformed tag m:for : no iteration variable specified."
  | loopWithoutSource => "Malformed tag m:for : no query expression specified."
  | invalidExpression source details =>
    "Expression \"" ++ source ++ "\" is invalid: " ++ String.intercalate ", " details
  | conditionalLeftOpen => "m:elseif, m:else or m:endif expected here."
  | imageWithoutFile => "m:image tag requires a \"file\" option."
  | unknownOption key => "Invalid option " ++ key ++ " : unknown option name"
  | unknownOptionValue key value =>
    "Invalid option " ++ key ++ " : unknown option value (" ++ value ++ ")."
  | notAnInteger key value => "Invalid option " ++ key ++ " : " ++ value ++ " is not an integer"
  | blankInKey index key =>
    "A forbidden character is present at the index " ++ toString index ++
      " of the key definition '" ++ key ++ "'."
  | strayBeforeQuote key =>
    "A forbidden character is present after the key value separator of the key : '" ++ key ++ "'."
  | unfinishedOption key => "Incomplete option '" ++ key ++ "' : missing closing quote."
  | unknownProvider name =>
    "The image tag is referencing an unknown diagram provider : '" ++ name ++ "'"
  | notADiagramProvider name =>
    "The image tag is referencing a provider that is not a diagram provider : '" ++ name ++ "'"
  | diagramWithoutProvider => "The m:diagram tag requires a \"provider\" option."

end Cause

/-- A cause and the run where it shows. -/
structure Problem where
  cause : Cause
  run : Option RunId
  deriving DecidableEq, Repr, Inhabited

namespace Problem

def code (p : Problem) : String := p.cause.code

def message (p : Problem) : String := p.cause.message

/-- The message with the run it belongs to. -/
def display (p : Problem) : String :=
  match p.run with
  | some id => p.message ++ " (" ++ runLabel id ++ ")"
  | none => p.message

end Problem

/-- What ends a parse. -/
inductive ParseError where
  /-- A field was to be read where none opens; `found` names what stands there. -/
  | notAtField (found : String)
  /-- A field with a table before its end. -/
  | tableInsideField (opening : RunId) (table : TableId)
  /-- A field that the body's end leaves open. -/
  | unterminatedField (opening : RunId)
  /-- A reserved tag, at the field that opens with `run`. -/
  | unsupportedTag (keyword : Keyword) (run : RunId)
  | nestingTooDeep (limit : Nat)
  deriving DecidableEq, Repr, Inhabited

namespace ParseError

/-- The code of an error. -/
def code : ParseError → String
  | notAtField _ => "E040"
  | tableInsideField .. => "E041"
  | unterminatedField _ => "E042"
  | unsupportedTag .. => "E043"
  | nestingTooDeep _ => "E087"

/-- The wording of an error. -/
def message : ParseError → String
  | notAtField found => "Expected a field begin, found " ++ found
  | tableInsideField opening table =>
    "Found " ++ tableLabel table ++ " inside the field starting at " ++ runLabel opening
  | unterminatedField opening => "Field starting at " ++ runLabel opening ++ " has no field end"
  | unsupportedTag keyword _ => "Unsupported tag " ++ keyword.spelling
  | nestingTooDeep limit => "Maximum nesting depth " ++ toString limit ++ " exceeded"

/-- The run an error is located at. -/
def run? : ParseError → Option RunId
  | tableInsideField opening _ => some opening
  | unterminatedField opening => some opening
  | unsupportedTag _ run => some run
  | notAtField _ | nestingTooDeep _ => none

end ParseError

end DocTemplate
