import DocTemplate.Code
import DocTemplate.Document.Basic
import DocTemplate.Json.Basic
import DocTemplate.Limits
import DocTemplate.Text.Measure

/-!
# Log events

What happens while a document is processed is told as a list of events. An event has a level, a code
and a message of limited length, and may name the run it concerns and carry further values by key.

## Writing events

- `Event.line`: one line of text, with the further values as `key=value` in key order
- `Event.encode`: a JSON object, where an error also says what its code means
-/

namespace DocTemplate

/-! ## Levels -/

/-- How much attention an event deserves. -/
inductive LogLevel where
  | error
  | warning
  | info
  | debug
  deriving DecidableEq, Repr, Inhabited

namespace LogLevel

/-- Zero for what deserves the most attention. -/
def rank : LogLevel → Nat
  | error => 0
  | warning => 1
  | info => 2
  | debug => 3

/-- An event of level `l` passes a filter of level `least`. -/
def passes (l least : LogLevel) : Bool := l.rank ≤ least.rank

/-- How an event shows its level. -/
def title : LogLevel → String
  | error => "ERROR"
  | warning => "WARN"
  | info => "INFO"
  | debug => "DEBUG"

/-- How a configuration names a level. -/
def word : LogLevel → String
  | error => "error"
  | warning => "warning"
  | info => "info"
  | debug => "debug"

/-- Every level. -/
def all : List LogLevel := [error, warning, info, debug]

/-- The level of a configuration's word. -/
def ofWord? (s : String) : Option LogLevel := all.find? (fun l => l.word = s)

/-- The level that a setting outside a configuration file names: its word in any case, its rank, or
`warn`. -/
def parse? (s : String) : Option LogLevel :=
  let s := s.toLower
  if s = "warn" then some .warning
  else all.find? (fun l => l.word = s || toString l.rank = s)

end LogLevel

/-! ## Events -/

/-- Something that happened. -/
structure Event where
  level : LogLevel
  code : String
  message : String
  /-- The run it concerns. -/
  run : Option RunId := none
  /-- Further values by key. -/
  context : Dict String := {}

namespace Event

/-- An event with a message of any length; an overlong one is cut. -/
def ofMessage (level : LogLevel) (code message : String) : Event :=
  { level, code, message := Text.clip Limits.messageBytes message }

def error (code message : String) : Event := ofMessage .error code message

def warning (code message : String) : Event := ofMessage .warning code message

/-- Something that went well. -/
def success (code message : String) : Event := ofMessage .info code message

/-- A step of the work, under the code that stands for steps in general. -/
def info (message : String) : Event := ofMessage .info "I000" message

/-- A detail, under the code that stands for details in general. -/
def debug (message : String) : Event := ofMessage .debug "D000" message

/-- The event at a run. -/
def atRun (e : Event) (run : Option RunId) : Event := { e with run := run }

/-- The event with one more value. -/
def adding (e : Event) (key value : String) : Event :=
  { e with context := e.context.insert key value }

/-- The event with more values, of which a later one replaces an earlier one of the same key. -/
def addingAll (e : Event) (values : List (String × String)) : Event :=
  values.foldl (fun e (key, value) => e.adding key value) e

/-- What is known about the event's code. -/
def about (e : Event) : CodeInfo := .of e.code

/-- The event as a line of text. -/
def line (e : Event) : String :=
  let place := match e.run with
    | some id => " at " ++ runLabel id
    | none => ""
  let context := e.context.entries.map fun (key, value) => " " ++ key ++ "=" ++ value
  "[" ++ e.level.title ++ "] " ++ e.code ++ " - " ++ e.message ++ place ++ String.join context

/-- What an error's code means, as JSON. -/
def encodeMeaning (i : CodeInfo) : Json :=
  .ofMembers [
    ("description", .string i.description),
    ("recommended_action", .string i.action),
    ("recoverable", .bool i.recoverable),
    ("requires_halt", .bool i.halts)]

/-- The event as JSON, with the time at which it happened if one is given. -/
def encode (time : Option String) (e : Event) : Json :=
  .ofMembers <|
    [("category", .string e.about.category),
      ("code", .string e.code),
      ("level", .string e.level.title),
      ("message", .string e.message),
      ("severity", .string e.about.severity.title)] ++
    (if e.context.isEmpty then [] else [("context", .ofDict .string e.context)]) ++
    (if e.level = .error then [("error_metadata", encodeMeaning e.about)] else []) ++
    (e.run.map fun id => ("run", Json.nat id)).toList ++
    (time.map fun t => ("timestamp", Json.string t)).toList

end Event

/-! ## Results with events -/

/-- A result, and what happened on the way to it. -/
structure Logged (α : Type) where
  value : α
  events : List Event := []

end DocTemplate
