import DocTemplate.Config.Basic
import DocTemplate.Json.Basic
import DocTemplate.Storage
import DocTemplate.Toml.Reader

/-!
# Configuration files

A configuration is a TOML table with the parts `logging`, `output` and `providers`. A part can be
given as a table of its settings or as an array of their values in order; settings that are left out
keep their defaults, and settings that nobody knows are passed over; a date or a time in the place
of a part counts as a table without any of its settings. A word can be given as a text, or as the
only key of a table that says nothing more about it.
-/

namespace DocTemplate

/-! ## Settings -/

namespace Toml

/-- The values of the settings `names`, nothing for one that is left out. A moment sets none. -/
def settings? (names : List String) : Toml → Option (List (Option Toml))
  | .table entries => some (names.map fun n => (entries.find? (fun e => e.1 = n)).map Prod.snd)
  | .array items => some ((items.map some ++ List.replicate names.length none).take names.length)
  | .moment => some (names.map fun _ => none)
  | .string _ | .integer _ | .float | .boolean _ => none

/-- A setting that may be left out. -/
def orDefault {α : Type} (read : Toml → Option α) (default : α) : Option Toml → Option α
  | none => some default
  | some t => read t

def bool? : Toml → Option Bool
  | .boolean b => some b
  | _ => none

def text? : Toml → Option String
  | .string s => some s
  | _ => none

/-- A number from zero on. -/
def nat? : Toml → Option Nat
  | .integer n => if 0 ≤ n then some n.toNat else none
  | _ => none

/-- Every item of an array. -/
def list? {α : Type} (read : Toml → Option α) : Toml → Option (List α)
  | .array items => items.mapM read
  | _ => none

/-- Every entry of a table. -/
def dict? {α : Type} (read : Toml → Option α) : Toml → Option (Dict α)
  | .table entries =>
    (entries.mapM fun e => (read e.2).map fun v => (e.1, v)).map Dict.ofList
  | _ => none

/-- One of the words that `ofWord?` knows. -/
def choice? {α : Type} (ofWord? : String → Option α) : Toml → Option α
  | .string s => ofWord? s
  | .table [(s, .table [])] | .table [(s, .array [])] => ofWord? s
  | _ => none

end Toml

/-- How a configuration names a type of options. -/
def OptionType.word : OptionType → String
  | expression => "expression"
  | text => "string"

/-- The type of options of a configuration's word. -/
def OptionType.ofWord? (s : String) : Option OptionType :=
  [expression, text].find? (fun t => t.word = s)

/-! ## Parts -/

/-- Read logging preferences; `base` has the defaults. -/
def LogPreferences.ofToml? (base : LogPreferences) (t : Toml) : Option LogPreferences := do
  match ← t.settings? ["use_structured_logging", "enable_console_logging", "min_log_level"] with
  | [structured, console, least] =>
    return {
      structured := ← Toml.orDefault Toml.bool? base.structured structured
      console := ← Toml.orDefault Toml.bool? base.console console
      least := ← Toml.orDefault (Toml.choice? LogLevel.ofWord?) base.least least }
  | _ => none

/-- Read output preferences; `base` has the defaults. -/
def OutputPreferences.ofToml? (base : OutputPreferences) (t : Toml) :
    Option OutputPreferences := do
  match ← t.settings? ["format", "max_reported_errors"] with
  | [format, maxReported] =>
    return {
      format := ← Toml.orDefault (Toml.choice? OutputFormat.ofWord?) base.format format
      maxReported := ← Toml.orDefault Toml.nat? base.maxReported maxReported }
  | _ => none

/-- Read a provider, which has to have a name. -/
def Provider.ofToml? (t : Toml) : Option Provider := do
  match ← t.settings? ["name", "diagram", "options"] with
  | [some name, diagram, options] =>
    return {
      name := ← name.text?
      diagram := ← Toml.orDefault Toml.bool? true diagram
      options := ← Toml.orDefault (Toml.dict? (Toml.choice? OptionType.ofWord?)) {} options }
  | _ => none

/-! ## Configurations -/

namespace Config

/-- Read a configuration; `base` has the defaults. -/
def ofToml? (base : Config) (t : Toml) : Option Config := do
  match ← t.settings? ["logging", "output", "providers"] with
  | [logging, output, providers] =>
    return {
      logging := ← Toml.orDefault (LogPreferences.ofToml? base.logging) base.logging logging
      output := ← Toml.orDefault (OutputPreferences.ofToml? base.output) base.output output
      providers :=
        ← Toml.orDefault (Toml.list? Provider.ofToml?) base.providers providers }
  | _ => none

/-- The valid configuration that a text describes. -/
def ofText (env : Environment) (text : String) : Except ConfigError Config :=
  match (Toml.parse? text).bind (ofToml? (.ofEnvironment env)) with
  | none => .error .malformed
  | some c => c.validate.map fun _ => c

/-- The valid configuration that the file at a path describes. -/
def load (env : Environment) (storage : Storage) (path : String) : Except ConfigError Config :=
  match (storage path).text? with
  | .ok text => ofText env text
  | .error reason => .error (.unreadable path reason)

/-- A configuration as JSON. -/
def encode (c : Config) : Json :=
  .ofMembers [
    ("logging", .ofMembers [
      ("use_structured_logging", .bool c.logging.structured),
      ("enable_console_logging", .bool c.logging.console),
      ("min_log_level", .string c.logging.least.word)]),
    ("output", .ofMembers [
      ("format", .string c.output.format.word),
      ("max_reported_errors", .nat c.output.maxReported)]),
    ("providers", .ofList (fun p => .ofMembers [
      ("name", .string p.name),
      ("diagram", .bool p.diagram),
      ("options", .ofDict (fun t => .string t.word) p.options)]) c.providers)]

end Config

end DocTemplate
