import DocTemplate.Log.Event
import DocTemplate.Numeral.Digits
import DocTemplate.Provider
import DocTemplate.Text.Blank

/-!
# Configuration

What a user can choose at run time: how events are logged, how results are shown, and which
providers templates may refer to. What a configuration file leaves open is taken from the
environment, and what the environment leaves open has a fixed default.
-/

namespace DocTemplate

/-- The variables of the environment. -/
abbrev Environment := String → Option String

namespace Environment

/-- The variable that asks for JSON in the log. -/
def structured : String := "DOCGEN_LOGGING_USE_STRUCTURED"

/-- The variable that turns the log on and off. -/
def console : String := "DOCGEN_LOGGING_ENABLE_CONSOLE"

/-- The variable with the level of the log. -/
def least : String := "DOCGEN_LOGGING_MIN_LEVEL"

/-- The variable with the format of results. -/
def format : String := "DOCGEN_OUTPUT_FORMAT"

/-- The variable with the number of problems to list. -/
def maxReported : String := "DOCGEN_OUTPUT_MAX_REPORTED_ERRORS"

/-- Every variable that counts. -/
def names : List String := [structured, console, least, format, maxReported]

/-- A variable that is set and understood, or the default. -/
def read {α : Type} (env : Environment) (name : String) (parse? : String → Option α) (default : α) :
    α :=
  ((env name).bind parse?).getD default

end Environment

/-- Either `true` or `false`, exactly. -/
def bool? (s : String) : Option Bool :=
  if s = "true" then some true else if s = "false" then some false else none

/-- How events are logged. -/
structure LogPreferences where
  /-- As JSON and not as text. -/
  structured : Bool := false
  /-- At all. -/
  console : Bool := true
  /-- What does not pass this level is left out. -/
  least : LogLevel := .warning
  deriving DecidableEq, Repr, Inhabited

/-- How a result is shown. -/
inductive OutputFormat where
  /-- Problems and counts. -/
  | summary
  /-- The whole template as JSON. -/
  | json
  deriving DecidableEq, Repr, Inhabited

namespace OutputFormat

/-- How a configuration names a format. -/
def word : OutputFormat → String
  | summary => "summary"
  | json => "json"

/-- The format of a configuration's word. -/
def ofWord? (s : String) : Option OutputFormat := [summary, json].find? (fun f => f.word = s)

end OutputFormat

/-- What is shown of a result. -/
structure OutputPreferences where
  format : OutputFormat := .summary
  /-- How many problems a summary lists; zero for all. -/
  maxReported : Nat := 0
  deriving DecidableEq, Repr, Inhabited

/-- Everything a user can choose. -/
structure Config where
  logging : LogPreferences := {}
  output : OutputPreferences := {}
  providers : List Provider := []

/-- The logging preferences that an environment amounts to. -/
def LogPreferences.ofEnvironment (env : Environment) : LogPreferences where
  structured := env.read Environment.structured bool? false
  console := env.read Environment.console bool? true
  least := env.read Environment.least LogLevel.parse? .warning

/-- The output preferences that an environment amounts to. -/
def OutputPreferences.ofEnvironment (env : Environment) : OutputPreferences where
  format := env.read Environment.format (fun s => OutputFormat.ofWord? s.toLower) .summary
  maxReported := env.read Environment.maxReported
    (fun s => Numeral.unsignedBelow? UInt64.size s.toList) 0

/-! ## Errors -/

/-- Why there is no configuration, or not one to work with. -/
inductive ConfigError where
  | unreadable (path reason : String)
  /-- The text is not TOML, or the TOML does not describe a configuration. -/
  | malformed
  /-- A provider with a blank name. -/
  | namelessProvider
  | repeatedProvider (name : String)
  deriving DecidableEq, Repr, Inhabited

namespace ConfigError

/-- The code of an error. -/
def code : ConfigError → String
  | unreadable .. => "E010"
  | malformed | namelessProvider | repeatedProvider _ => "E011"

/-- The wording of an error. -/
def message : ConfigError → String
  | unreadable path reason => "Cannot read configuration file " ++ path ++ ": " ++ reason
  | malformed => "Invalid configuration TOML: the text does not describe a configuration"
  | namelessProvider => "Invalid configuration: provider name must not be empty"
  | repeatedProvider name => "Invalid configuration: provider '" ++ name ++ "' is declared twice"

end ConfigError

namespace Config

/-- The configuration that an environment amounts to; it has no providers. -/
def ofEnvironment (env : Environment) : Config where
  logging := .ofEnvironment env
  output := .ofEnvironment env

/-- The first provider with a blank name or with a name that was given before; `seen` holds the
names before these. -/
def checkProviders (seen : List String) : List Provider → Except ConfigError Unit
  | [] => .ok ()
  | p :: ps =>
    if (Text.trim p.name.toList).isEmpty then .error .namelessProvider
    else if seen.contains p.name then .error (.repeatedProvider p.name)
    else checkProviders (p.name :: seen) ps

/-- Every provider has a name of its own. -/
def validate (c : Config) : Except ConfigError Unit := checkProviders [] c.providers

end Config

end DocTemplate
