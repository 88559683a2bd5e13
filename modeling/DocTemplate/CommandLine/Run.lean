import DocTemplate.CommandLine.Summary
import DocTemplate.Config.Reader
import DocTemplate.Json.Printer

/-!
# The command line

The program takes the path of a document and options. Everything it does is described here as a
function of its arguments, the environment and the files there are; reading, printing and the clock
are left to whoever runs it. Work is done in three steps, so that it can be timed: `start` settles
what to do, `Job.process` does it, and `Job.finish` says what to print.
-/

namespace DocTemplate.CommandLine

/-! ## What is printed -/

/-- Something to print on the error channel. -/
inductive Notice where
  | text (line : String)
  | event (structured : Bool) (e : Event)

/-- A notice as it is printed at a time. -/
def Notice.line (time : String) : Notice → String
  | text line => line
  | event false e => e.line
  | event true e => (e.encode (some time)).compact

/-- What a run of the program amounts to. -/
structure Outcome where
  /-- Zero if all went well. -/
  exit : UInt32 := 0
  stdout : List String := []
  stderr : List Notice := []

/-! ## Options -/

/-- What the arguments ask for. -/
structure Options where
  path : String
  json : Bool := false
  config : Option String := none
  quiet : Bool := false
  deriving DecidableEq, Repr, Inhabited

/-- Read options one after another; what is not understood is passed over with a warning. -/
def Options.read (o : Options) : List String → Options × List String
  | [] => (o, [])
  | "--json" :: args => Options.read { o with json := true } args
  | "--quiet" :: args => Options.read { o with quiet := true } args
  | "--config" :: path :: args => Options.read { o with config := some path } args
  | ["--config"] => (o, ["Warning: --config requires a file path"])
  | arg :: args =>
    let (o, warnings) := Options.read o args
    (o, ("Warning: Unknown option '" ++ arg ++ "'") :: warnings)

/-- What is said to someone who gives no argument. -/
def usage (program : String) : List String :=
  ["Usage: " ++ program ++ " <document.json> [options]",
    "       " ++ program ++ " --help"]

/-- What is said to someone who asks. -/
def help (program : String) : List String :=
  ["Template body parser v0.1.0",
    "Parses the tags of a document body into a template tree",
    "",
    "USAGE:",
    "    " ++ program ++ " <document.json> [options]",
    "",
    "ARGUMENTS:",
    "    <document.json>    JSON export of a document body",
    "",
    "OPTIONS:",
    "    --help              Show this help message",
    "    --json              Print the template tree as JSON",
    "    --config FILE       Runtime configuration (logging, output, providers)",
    "    --quiet             Suppress console logging",
    "",
    "EXIT STATUS:",
    "    0    Template parsed, possibly with recoverable diagnostics",
    "    1    Document could not be read or a fatal parse error occurred",
    "",
    "BUILD CONFIGURATION:",
    "    " ++ Limits.sourceLine]

/-- How an error is announced. -/
def errorLine (code message : String) : String := "error[" ++ code ++ "]: " ++ message

/-! ## Jobs -/

/-- A document to process. -/
structure Job where
  path : String
  config : Config
  /-- What was said before the work. -/
  notices : List Notice := []

/-- A configuration with what the arguments ask for. -/
def Options.adjust (o : Options) (c : Config) : Config where
  logging := { c.logging with console := c.logging.console && !o.quiet }
  output := { c.output with format := if o.json then .json else c.output.format }
  providers := c.providers

/-- Settle what to do; without a document to process, the run is over. -/
def start (program : String) (args : List String) (env : Environment) (storage : Storage) :
    Except Outcome Job :=
  match args with
  | [] => .error { exit := 1, stderr := (usage program).map .text }
  | "--help" :: _ => .error { stdout := help program }
  | path :: args =>
    let (options, warnings) := Options.read { path := path } args
    let notices := warnings.map Notice.text
    let config := match options.config with
      | some file => Config.load env storage file
      | none => .ok (.ofEnvironment env)
    match config with
    | .error e => .error { exit := 1, stderr := notices ++ [.text (errorLine e.code e.message)] }
    | .ok c => .ok { path := path, config := options.adjust c, notices := notices }

namespace Job

/-- Do the work. -/
def process (job : Job) (storage : Storage) : Logged (Except ProcessingError Report) :=
  job.config.processFile storage job.path

/-- The events that the preferences let pass, of which the first says that logging has begun. -/
def eventNotices (job : Job) (events : List Event) : List Notice :=
  let events := Event.success "I004" "Global logging system initialized" :: events
  if job.config.logging.console then
    (events.filter (fun e => e.level.passes job.config.logging.least)).map
      (.event job.config.logging.structured)
  else []

/-- What is said about an error: what it is, where it is, and what to do about it. -/
def errorNotices (job : Job) (e : ProcessingError) : List Notice :=
  let place := match e.run? with
    | some id => ", " ++ runLabel id
    | none => ""
  [.text (errorLine e.code e.message), .text ("  --> " ++ job.path ++ place),
    .text ("  = help: " ++ (CodeInfo.of e.code).action)]

/-- What is shown of a report. -/
def shown (job : Job) (r : Report) (elapsed : Elapsed) : List String :=
  match job.config.output.format with
  | .json => [(r.encode elapsed).pretty]
  | .summary => r.summary job.path job.config.output.maxReported elapsed

/-- Say what to print about work that was done. -/
def finish (job : Job) (l : Logged (Except ProcessingError Report)) (elapsed : Elapsed) :
    Outcome :=
  let notices := job.notices ++ job.eventNotices (l.completed job.path elapsed)
  match l.value with
  | .ok r => { stdout := job.shown r elapsed, stderr := notices }
  | .error e => { exit := 1, stderr := notices ++ job.errorNotices e }

end Job

/-- A whole run that takes a given time. -/
def run (program : String) (args : List String) (env : Environment) (storage : Storage)
    (elapsed : Elapsed) : Outcome :=
  match start program args env storage with
  | .error outcome => outcome
  | .ok job => job.finish (job.process storage) elapsed

end DocTemplate.CommandLine
