import DocTemplate.CommandLine.Run
import Std.Time

/-!
# The program

Hands arguments, variables and files to the command line, takes the time, and prints.
-/

namespace DocTemplate.CommandLine

/-- What stands at a path of the file system. -/
def entryAt (path : String) : IO Entry := do
  try
    return .file (.bytes (← IO.FS.readBinFile path))
  catch
    | .noFileOrDirectory .. => return .missing
    | e => return .unreadable (toString e)

/-- The value that is listed for a name. -/
def listed? {α : Type} (items : List (String × α)) (name : String) : Option α :=
  (items.find? (fun e => e.1 = name)).map Prod.snd

/-- The present moment. -/
def now : IO String := do
  let moment := Std.Time.DateTime.ofTimestamp (← Std.Time.Timestamp.now)
    Std.Time.TimeZone.ZoneRules.UTC
  return moment.format "uuuu-MM-dd'T'HH:mm:ss.SSSSSSSSSxxx"

/-- Print what a run amounts to. -/
def Outcome.print (o : Outcome) : IO UInt32 := do
  for notice in o.stderr do
    IO.eprintln (notice.line (← now))
  for line in o.stdout do
    IO.println line
  return o.exit

end DocTemplate.CommandLine

open DocTemplate CommandLine in
/-- Every argument is looked up as a path beforehand, whether or not it turns out to be one. -/
def main (args : List String) : IO UInt32 := do
  let program := ((← IO.appPath).fileName).getD ""
  let files ← args.mapM fun path => return (path, ← entryAt path)
  let settings ← Environment.names.filterMapM fun name =>
    return (← IO.getEnv name).map fun value => (name, value)
  let storage : Storage := fun path => (listed? files path).getD .missing
  let begun ← IO.monoNanosNow
  match start program args (listed? settings) storage with
  | .error outcome => outcome.print
  | .ok job =>
    let work := job.process storage
    let ended ← IO.monoNanosNow
    (job.finish work (.ofNanos (ended - begun))).print
