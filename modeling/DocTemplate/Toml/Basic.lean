/-!
# TOML values

What a configuration file amounts to once its tables, dotted keys and arrays of tables are put
together. Floating point numbers, dates and times are accepted in a file, and since no setting takes
one their value is not kept.

While a file is read, its tables are not final: a later header may add to a table that an earlier
one only mentioned. A node remembers how its table came about, which decides who may add to it.
-/

namespace DocTemplate

/-- A TOML value. -/
inductive Toml where
  | string (s : String)
  | integer (n : Int)
  | float
  /-- A date, a time of day, or both. -/
  | moment
  | boolean (b : Bool)
  | array (items : List Toml)
  | table (entries : List (String × Toml))
  deriving Inhabited

namespace Toml

/-- A part of a file that is still being read. -/
inductive Node where
  /-- A value that nothing can be added to, arrays and inline tables included. -/
  | value (v : Toml)
  /-- A table. `implied` means that no header of its own has defined it yet, and `dotted` that a
  dotted key has made it. -/
  | table (implied dotted : Bool) (entries : List (String × Node))
  /-- An array of tables, the last one first. -/
  | tables (items : List (List (String × Node)))
  deriving Inhabited

/-- The entries of a table that is still being read. -/
abbrev Entries := List (String × Node)

namespace Node

mutual

/-- The value of a node. -/
def toToml : Node → Toml
  | .value v => v
  | .table _ _ entries => .table (entriesToToml entries)
  | .tables items => .array (tablesToToml items [])

/-- The values of several entries. -/
def entriesToToml : List (String × Node) → List (String × Toml)
  | [] => []
  | e :: es => entryToToml e :: entriesToToml es

/-- The value of an entry. -/
def entryToToml : String × Node → String × Toml
  | (key, node) => (key, toToml node)

/-- The tables of an array, which are listed last first, in their order. -/
def tablesToToml : List (List (String × Node)) → List Toml → List Toml
  | [], done => done
  | t :: ts, done => tablesToToml ts (.table (entriesToToml t) :: done)

end

end Node

namespace Entries

/-- The node at a key. -/
def get? (es : Entries) (key : String) : Option Node :=
  (es.find? (fun e => e.1 = key)).map Prod.snd

/-- Put a node at a key. -/
def set (es : Entries) (key : String) (node : Node) : Entries :=
  if es.any (fun e => e.1 = key) then es.map (fun e => if e.1 = key then (key, node) else e)
  else es ++ [(key, node)]

/-- Add a key with its value to the table that a dotted key leads to from these entries, which
belong to a table made by a dotted key or not. The tables on the way must be ones that dotted keys
made, and no key can be set twice. -/
def assign (dotted : Bool) (path : List String) (key : String) (v : Toml) (es : Entries) :
    Option Entries :=
  go (!path.isEmpty) dotted path es
where
  /-- The rest of the way; `long` tells whether there was any way to go. -/
  go (long dotted : Bool) : List String → Entries → Option Entries
    | [], es =>
      if dotted != long || (es.get? key).isSome then none else some (es ++ [(key, .value v)])
    | k :: path, es => match es.get? k with
      | none => (go long true path []).map fun inner => es.set k (.table true true inner)
      | some (.table true dotted inner) =>
        (go long dotted path inner).map fun inner => es.set k (.table true dotted inner)
      | some (.table false _ _) => none
      | some (.tables (t :: ts)) => (go long false path t).map fun t => es.set k (.tables (t :: ts))
      | some (.tables []) | some (.value _) => none

/-- Change the entries of the table that a header's path leads to. Tables that are missing on the
way are implied; of an array of tables the last one is meant. -/
def within (path : List String) (f : Entries → Option Entries) (es : Entries) : Option Entries :=
  match path with
  | [] => f es
  | k :: path => match es.get? k with
    | none => (within path f []).map fun inner => es.set k (.table true false inner)
    | some (.table implied dotted inner) =>
      (within path f inner).map fun inner => es.set k (.table implied dotted inner)
    | some (.tables (t :: ts)) => (within path f t).map fun t => es.set k (.tables (t :: ts))
    | some (.tables []) | some (.value _) => none

/-- Define the table at a key by a header; one that was only implied by longer headers keeps what it
has. -/
def define (key : String) (es : Entries) : Option Entries :=
  match es.get? key with
  | none => some (es.set key (.table false false []))
  | some (.table true false inner) => some (es.set key (.table false false inner))
  | some _ => none

/-- Begin another table of the array at a key. -/
def extend (key : String) (es : Entries) : Option Entries :=
  match es.get? key with
  | none => some (es.set key (.tables [[]]))
  | some (.tables ts) => some (es.set key (.tables ([] :: ts)))
  | some _ => none

end Entries

end Toml

end DocTemplate
