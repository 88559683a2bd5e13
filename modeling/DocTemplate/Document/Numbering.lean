import DocTemplate.Document.Basic

/-!
# Numbering a body

Runs and tables get consecutive numbers from zero, each in document order; a table gets its number
before anything in its cells does.
-/

namespace DocTemplate

/-- The next free numbers. -/
structure Counters where
  run : RunId := 0
  table : TableId := 0
  deriving DecidableEq, Repr, Inhabited

namespace Body

/-- Number the runs of a paragraph from `first` on. -/
def numberRuns (first : RunId) (runs : List Run) : List Run :=
  (runs.zipIdx first).map (fun (r, i) => { r with id := i })

mutual

/-- Number a body; `done` holds the elements already numbered, last first. -/
def numberElements (c : Counters) (done : List Element) : List Element → Body × Counters
  | [] => (done.reverse, c)
  | e :: es =>
    let (e, c) := numberElement c e
    numberElements c (e :: done) es

/-- Number a paragraph or a table. -/
def numberElement (c : Counters) : Element → Element × Counters
  | .paragraph runs =>
    (.paragraph (numberRuns c.run runs), { c with run := c.run + runs.length })
  | .table _ rows =>
    let (rows, c') := numberRows { c with table := c.table + 1 } [] rows
    (.table c.table rows, c')

/-- Number the rows of a table. -/
def numberRows (c : Counters) (done : List (List Body)) :
    List (List (List Element)) → List (List Body) × Counters
  | [] => (done.reverse, c)
  | r :: rs =>
    let (r, c) := numberCells c [] r
    numberRows c (r :: done) rs

/-- Number the cells of a row. -/
def numberCells (c : Counters) (done : List Body) : List (List Element) → List Body × Counters
  | [] => (done.reverse, c)
  | b :: bs =>
    let (b, c) := numberElements c [] b
    numberCells c (b :: done) bs

end

/-- The body with fresh numbers, and how many runs and tables there are. -/
def number (b : Body) : Body × Counters := numberElements {} [] b

/-- The body with fresh numbers. -/
def numbered (b : Body) : Body := b.number.1

/-- The numbers of the body are the ones that numbering would give. -/
def isNumbered (b : Body) : Bool :=
  b.runs.map Run.id = List.range b.runs.length && b.tableIds = List.range b.tableIds.length

end Body

end DocTemplate
