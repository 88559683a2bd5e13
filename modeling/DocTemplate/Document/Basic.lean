/-!
# Document bodies

A body is a list of paragraphs and tables, and the cells of a table hold bodies again. The runs of a
paragraph carry visible text, fragments of a field's instruction, or a mark that opens, separates or
closes a field.

Runs and tables are numbered separately, in document order; `Document/Numbering` gives the numbers.
-/

namespace DocTemplate

/-- Number of a run. -/
abbrev RunId := Nat

/-- Number of a table. -/
abbrev TableId := Nat

/-- How messages name a run. -/
def runLabel (id : RunId) : String := "run #" ++ toString id

/-- How messages name a table. -/
def tableLabel (id : TableId) : String := "table #" ++ toString id

/-- The marks that delimit a field. -/
inductive FieldMark where
  | opening
  | separator
  | closing
  deriving DecidableEq, Repr, Inhabited

/-- A stretch of a paragraph with one formatting. -/
structure Run where
  id : RunId := 0
  /-- Visible text. -/
  text : String := ""
  /-- Pieces of a field's instruction. -/
  fragments : List String := []
  mark : Option FieldMark := none
  deriving DecidableEq, Repr, Inhabited

namespace Run

/-- The run opens a field. -/
def isOpening (r : Run) : Bool := r.mark = some .opening

/-- The run closes a field. -/
def isClosing (r : Run) : Bool := r.mark = some .closing

/-- The fragments put together. -/
def instruction (r : Run) : List Char := r.fragments.flatMap String.toList

end Run

/-- A paragraph, or a table with the bodies of its cells row by row. -/
inductive Element where
  | paragraph (runs : List Run)
  | table (id : TableId) (rows : List (List (List Element)))
  deriving Inhabited

/-- A document, or what a table cell holds. -/
abbrev Body := List Element

namespace Body

mutual

/-- Put the runs of a body in front of `acc`, the last one first. -/
def pushRuns (acc : List Run) : List Element → List Run
  | [] => acc
  | e :: es => pushRuns (pushElementRuns acc e) es

/-- The same for one element. -/
def pushElementRuns (acc : List Run) : Element → List Run
  | .paragraph runs => runs.reverseAux acc
  | .table _ rows => pushRowRuns acc rows

/-- The same for the rows of a table. -/
def pushRowRuns (acc : List Run) : List (List (List Element)) → List Run
  | [] => acc
  | r :: rs => pushRowRuns (pushCellRuns acc r) rs

/-- The same for the cells of a row. -/
def pushCellRuns (acc : List Run) : List (List Element) → List Run
  | [] => acc
  | c :: cs => pushCellRuns (pushRuns acc c) cs

end

/-- All runs in document order: those of a table stand at the table's place, row by row. -/
def runs (b : Body) : List Run := (pushRuns [] b).reverse

mutual

/-- Count the runs of a body on from `n`. -/
def countRuns (n : Nat) : List Element → Nat
  | [] => n
  | e :: es => countRuns (countElementRuns n e) es

/-- The same for one element. -/
def countElementRuns (n : Nat) : Element → Nat
  | .paragraph runs => n + runs.length
  | .table _ rows => countRowRuns n rows

/-- The same for the rows of a table. -/
def countRowRuns (n : Nat) : List (List (List Element)) → Nat
  | [] => n
  | r :: rs => countRowRuns (countCellRuns n r) rs

/-- The same for the cells of a row. -/
def countCellRuns (n : Nat) : List (List Element) → Nat
  | [] => n
  | c :: cs => countCellRuns (countRuns n c) cs

end

/-- How many runs there are, table cells included. -/
def runCount (b : Body) : Nat := countRuns 0 b

mutual

/-- Look for a run with a number, element by element, up to the first one. -/
def findRunIn? (id : RunId) : List Element → Option Run
  | [] => none
  | e :: es =>
    match findElementRun? id e with
    | some r => some r
    | none => findRunIn? id es

/-- The same for one element. -/
def findElementRun? (id : RunId) : Element → Option Run
  | .paragraph runs => runs.find? (fun r => r.id = id)
  | .table _ rows => findRowRun? id rows

/-- The same for the rows of a table. -/
def findRowRun? (id : RunId) : List (List (List Element)) → Option Run
  | [] => none
  | row :: rows =>
    match findCellRun? id row with
    | some r => some r
    | none => findRowRun? id rows

/-- The same for the cells of a row. -/
def findCellRun? (id : RunId) : List (List Element) → Option Run
  | [] => none
  | c :: cs =>
    match findRunIn? id c with
    | some r => some r
    | none => findCellRun? id cs

end

/-- The first run with a number. -/
def findRun? (b : Body) (id : RunId) : Option Run := findRunIn? id b

mutual

/-- Put the table numbers of a body in front of `acc`, the last one first. -/
def pushTables (acc : List TableId) : List Element → List TableId
  | [] => acc
  | e :: es => pushTables (pushElementTables acc e) es

/-- The same for one element: a table stands before the tables in its cells. -/
def pushElementTables (acc : List TableId) : Element → List TableId
  | .paragraph _ => acc
  | .table id rows => pushRowTables (id :: acc) rows

/-- The same for the rows of a table. -/
def pushRowTables (acc : List TableId) : List (List (List Element)) → List TableId
  | [] => acc
  | r :: rs => pushRowTables (pushCellTables acc r) rs

/-- The same for the cells of a row. -/
def pushCellTables (acc : List TableId) : List (List Element) → List TableId
  | [] => acc
  | c :: cs => pushCellTables (pushTables acc c) cs

end

/-- The numbers of all tables, in document order. -/
def tableIds (b : Body) : List TableId := (pushTables [] b).reverse

end Body

end DocTemplate
