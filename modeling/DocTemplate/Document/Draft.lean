import DocTemplate.Document.Numbering

/-!
# Drafting bodies

A draft says what a body holds without numbers: paragraphs as lists of items, where one item may
stand for several runs (a whole field), and tables. Building a draft hands out the numbers as it
goes along, so that a built body needs no numbering afterwards.
-/

namespace DocTemplate

/-- Something to put into a paragraph. -/
inductive DraftItem where
  /-- A run of visible text. -/
  | text (s : String)
  /-- A whole field whose instruction is cut over several runs. -/
  | field (parts : List String)
  | opening
  | separator
  | closing
  /-- A run with one fragment of an instruction. -/
  | instruction (s : String)
  deriving DecidableEq, Repr, Inhabited

/-- Something to put into a body. -/
inductive Draft where
  | paragraph (items : List DraftItem)
  | table (rows : List (List (List Draft)))
  deriving Inhabited

namespace DraftItem

/-- The runs of an item, numbered from `id` on. -/
def build (id : RunId) : DraftItem → List Run
  | text s => [{ id := id, text := s }]
  | field parts =>
    { id := id, mark := some .opening } ::
      (parts.zipIdx (id + 1)).map (fun (p, i) => { id := i, fragments := [p] }) ++
      [{ id := id + parts.length + 1, mark := some .closing }]
  | opening => [{ id := id, mark := some .opening }]
  | separator => [{ id := id, mark := some .separator }]
  | closing => [{ id := id, mark := some .closing }]
  | instruction s => [{ id := id, fragments := [s] }]

/-- How many runs an item stands for. -/
def size : DraftItem → Nat
  | field parts => parts.length + 2
  | _ => 1

/-- The runs of several items; `done` holds the runs already built, last first. -/
def buildAll (id : RunId) (done : List Run) : List DraftItem → List Run
  | [] => done.reverse
  | i :: is => buildAll (id + i.size) ((i.build id).reverseAux done) is

end DraftItem

namespace Draft

/-- One cell that holds `inner`, wrapped into `n` tables of one cell each. -/
def wrap (inner : List Draft) : Nat → List Draft
  | 0 => inner
  | n + 1 => [.table [[wrap inner n]]]

mutual

/-- Build the elements of a body; `done` holds those already built, last first. -/
def buildElements (c : Counters) (done : List Element) : List Draft → Body × Counters
  | [] => (done.reverse, c)
  | d :: ds =>
    let (e, c) := buildElement c d
    buildElements c (e :: done) ds

/-- Build a paragraph or a table, which takes its number before its contents. -/
def buildElement (c : Counters) : Draft → Element × Counters
  | .paragraph items =>
    (.paragraph (DraftItem.buildAll c.run [] items),
      { c with run := c.run + (items.map DraftItem.size).foldr (· + ·) 0 })
  | .table rows =>
    let (rows, c') := buildRows { c with table := c.table + 1 } [] rows
    (.table c.table rows, c')

/-- Build the rows of a table. -/
def buildRows (c : Counters) (done : List (List Body)) :
    List (List (List Draft)) → List (List Body) × Counters
  | [] => (done.reverse, c)
  | r :: rs =>
    let (r, c) := buildCells c [] r
    buildRows c (r :: done) rs

/-- Build the cells of a row. -/
def buildCells (c : Counters) (done : List Body) : List (List Draft) → List Body × Counters
  | [] => (done.reverse, c)
  | b :: bs =>
    let (b, c) := buildElements c [] b
    buildCells c (b :: done) bs

end

/-- The body of a draft. -/
def build (ds : List Draft) : Body := (buildElements {} [] ds).1

end Draft

end DocTemplate
