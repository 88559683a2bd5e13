import DocTemplate.Document.Numbering
import DocTemplate.Proofs.DocumentOrder
import Mathlib.Algebra.GroupWithZero.Nat

/-!
# Numbering

Numbering a body goes through it once, with the next free numbers in hand. It takes one number for
each run, and it does not look at the numbers that runs and tables have. Counting runs and looking
one up go through a body of their own accord, element by element and cell by cell, and agree with
the order in which runs are numbered.

## Main statements

- `Body.runCount_eq_length_runs`, `Body.findRun?_eq_find?_runs`: counting and looking up go by
  document order
- `Body.run_number`: numbering counts the runs
- `Body.number_unnumbered`: numbering does not depend on the numbers that there are
-/

namespace DocTemplate

namespace Body

/-! ## Counting runs -/

mutual

/-- What has been counted before is only added to. -/
theorem countRuns_eq (n : Nat) : ∀ b : List Element, countRuns n b = n + countRuns 0 b
  | [] => rfl
  | e :: es => by
    rw [countRuns, countRuns, countRuns_eq (countElementRuns n e) es,
      countRuns_eq (countElementRuns 0 e) es, countElementRuns_eq n e, Nat.add_assoc]

theorem countElementRuns_eq (n : Nat) :
    ∀ e : Element, countElementRuns n e = n + countElementRuns 0 e
  | .paragraph runs => by rw [countElementRuns, countElementRuns, Nat.zero_add]
  | .table _ rows => by rw [countElementRuns, countElementRuns, countRowRuns_eq n rows]

theorem countRowRuns_eq (n : Nat) :
    ∀ rows : List (List (List Element)), countRowRuns n rows = n + countRowRuns 0 rows
  | [] => rfl
  | r :: rs => by
    rw [countRowRuns, countRowRuns, countRowRuns_eq (countCellRuns n r) rs,
      countRowRuns_eq (countCellRuns 0 r) rs, countCellRuns_eq n r, Nat.add_assoc]

theorem countCellRuns_eq (n : Nat) :
    ∀ cells : List (List Element), countCellRuns n cells = n + countCellRuns 0 cells
  | [] => rfl
  | c :: cs => by
    rw [countCellRuns, countCellRuns, countCellRuns_eq (countRuns n c) cs,
      countCellRuns_eq (countRuns 0 c) cs, countRuns_eq n c, Nat.add_assoc]

end

theorem countCellRuns_zero (cells : List (List Element)) :
    countCellRuns 0 cells = (cells.map runCount).sum := by
  induction cells with
  | nil => rfl
  | cons c cs ih => rw [countCellRuns, countCellRuns_eq, ih, List.map_cons, List.sum_cons, runCount]

theorem countRowRuns_zero (rows : List (List (List Element))) :
    countRowRuns 0 rows = (rows.map fun row => (row.map runCount).sum).sum := by
  induction rows with
  | nil => rfl
  | cons r rs ih =>
    rw [countRowRuns, countRowRuns_eq, ih, countCellRuns_zero, List.map_cons, List.sum_cons]

/-- A paragraph adds its length to the count. -/
theorem runCount_paragraph (rs : List Run) (b : Body) :
    runCount (.paragraph rs :: b) = rs.length + runCount b := by
  rw [runCount, countRuns, countElementRuns, countRuns_eq, Nat.zero_add, runCount]

/-- A table adds the counts of all its cells. -/
theorem runCount_table (id : TableId) (rows : List (List (List Element))) (b : Body) :
    runCount (.table id rows :: b) =
      (rows.map fun row => (row.map runCount).sum).sum + runCount b := by
  rw [runCount, countRuns, countElementRuns, countRuns_eq, countRowRuns_zero, runCount]

/-- **Counting counts the runs in document order.** -/
theorem runCount_eq_length_runs (b : Body) : b.runCount = b.runs.length := by
  induction b using elementInduction with
  | nil => rfl
  | paragraph rs b ih => rw [runCount_paragraph, runs_paragraph, List.length_append, ih]
  | table id rows b cells ih =>
    -- The counts of the cells of a row are the lengths of their parts of the order.
    have hrow : ∀ row ∈ rows, (row.map runCount).sum = (row.flatMap runs).length := by
      intro row hrow
      rw [List.length_flatMap, List.map_congr_left (cells row hrow)]
    rw [runCount_table, runs_table, List.length_append, ih, List.length_flatMap,
      List.map_congr_left hrow]

mutual

/-- Numbering takes one number for each run. -/
theorem run_numberElements (c : Counters) (done : List Element) :
    ∀ b : List Element, (numberElements c done b).2.run = countRuns c.run b
  | [] => rfl
  | e :: es => by
    rw [numberElements, run_numberElements _ _ es, run_numberElement c e, countRuns]

theorem run_numberElement (c : Counters) :
    ∀ e : Element, (numberElement c e).2.run = countElementRuns c.run e
  | .paragraph _ => rfl
  | .table _ rows => by
    -- The table's own number comes from the other counter.
    rw [numberElement, countElementRuns]
    exact run_numberRows _ [] rows

theorem run_numberRows (c : Counters) (done : List (List Body)) :
    ∀ rows : List (List (List Element)),
      (numberRows c done rows).2.run = countRowRuns c.run rows
  | [] => rfl
  | r :: rs => by
    rw [numberRows, run_numberRows _ _ rs, run_numberCells c [] r, countRowRuns]

theorem run_numberCells (c : Counters) (done : List Body) :
    ∀ cells : List (List Element),
      (numberCells c done cells).2.run = countCellRuns c.run cells
  | [] => rfl
  | b :: bs => by
    rw [numberCells, run_numberCells _ _ bs, run_numberElements c [] b, countCellRuns]

end

theorem run_number (b : Body) : b.number.2.run = b.runCount := run_numberElements {} [] b

/-! ## Looking a run up -/

theorem findCellRun?_eq (i : RunId) (cells : List (List Element)) :
    findCellRun? i cells = cells.findSome? fun c => findRun? c i := by
  induction cells with
  | nil => rfl
  | cons c cs ih =>
    rw [findCellRun?, ih, List.findSome?_cons, findRun?]
    cases findRunIn? i c <;> rfl

theorem findRowRun?_eq (i : RunId) (rows : List (List (List Element))) :
    findRowRun? i rows = rows.findSome? fun row => row.findSome? fun c => findRun? c i := by
  induction rows with
  | nil => rfl
  | cons r rs ih =>
    rw [findRowRun?, ih, List.findSome?_cons, findCellRun?_eq]
    cases r.findSome? fun c => findRun? c i <;> rfl

/-- In a paragraph the first run with the number is found, or else the search goes on behind it. -/
theorem findRun?_paragraph (rs : List Run) (b : Body) (i : RunId) :
    findRun? (.paragraph rs :: b) i = (rs.find? fun r => r.id = i).or (findRun? b i) := by
  rw [findRun?, findRunIn?, findElementRun?, findRun?]
  cases rs.find? fun r => r.id = i <;> rfl

/-- In a table the first cell in which something is found tells, row by row. -/
theorem findRun?_table (id : TableId) (rows : List (List (List Element))) (b : Body) (i : RunId) :
    findRun? (.table id rows :: b) i =
      (rows.findSome? fun row => row.findSome? fun c => findRun? c i).or (findRun? b i) := by
  rw [findRun?, findRunIn?, findElementRun?, findRowRun?_eq, findRun?]
  cases rows.findSome? fun row => row.findSome? fun c => findRun? c i <;> rfl

/-- A search depends only on what it gives in the list. -/
theorem findSome?_congr {α β : Type} {f g : α → Option β} {xs : List α}
    (h : ∀ x ∈ xs, f x = g x) : xs.findSome? f = xs.findSome? g := by
  rw [← List.head?_filterMap, List.filterMap_congr h, List.head?_filterMap]

/-- **Looking up finds the first run with the number in document order.** -/
theorem findRun?_eq_find?_runs (b : Body) (i : RunId) :
    b.findRun? i = b.runs.find? fun r => r.id = i := by
  induction b using elementInduction with
  | nil => rfl
  | paragraph rs b ih => rw [findRun?_paragraph, runs_paragraph, List.find?_append, ih]
  | table id rows b cells ih =>
    -- A row has the number in the first cell that has it.
    have hrow : ∀ row ∈ rows, (row.findSome? fun c => findRun? c i) =
        (row.flatMap runs).find? fun r => r.id = i := by
      intro row hrow
      rw [List.find?_flatMap]
      exact findSome?_congr (cells row hrow)
    rw [findRun?_table, runs_table, List.find?_append, ih, List.find?_flatMap,
      findSome?_congr hrow]

/-! ## Numbers that there are -/

mutual

/-- Elements without the numbers of their runs and tables. -/
def unnumberedElements : List Element → Body
  | [] => []
  | e :: es => unnumberedElement e :: unnumberedElements es

/-- An element without numbers. -/
def unnumberedElement : Element → Element
  | .paragraph runs => .paragraph (runs.map fun r => { r with id := 0 })
  | .table _ rows => .table 0 (unnumberedRows rows)

/-- Rows without numbers. -/
def unnumberedRows : List (List (List Element)) → List (List Body)
  | [] => []
  | r :: rs => unnumberedCells r :: unnumberedRows rs

/-- Cells without numbers. -/
def unnumberedCells : List (List Element) → List Body
  | [] => []
  | c :: cs => unnumberedElements c :: unnumberedCells cs

end

/-- A body without the numbers of its runs and tables. -/
def unnumbered (b : Body) : Body := unnumberedElements b

theorem numberRuns_unnumbered (first : RunId) (runs : List Run) :
    numberRuns first (runs.map fun r => { r with id := 0 }) = numberRuns first runs := by
  simp [numberRuns, List.zipIdx_map]

mutual

/-- Numbering does not look at the numbers that there are. -/
theorem numberElements_unnumbered (c : Counters) (done : List Element) :
    ∀ b : List Element, numberElements c done (unnumberedElements b) = numberElements c done b
  | [] => by rw [unnumberedElements]
  | e :: es => by
    rw [unnumberedElements, numberElements, numberElements, numberElement_unnumbered c e]
    exact numberElements_unnumbered _ _ es

theorem numberElement_unnumbered (c : Counters) :
    ∀ e : Element, numberElement c (unnumberedElement e) = numberElement c e
  | .paragraph runs => by
    rw [unnumberedElement, numberElement, numberElement, numberRuns_unnumbered, List.length_map]
  | .table _ rows => by
    rw [unnumberedElement, numberElement, numberElement, numberRows_unnumbered _ [] rows]

theorem numberRows_unnumbered (c : Counters) (done : List (List Body)) :
    ∀ rows : List (List (List Element)),
      numberRows c done (unnumberedRows rows) = numberRows c done rows
  | [] => by rw [unnumberedRows]
  | r :: rs => by
    rw [unnumberedRows, numberRows, numberRows, numberCells_unnumbered c [] r]
    exact numberRows_unnumbered _ _ rs

theorem numberCells_unnumbered (c : Counters) (done : List Body) :
    ∀ cells : List (List Element),
      numberCells c done (unnumberedCells cells) = numberCells c done cells
  | [] => by rw [unnumberedCells]
  | b :: bs => by
    rw [unnumberedCells, numberCells, numberCells, numberElements_unnumbered c [] b]
    exact numberCells_unnumbered _ _ bs

end

theorem number_unnumbered (b : Body) : b.unnumbered.number = b.number :=
  numberElements_unnumbered {} [] b

end Body

end DocTemplate
