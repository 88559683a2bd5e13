import DocTemplate.Document.Draft
import DocTemplate.Proofs.DenseNumbering
import Mathlib.Algebra.GroupWithZero.Nat

/-!
# The numbers of a draft

A draft is numbered while it is built, item by item, with the same two counters that numbering takes
through a finished body. A built body therefore has the numbers that numbering would give it: the
runs of a paragraph count on from those before it, and a table takes its number before its cells are
built.

## Main statements

- `DraftItem.countsFrom_buildAll`: the runs of a paragraph count on
- `Draft.spans_buildElements`, `Draft.run_buildElements`: so do the elements of a body, one number
  for each run that is put into it
- `Draft.build_isNumbered`: numbering leaves a built body as it is
-/

namespace DocTemplate

/-! ## Paragraphs -/

namespace DraftItem

theorem length_build (id : RunId) (i : DraftItem) : (i.build id).length = i.size := by
  cases i with
  | field parts => simp [build, size]
  | text | opening | separator | closing | instruction => rfl

/-- The runs of an item have consecutive numbers. -/
theorem countsFrom_build (id : RunId) (i : DraftItem) :
    CountsFrom id ((i.build id).map Run.id) := by
  cases i with
  | field parts =>
    -- The parts stand between the two marks.
    have hids : ((field parts).build id).map Run.id =
        id :: (List.range' (id + 1) parts.length ++ [id + 1 + parts.length]) := by
      simp [build, ← List.zipIdx_map_snd, Nat.add_right_comm]
    have hcounts : CountsFrom (id + 1) (List.range' (id + 1) parts.length) := by
      rw [CountsFrom, List.length_range']
    rw [hids, countsFrom_cons, countsFrom_append, List.length_range']
    exact ⟨rfl, hcounts, countsFrom_cons.mpr ⟨rfl, countsFrom_nil _⟩⟩
  | text | opening | separator | closing | instruction =>
    exact countsFrom_cons.mpr ⟨rfl, countsFrom_nil _⟩

theorem length_buildAll (id : RunId) (done : List Run) (items : List DraftItem) :
    (buildAll id done items).length = done.length + (items.map size).foldr (· + ·) 0 := by
  induction items generalizing id done with
  | nil => exact List.length_reverse
  | cons i items ih =>
    rw [buildAll, ih, List.reverseAux_eq, List.length_append, List.length_reverse, length_build]
    simp [Nat.add_assoc, Nat.add_left_comm]

/-- What is built of further items counts on from the runs that are already there. -/
theorem countsFrom_buildAll {first : RunId} (done : List Run)
    (h : CountsFrom first (done.reverse.map Run.id)) (items : List DraftItem) :
    CountsFrom first ((buildAll (first + done.length) done items).map Run.id) := by
  induction items generalizing done with
  | nil => exact h
  | cons i items ih =>
    -- The runs that are there are held last first, and the item puts its own in front of them.
    have hmore : CountsFrom first
        (((i.build (first + done.length)).reverseAux done).reverse.map Run.id) := by
      rw [List.reverseAux_eq, List.reverse_append, List.reverse_reverse, List.map_append,
        countsFrom_append, List.length_map, List.length_reverse]
      exact ⟨h, i.countsFrom_build _⟩
    have hnext := ih _ hmore
    rw [List.reverseAux_eq, List.length_append, List.length_reverse, length_build,
      Nat.add_comm i.size, ← Nat.add_assoc, ← List.reverseAux_eq] at hnext
    exact hnext

end DraftItem

namespace Draft

open Body (Spans spans_nil spans_append spans_paragraph spans_table)

/-! ## Bodies -/

mutual

/-- How many runs go into a body with the paragraphs of drafts, those in the cells of tables
included. -/
def runsIn : List Draft → Nat
  | [] => 0
  | d :: ds => runsInDraft d + runsIn ds

/-- How many runs a paragraph or the cells of a table are made of. -/
def runsInDraft : Draft → Nat
  | .paragraph items => (items.map DraftItem.size).sum
  | .table rows => runsInRows rows

/-- The same for the rows of a table. -/
def runsInRows : List (List (List Draft)) → Nat
  | [] => 0
  | r :: rs => runsInCells r + runsInRows rs

/-- The same for the cells of a row. -/
def runsInCells : List (List Draft) → Nat
  | [] => 0
  | c :: cs => runsIn c + runsInCells cs

end

mutual

/-- Building counts one number for each run. -/
theorem run_buildElements (c : Counters) (done : List Element) :
    ∀ ds : List Draft, (buildElements c done ds).2.run = c.run + runsIn ds
  | [] => rfl
  | d :: ds => by
    rw [buildElements, runsIn]
    exact (run_buildElements _ _ ds).trans (by rw [run_buildElement c d, Nat.add_assoc])

theorem run_buildElement (c : Counters) :
    ∀ d : Draft, (buildElement c d).2.run = c.run + runsInDraft d
  | .paragraph items => by rw [buildElement, runsInDraft, List.sum_eq_foldr]
  | .table rows => by
    rw [buildElement, runsInDraft]
    exact run_buildRows _ [] rows

theorem run_buildRows (c : Counters) (done : List (List Body)) :
    ∀ rows : List (List (List Draft)), (buildRows c done rows).2.run = c.run + runsInRows rows
  | [] => rfl
  | r :: rs => by
    rw [buildRows, runsInRows]
    exact (run_buildRows _ _ rs).trans (by rw [run_buildCells c [] r, Nat.add_assoc])

theorem run_buildCells (c : Counters) (done : List Body) :
    ∀ cells : List (List Draft), (buildCells c done cells).2.run = c.run + runsInCells cells
  | [] => rfl
  | b :: bs => by
    rw [buildCells, runsInCells]
    exact (run_buildCells _ _ bs).trans (by rw [run_buildElements c [] b, Nat.add_assoc])

end

mutual

/-- What is built behind elements that are already there goes on where their numbers have ended. -/
theorem spans_buildElements {c₀ c : Counters} {done : List Element}
    (h : Spans c₀ done.reverse c) :
    ∀ ds : List Draft, Spans c₀ (buildElements c done ds).1 (buildElements c done ds).2
  | [] => h
  | d :: ds => by
    apply spans_buildElements _ ds
    rw [List.reverse_cons]
    exact spans_append.mpr ⟨c, h, spans_buildElement c d⟩

theorem spans_buildElement (c : Counters) :
    ∀ d : Draft, Spans c [(buildElement c d).1] (buildElement c d).2
  | .paragraph items => by
    have hlength := DraftItem.length_buildAll c.run [] items
    rw [List.length_nil, Nat.zero_add] at hlength
    rw [buildElement]
    refine spans_paragraph.mpr ⟨?_, by rw [hlength]⟩
    exact DraftItem.countsFrom_buildAll [] (countsFrom_nil c.run) items
  | .table rows =>
    -- The table takes its number first, and its cells count on from there.
    spans_table.mpr ⟨rfl, spans_buildRows (spans_nil.mpr rfl) rows⟩

theorem spans_buildRows {c₀ c : Counters} {done : List (List Body)}
    (h : Spans c₀ done.reverse.flatten.flatten c) :
    ∀ rows : List (List (List Draft)),
      Spans c₀ (buildRows c done rows).1.flatten.flatten (buildRows c done rows).2
  | [] => h
  | r :: rs => by
    apply spans_buildRows _ rs
    rw [List.reverse_cons, List.flatten_append, List.flatten_append, List.flatten_singleton]
    exact spans_append.mpr ⟨c, h, spans_buildCells (spans_nil.mpr rfl) r⟩

theorem spans_buildCells {c₀ c : Counters} {done : List Body}
    (h : Spans c₀ done.reverse.flatten c) :
    ∀ cells : List (List Draft),
      Spans c₀ (buildCells c done cells).1.flatten (buildCells c done cells).2
  | [] => h
  | b :: bs => by
    apply spans_buildCells _ bs
    rw [List.reverse_cons, List.flatten_append, List.flatten_singleton]
    exact spans_append.mpr ⟨c, h, spans_buildElements (spans_nil.mpr rfl) b⟩

end

/-- **A built body is already numbered.** Numbering leaves it as it is, and it has as many runs as
were put into its paragraphs, where a field takes one for each part and two for its marks. -/
theorem build_isNumbered (ds : List Draft) :
    (build ds).numbered = build ds ∧ (build ds).runCount = runsIn ds := by
  have hspans : Spans {} (build ds) (buildElements {} [] ds).2 :=
    spans_buildElements (spans_nil.mpr rfl) ds
  have hcount := (build ds).runCount_eq_length_runs
  refine ⟨by rw [Body.numbered, Body.number_of_spans hspans], ?_⟩
  calc (build ds).runCount
      = (buildElements {} [] ds).2.run := by rw [hcount, hspans.run_after, Nat.zero_add]
    _ = runsIn ds := by rw [run_buildElements, Nat.zero_add]

end Draft

end DocTemplate
