import DocTemplate.Proofs.Tokenization
import Mathlib.Data.List.Basic

/-!
# Document order

A document is read from front to back, and where a table stands its cells are read row by row. The
runs of a body, its fields and its reserved tags are all listed in this order, so they are taken from
one list: the tokens that are no tables, each at its place.

## Main statements

- `Token.cellInduction`, `Body.cellInduction`: induction from the cells of tables to what holds them
- `Body.elementInduction`: the same, along the elements of a body
- `Body.runsOf_linearTokens`: the tokens of a body hold its runs in document order, each once
-/

namespace DocTemplate

/-! ## Induction on cells -/

/-- What follows for a list of tokens from the cells of its tables holds of every list of tokens. -/
theorem Token.cellInduction {P : List Token → Prop}
    (h : ∀ ts, (∀ id rows, Token.table id rows ∈ ts → ∀ row ∈ rows, ∀ cell ∈ row, P cell) → P ts)
    (ts : List Token) : P ts := by
  apply h ts
  intro id rows htable row hrow cell hcell
  -- A cell is part of its row, the row of the table, and the table of the tokens.
  have h₁ := List.sizeOf_lt_of_mem htable
  have h₂ := List.sizeOf_lt_of_mem hrow
  have h₃ := List.sizeOf_lt_of_mem hcell
  have hlt : sizeOf cell < sizeOf ts := by
    simp only [Token.table.sizeOf_spec] at h₁
    omega
  exact Token.cellInduction h cell
termination_by sizeOf ts

/-- What follows for a body from the cells of its tables holds of every body. -/
theorem Body.cellInduction {P : Body → Prop}
    (h : ∀ b : Body, (∀ id rows, Element.table id rows ∈ b → ∀ row ∈ rows, ∀ cell ∈ row, P cell) →
      P b)
    (b : Body) : P b := by
  apply h b
  intro id rows htable row hrow cell hcell
  have h₁ := List.sizeOf_lt_of_mem htable
  have h₂ := List.sizeOf_lt_of_mem hrow
  have h₃ := List.sizeOf_lt_of_mem hcell
  have hlt : sizeOf cell < sizeOf b := by
    simp only [Element.table.sizeOf_spec] at h₁
    omega
  exact Body.cellInduction h cell
termination_by sizeOf b

/-- Induction along the elements of a body and down into the cells of its tables. -/
theorem Body.elementInduction {P : Body → Prop} (nil : P [])
    (paragraph : ∀ rs b, P b → P (.paragraph rs :: b))
    (table : ∀ id rows b, (∀ row ∈ rows, ∀ cell ∈ row, P cell) → P b → P (.table id rows :: b))
    (b : Body) : P b := by
  induction b using Body.cellInduction with
  | h b cells =>
    -- The cells are settled by the outer induction; the inner one goes along the elements.
    induction b with
    | nil => exact nil
    | cons e es ih =>
      have hrest := ih fun id rows hmem => cells id rows (List.mem_cons_of_mem e hmem)
      cases e with
      | paragraph rs => exact paragraph rs es hrest
      | table id rows => exact table id rows es (cells id rows List.mem_cons_self) hrest

/-- The body has a property, and so has the body of every cell, at any depth. -/
inductive Body.Everywhere (P : Body → Prop) : Body → Prop where
  | intro {b : Body} (hbody : P b)
      (hcells : ∀ id rows, Element.table id rows ∈ b → ∀ row ∈ rows, ∀ c ∈ row,
        Everywhere P c) : Everywhere P b

/-! ## Tables and their cells -/

/-- The tables among the tokens are the tables among the positions. -/
theorem mem_linear_table {id : TableId} {rows : List (List (List Token))} {ps : List Position} :
    Token.table id rows ∈ linear ps ↔ Position.table id rows ∈ ps := by
  induction ps using linear_induction with
  | nil => simp [linear_nil]
  | table id' rows' ps ih => simp [linear_table, ih]
  | tag ps f rest k hf hk ih =>
    obtain ⟨hps, -⟩ := readField_eq_ok hf
    rw [linear_tag hf hk, hps]
    simp [ih]
  | text r ps h ih => simp [linear_text h, ih]

/-- The tables among the positions of a body are its own, with the tokens of their cells. -/
theorem Body.mem_linearPositions_table {id : TableId} {rows : List (List (List Token))} {b : Body} :
    Position.table id rows ∈ linearPositions b ↔
      ∃ cells, Element.table id cells ∈ b ∧ rows = linearRows cells := by
  induction b with
  | nil => simp [linearPositions]
  | cons e es ih =>
    rw [linearPositions, List.mem_append, ih]
    cases e with
    | paragraph runs => simp [elementPositions]
    | table id' cells' =>
      constructor
      · rintro (h | ⟨cells, hmem, rfl⟩)
        · simp only [elementPositions, List.mem_singleton, Position.table.injEq] at h
          obtain ⟨rfl, rfl⟩ := h
          exact ⟨cells', List.mem_cons_self, rfl⟩
        · exact ⟨cells, List.mem_cons_of_mem _ hmem, rfl⟩
      · rintro ⟨cells, hmem, rfl⟩
        rcases List.mem_cons.mp hmem with h | h
        · injection h with hid hcells
          subst hid hcells
          exact .inl (by simp [elementPositions])
        · exact .inr ⟨cells, h, rfl⟩

/-- The tables among the tokens of a body are its own, with the tokens of their cells. -/
theorem Body.mem_linearTokens_table {id : TableId} {rows : List (List (List Token))} {b : Body} :
    Token.table id rows ∈ b.linearTokens ↔
      ∃ cells, Element.table id cells ∈ b ∧ rows = cells.map (fun r => r.map linearTokens) := by
  rw [linearTokens, mem_linear_table, mem_linearPositions_table]
  simp only [linearRows_eq_map]

/-! ## Leaves -/

namespace Token

mutual

/-- The tokens in a token that are no tables, in document order. -/
def leaves : Token → List Token
  | .text r => [.text r]
  | .tag k f => [.tag k f]
  | .table _ rows => leavesOfRows rows

/-- The leaves of the rows of a table. -/
def leavesOfRows : List (List (List Token)) → List Token
  | [] => []
  | r :: rs => leavesOfCells r ++ leavesOfRows rs

/-- The leaves of the cells of a row. -/
def leavesOfCells : List (List Token) → List Token
  | [] => []
  | c :: cs => leavesOf c ++ leavesOfCells cs

/-- The leaves of a list of tokens. -/
def leavesOf : List Token → List Token
  | [] => []
  | t :: ts => leaves t ++ leavesOf ts

end

theorem leavesOf_append (ts us : List Token) :
    leavesOf (ts ++ us) = leavesOf ts ++ leavesOf us := by
  induction ts with
  | nil => rfl
  | cons t ts ih => simp [leavesOf, ih]

theorem leavesOf_eq_flatMap (ts : List Token) : leavesOf ts = ts.flatMap leaves := by
  induction ts with
  | nil => rfl
  | cons t ts ih => rw [leavesOf, ih, List.flatMap_cons]

theorem leavesOfCells_eq_flatMap (cells : List (List Token)) :
    leavesOfCells cells = cells.flatMap leavesOf := by
  induction cells with
  | nil => rfl
  | cons c cs ih => simp [leavesOfCells, ih]

theorem leavesOfRows_eq_flatMap (rows : List (List (List Token))) :
    leavesOfRows rows = rows.flatMap (fun r => r.flatMap leavesOf) := by
  induction rows with
  | nil => rfl
  | cons r rs ih => simp [leavesOfRows, ih, leavesOfCells_eq_flatMap]

/-- The runs that a leaf takes; a table has none of its own. -/
def ownRuns : Token → List RunId
  | .text r => [r]
  | .tag _ f => f.runs
  | .table .. => []

/-- The runs of a list of tokens, in document order. -/
def runsOf (ts : List Token) : List RunId := (leavesOf ts).flatMap ownRuns

theorem runsOf_nil : runsOf [] = [] := rfl

theorem runsOf_text (r : RunId) (ts : List Token) : runsOf (.text r :: ts) = r :: runsOf ts := rfl

theorem runsOf_texts (xs : List RunId) : runsOf (xs.map .text) = xs := by
  induction xs with
  | nil => rfl
  | cons x xs ih => rw [List.map_cons, runsOf_text, ih]

theorem runsOf_tag (k : Keyword) (f : Field) (ts : List Token) :
    runsOf (.tag k f :: ts) = f.runs ++ runsOf ts := rfl

theorem runsOf_table (id : TableId) (rows : List (List (List Token))) (ts : List Token) :
    runsOf (.table id rows :: ts) = rows.flatMap (fun r => r.flatMap runsOf) ++ runsOf ts := by
  simp only [runsOf, leavesOf, leaves, leavesOfRows_eq_flatMap, List.flatMap_append,
    List.flatMap_assoc]
  rfl

end Token

/-! ## The runs of a body -/

/-- The runs at a position, those in the cells of a table included. -/
def Position.runs : Position → List RunId
  | .run r => [r.id]
  | .table _ rows => rows.flatMap (fun r => r.flatMap Token.runsOf)

/-- Cutting positions into tokens keeps their runs in order. -/
theorem runsOf_linear (ps : List Position) : Token.runsOf (linear ps) = ps.flatMap Position.runs := by
  induction ps using linear_induction with
  | nil => rw [linear_nil]; rfl
  | table id rows ps ih => rw [linear_table, Token.runsOf_table, ih]; rfl
  | tag ps f rest k hf hk ih =>
    obtain ⟨hps, -⟩ := readField_eq_ok hf
    have hinner : (f.inner.map Position.run).flatMap Position.runs = f.inner.map Run.id := by
      induction f.inner with
      | nil => rfl
      | cons r rs ih => simp [ih, Position.runs]
    rw [linear_tag hf hk, Token.runsOf_tag, ih, hps]
    simp [hinner, Field.runs, Position.runs]
  | text r ps h ih => rw [linear_text h, Token.runsOf_text, ih]; rfl

namespace Body

mutual

theorem pushRuns_eq (acc : List Run) : ∀ b : List Element, pushRuns acc b = pushRuns [] b ++ acc
  | [] => rfl
  | e :: es => by
    rw [pushRuns, pushRuns, pushRuns_eq (pushElementRuns acc e) es,
      pushRuns_eq (pushElementRuns [] e) es, pushElementRuns_eq acc e, List.append_assoc]

theorem pushElementRuns_eq (acc : List Run) :
    ∀ e : Element, pushElementRuns acc e = pushElementRuns [] e ++ acc
  | .paragraph runs => by simp [pushElementRuns]
  | .table _ rows => by rw [pushElementRuns, pushElementRuns, pushRowRuns_eq acc rows]

theorem pushRowRuns_eq (acc : List Run) :
    ∀ rows : List (List (List Element)), pushRowRuns acc rows = pushRowRuns [] rows ++ acc
  | [] => rfl
  | r :: rs => by
    rw [pushRowRuns, pushRowRuns, pushRowRuns_eq (pushCellRuns acc r) rs,
      pushRowRuns_eq (pushCellRuns [] r) rs, pushCellRuns_eq acc r, List.append_assoc]

theorem pushCellRuns_eq (acc : List Run) :
    ∀ cells : List (List Element), pushCellRuns acc cells = pushCellRuns [] cells ++ acc
  | [] => rfl
  | c :: cs => by
    rw [pushCellRuns, pushCellRuns, pushCellRuns_eq (pushRuns acc c) cs,
      pushCellRuns_eq (pushRuns [] c) cs, pushRuns_eq acc c, List.append_assoc]

end

theorem runs_paragraph (rs : List Run) (b : Body) : runs (.paragraph rs :: b) = rs ++ runs b := by
  rw [runs, pushRuns, pushRuns_eq, runs]
  simp [pushElementRuns]

theorem reverse_pushCellRuns (cells : List (List Element)) :
    (pushCellRuns [] cells).reverse = cells.flatMap runs := by
  induction cells with
  | nil => rfl
  | cons c cs ih => rw [pushCellRuns, pushCellRuns_eq]; simp [ih, runs]

theorem reverse_pushRowRuns (rows : List (List (List Element))) :
    (pushRowRuns [] rows).reverse = rows.flatMap (fun r => r.flatMap runs) := by
  induction rows with
  | nil => rfl
  | cons r rs ih => rw [pushRowRuns, pushRowRuns_eq]; simp [ih, reverse_pushCellRuns]

theorem runs_table (id : TableId) (rows : List (List (List Element))) (b : Body) :
    runs (.table id rows :: b) = rows.flatMap (fun r => r.flatMap runs) ++ runs b := by
  rw [runs, pushRuns, pushRuns_eq, runs]
  simp [pushElementRuns, reverse_pushRowRuns]

theorem runs_append (b b' : Body) : runs (b ++ b') = runs b ++ runs b' := by
  induction b with
  | nil => rfl
  | cons e es ih =>
    cases e with
    | paragraph rs =>
      rw [List.cons_append, runs_paragraph, runs_paragraph, ih, List.append_assoc]
    | table id rows => rw [List.cons_append, runs_table, runs_table, ih, List.append_assoc]

/-- **The tokens of a body hold its runs in document order**, each as often as the body does. -/
theorem runsOf_linearTokens (b : Body) : Token.runsOf b.linearTokens = b.runs.map Run.id := by
  rw [linearTokens, runsOf_linear]
  induction b using elementInduction with
  | nil => rfl
  | paragraph rs b ih =>
    rw [linearPositions, List.flatMap_append, ih, runs_paragraph, List.map_append,
      elementPositions, List.flatMap_map]
    congr 1
    exact List.flatMap_pure_eq_map Run.id rs
  | table id rows b cells ih =>
    have hrow : ∀ row ∈ rows, row.flatMap (fun c => Token.runsOf (linearTokens c)) =
        row.flatMap (fun c => (runs c).map Run.id) := by
      intro row hrow
      apply List.flatMap_congr
      intro c hc
      rw [linearTokens, runsOf_linear]
      exact cells row hrow c hc
    rw [linearPositions, List.flatMap_append, ih, runs_table, List.map_append, elementPositions,
      linearRows_eq_map]
    congr 1
    simp only [List.flatMap_cons, List.flatMap_nil, List.append_nil, Position.runs,
      List.flatMap_map, List.map_flatMap]
    exact List.flatMap_congr hrow

/-! ## The tables of a body -/

mutual

theorem pushTables_eq (acc : List TableId) :
    ∀ b : List Element, pushTables acc b = pushTables [] b ++ acc
  | [] => rfl
  | e :: es => by
    rw [pushTables, pushTables, pushTables_eq (pushElementTables acc e) es,
      pushTables_eq (pushElementTables [] e) es, pushElementTables_eq acc e, List.append_assoc]

theorem pushElementTables_eq (acc : List TableId) :
    ∀ e : Element, pushElementTables acc e = pushElementTables [] e ++ acc
  | .paragraph _ => rfl
  | .table id rows => by
    rw [pushElementTables, pushElementTables, pushRowTables_eq (id :: acc) rows,
      pushRowTables_eq [id] rows, List.append_assoc, List.singleton_append]

theorem pushRowTables_eq (acc : List TableId) :
    ∀ rows : List (List (List Element)), pushRowTables acc rows = pushRowTables [] rows ++ acc
  | [] => rfl
  | r :: rs => by
    rw [pushRowTables, pushRowTables, pushRowTables_eq (pushCellTables acc r) rs,
      pushRowTables_eq (pushCellTables [] r) rs, pushCellTables_eq acc r, List.append_assoc]

theorem pushCellTables_eq (acc : List TableId) :
    ∀ cells : List (List Element), pushCellTables acc cells = pushCellTables [] cells ++ acc
  | [] => rfl
  | c :: cs => by
    rw [pushCellTables, pushCellTables, pushCellTables_eq (pushTables acc c) cs,
      pushCellTables_eq (pushTables [] c) cs, pushTables_eq acc c, List.append_assoc]

end

theorem tableIds_paragraph (rs : List Run) (b : Body) :
    tableIds (.paragraph rs :: b) = tableIds b := rfl

theorem reverse_pushCellTables (cells : List (List Element)) :
    (pushCellTables [] cells).reverse = cells.flatMap tableIds := by
  induction cells with
  | nil => rfl
  | cons c cs ih => rw [pushCellTables, pushCellTables_eq]; simp [ih, tableIds]

theorem reverse_pushRowTables (rows : List (List (List Element))) :
    (pushRowTables [] rows).reverse = rows.flatMap (fun r => r.flatMap tableIds) := by
  induction rows with
  | nil => rfl
  | cons r rs ih => rw [pushRowTables, pushRowTables_eq]; simp [ih, reverse_pushCellTables]

/-- A table stands before the tables in its cells. -/
theorem tableIds_table (id : TableId) (rows : List (List (List Element))) (b : Body) :
    tableIds (.table id rows :: b) =
      id :: rows.flatMap (fun r => r.flatMap tableIds) ++ tableIds b := by
  rw [tableIds, pushTables, pushTables_eq, pushElementTables, pushRowTables_eq, tableIds]
  simp [reverse_pushRowTables]

theorem tableIds_append (b b' : Body) : tableIds (b ++ b') = tableIds b ++ tableIds b' := by
  induction b with
  | nil => rfl
  | cons e es ih =>
    cases e with
    | paragraph rs => rw [List.cons_append, tableIds_paragraph, tableIds_paragraph, ih]
    | table id rows => rw [List.cons_append, tableIds_table, tableIds_table, ih, List.append_assoc]

end Body

end DocTemplate
