import DocTemplate.Document.Draft
import DocTemplate.Proofs.NestingDepth

/-!
# Tables and their cells

The tables of a body come back in its template, in the order in which they stand, whatever is open
around them: a repetition or a branch keeps the tables of its body in their place, and no tag adds
one or takes one away. Each cell holds the template of its own body. The reading hands a cell the
depth of the body around the table, but apart from the nesting limit nothing depends on a depth, so
that a cell is parsed as if it were a document by itself.

## Main statements

- `TagStep.tables`, `Reads.tables`: only a table adds a table
- `Template.tables_ofTokens`: the tables of a template mirror those among its tokens
- `Body.tables_mirrored`, `Body.parse_tables`: the same for bodies, with cells parsed by themselves
-/

namespace DocTemplate

/-- A table with something in each of its cells. -/
structure Grid (α : Type) where
  id : TableId
  rows : List (List α)

namespace Grid

variable {α β : Type}

/-- The number of the table, and how many cells there are in each of its rows. -/
def shape (g : Grid α) : TableId × List Nat := (g.id, g.rows.map List.length)

/-- What a cell holds. -/
def cell? (g : Grid α) (row column : Nat) : Option α := g.rows[row]?.bind (·[column]?)

/-- Two tables with the same number and the same cells, of which those at the same place are
related. -/
inductive Mirrors (R : α → β → Prop) : Grid α → Grid β → Prop where
  | intro {id : TableId} {rows : List (List α)} {rows' : List (List β)}
      (hcells : List.Forall₂ (List.Forall₂ R) rows rows') : Mirrors R ⟨id, rows⟩ ⟨id, rows'⟩

/-- The table with something else in its cells. -/
def map (f : α → β) (g : Grid α) : Grid β := ⟨g.id, g.rows.map (List.map f)⟩

@[simp]
theorem shape_map (f : α → β) (g : Grid α) : (g.map f).shape = g.shape := by
  simp [shape, map]

@[simp]
theorem cell?_map (f : α → β) (g : Grid α) (row column : Nat) :
    (g.map f).cell? row column = (g.cell? row column).map f := by
  unfold cell? map
  rw [List.getElem?_map, Option.bind_map, Option.map_bind]
  simp only [Function.comp_def, List.getElem?_map]

end Grid

/-! ## Tables of tokens and of bodies -/

/-- The table that a token is. -/
def Token.table? : Token → Option (Grid (List Token))
  | .table id rows => some ⟨id, rows⟩
  | .text _ | .tag .. => none

/-- The tables among tokens, in order. -/
def Token.tablesOf (ts : List Token) : List (Grid (List Token)) := ts.filterMap Token.table?

/-- The tables of a body, in order; those in cells are left out. -/
def Body.tables (b : Body) : List (Grid Body) :=
  b.filterMap fun
    | .table id rows => some ⟨id, rows⟩
    | .paragraph _ => none

/-- The table that stands at a position. -/
def Position.table? : Position → Option (Grid (List Token))
  | .table id rows => some ⟨id, rows⟩
  | .run _ => none

theorem filterMap_table?_runs (rs : List Run) :
    (rs.map Position.run).filterMap Position.table? = [] := by
  induction rs with
  | nil => rfl
  | cons r rs ih => exact ih

theorem tablesOf_linear (ps : List Position) :
    Token.tablesOf (linear ps) = ps.filterMap Position.table? := by
  induction ps using linear_induction with
  | nil => rw [linear_nil]; rfl
  | table id rows ps ih =>
    rw [linear_table]
    exact congrArg (_ :: ·) ih
  | tag ps f rest k hf hk ih =>
    -- A field holds runs only.
    obtain ⟨rfl, -⟩ := readField_eq_ok hf
    rw [linear_tag hf hk]
    show Token.tablesOf (linear rest) = _
    rw [List.filterMap_cons, List.filterMap_append, filterMap_table?_runs, ih]
    rfl
  | text r ps h ih =>
    rw [linear_text h]
    exact ih

/-- The tables among the tokens of a body are its own, with the tokens of their cells. -/
theorem Body.tablesOf_linearTokens (b : Body) :
    Token.tablesOf b.linearTokens = b.tables.map (Grid.map linearTokens) := by
  rw [linearTokens, tablesOf_linear]
  induction b with
  | nil => rfl
  | cons e b ih =>
    rw [linearPositions, List.filterMap_append, ih]
    cases e with
    | paragraph runs => rw [elementPositions, filterMap_table?_runs]; rfl
    | table id rows => rw [elementPositions, linearRows_eq_map]; rfl

/-! ## Tables of templates -/

namespace Construct

mutual

/-- The tables of a construct, from front to back; those in cells are left out. -/
def tables : Construct → List (Grid Template)
  | .text _ | .query .. | .image .. | .diagram .. => []
  | .loop _ _ _ body => tablesOfBody body
  | .conditional first links otherwise =>
    tablesOfBranch first ++ tablesOfBranches links ++ tablesOfElse otherwise
  | .table id rows => [⟨id, rows⟩]

def tablesOfBody : List Construct → List (Grid Template)
  | [] => []
  | c :: cs => tables c ++ tablesOfBody cs

def tablesOfBranch : Branch Construct → List (Grid Template)
  | ⟨_, _, body⟩ => tablesOfBody body

def tablesOfBranches : List (Branch Construct) → List (Grid Template)
  | [] => []
  | b :: bs => tablesOfBranch b ++ tablesOfBranches bs

def tablesOfElse : Option (Section Construct) → List (Grid Template)
  | none => []
  | some ⟨_, body⟩ => tablesOfBody body

end

theorem tablesOfBody_append (cs ds : List Construct) :
    tablesOfBody (cs ++ ds) = tablesOfBody cs ++ tablesOfBody ds := by
  induction cs with
  | nil => rfl
  | cons c cs ih => simp [tablesOfBody, ih]

theorem tablesOfBody_eq_flatMap (cs : List Construct) : tablesOfBody cs = cs.flatMap tables := by
  induction cs with
  | nil => rfl
  | cons c cs ih => rw [tablesOfBody, ih, List.flatMap_cons]

theorem tablesOfBranch_eq (b : Branch Construct) : tablesOfBranch b = tablesOfBody b.body := by
  cases b
  rfl

theorem tablesOfBranches_eq_flatMap (bs : List (Branch Construct)) :
    tablesOfBranches bs = bs.flatMap tablesOfBranch := by
  induction bs with
  | nil => rfl
  | cons b bs ih => rw [tablesOfBranches, ih, List.flatMap_cons]

theorem tables_ofBranches (last : Branch Construct) (earlier : List (Branch Construct))
    (otherwise : Option (Section Construct)) :
    (ofBranches last earlier otherwise).tables =
      (earlier.reverse ++ [last]).flatMap tablesOfBranch ++ tablesOfElse otherwise := by
  unfold ofBranches
  cases earlier.reverse with
  | nil => simp [tables, tablesOfBranches]
  | cons first links => simp [tables, tablesOfBranches_eq_flatMap]

end Construct

/-- The tables met when a template is walked through from front to back without entering cells:
those of its body, of repetitions and of the branches of conditionals. -/
def Template.tables (t : Template) : List (Grid Template) := Construct.tablesOfBody t.body

/-! ## Tables along a reading -/

/-- The tables of a level: those of the branches before it and those of its own body. -/
def Level.tables (l : Level) : List (Grid Template) :=
  l.purpose.branches.flatMap Construct.tablesOfBranch ++ Construct.tablesOfBody l.body.reverse

/-- The tables of a state, in the order in which they were met. -/
def Progress.tables (p : Progress) : List (Grid Template) :=
  Construct.tablesOfBody p.block.body.reverse ++ p.levels.reverse.flatMap Level.tables

theorem Level.tables_close (l : Level) (f : Field) : (l.close f).tables = l.tables := by
  unfold close tables
  cases l.purpose with
  | loop iterator source => rfl
  | branch earlier condition =>
    simp [Construct.tables_ofBranches, Construct.tablesOfBranch, Construct.tablesOfElse,
      Purpose.branches]
  | otherwise earlier last =>
    simp [Construct.tables_ofBranches, Construct.tablesOfBranch_eq, Construct.tablesOfElse,
      Purpose.branches]

theorem Level.tables_closeAtEnd (l : Level) : l.closeAtEnd.tables = l.tables := by
  rw [← l.tables_close default]
  -- The two differ in what they record at tags.
  unfold closeAtEnd close
  cases l.purpose with
  | loop iterator source => rfl
  | branch earlier condition => simp [Construct.tables_ofBranches, Construct.tablesOfBranch]
  | otherwise earlier last =>
    simp [Construct.tables_ofBranches, Construct.tablesOfBranch_eq, Construct.tablesOfElse]

namespace Progress

theorem tables_push (p : Progress) (c : Construct) : (p.push c).tables = p.tables ++ c.tables := by
  unfold push tables
  cases p.levels with
  | nil => simp [Construct.tablesOfBody_append, Construct.tablesOfBody]
  | cons l ls => simp [Level.tables, Construct.tablesOfBody_append, Construct.tablesOfBody]

theorem tables_settle (p : Progress) : p.settle.tables = p.tables := by
  unfold settle
  split
  · rfl
  · exact (p.tables_push _).trans (List.append_nil _)

theorem tables_swallow (p : Progress) (k : Keyword) (f : Field) :
    (p.swallow k f).tables = p.tables := by
  unfold swallow tables
  cases p.levels with
  | nil => rfl
  | cons l ls => simp [Level.tables]

/-- Each level that the end of the body closes is the last construct of the next one. -/
theorem tables_closeLevels (b : Block) (inner : Option Construct) (ls : List Level) :
    Construct.tablesOfBody (closeLevels b inner ls).body.reverse =
      Construct.tablesOfBody b.body.reverse ++ ls.reverse.flatMap Level.tables ++
        Construct.tablesOfBody inner.toList := by
  induction ls generalizing inner with
  | nil =>
    have hinner : inner.toList.reverse = inner.toList := by cases inner <;> rfl
    simp [closeLevels, Construct.tablesOfBody_append, hinner]
  | cons l ls ih =>
    have hinner : inner.toList.reverse = inner.toList := by cases inner <;> rfl
    rw [closeLevels, ih]
    simp [Construct.tablesOfBody, Level.tables_closeAtEnd, Level.tables,
      Construct.tablesOfBody_append, hinner]

theorem tables_finish {p : Progress} (hstops : p.block.stops = [.endOfBody]) :
    Template.tables p.finish.block.toSection = p.tables := by
  rw [Template.tables, block_finish hstops, Block.toSection, tables_closeLevels, ← p.tables_settle]
  simp [tables, Construct.tablesOfBody]

end Progress

theorem single?_tables {s : Setting} {f : Field} {k : Keyword} {c : Construct}
    (h : single? s f k = some c) : c.tables = [] := by
  obtain ⟨tag, -, ⟨-, _, _, rfl⟩ | ⟨-, _, rfl⟩ | ⟨-, _, _, _, rfl⟩⟩ := single?_cases h <;> rfl

theorem opened?_tables {s : Setting} {f : Field} {depth : Nat} {k : Keyword} {l : Level}
    (h : opened? s f depth k = some l) : l.tables = [] := by
  unfold opened? at h
  split at h <;> cases h <;> rfl

section Readings

variable {s : Setting} {p q : Progress}

/-- No tag adds a table or takes one away. -/
theorem TagStep.tables {k : Keyword} {f : Field} (h : TagStep s p k f q) : q.tables = p.tables := by
  cases h with
  | single hc => rw [p.tables_push, single?_tables hc, List.append_nil]
  | opens hl hlimit => simp [Progress.tables, opened?_tables hl]
  | @closes _ _ l ls hlevels hends =>
    -- The tables of the level become those of a construct at the end of the next body.
    rw [Progress.closeLevel, Progress.tables_push, l.tables_close]
    simp [Progress.tables, hlevels]
  | elseIf hlevels hpurpose hlimit =>
    -- What the level held so far is now a branch before the next one.
    simp [Progress.tables, hlevels, Level.tables, hpurpose, Level.ofCondition, Level.toBranch,
      Purpose.branches, Construct.tablesOfBranch, Construct.tablesOfBody]
  | otherwise hlevels hpurpose =>
    simp [Progress.tables, hlevels, Level.tables, hpurpose, Level.ofOtherwise, Level.toBranch,
      Purpose.branches, Construct.tablesOfBranch, Construct.tablesOfBody]
  | strays hterminator hnone => exact p.tables_swallow k f

/-- Where tokens have a template at some depth, they have it at the front of a document. -/
theorem Template.ofTokens_zero {depth : Nat} {ts : List Token} {t : Template}
    (h : Template.ofTokens s depth ts = .ok t) : Template.ofTokens s 0 ts = .ok t := by
  have hneed := Template.need_le h
  -- What fits at some depth fits higher up.
  apply Template.ofTokens_withLimit h (m := s.limit) 0
  omega

theorem cellTemplates_zero {depth : Nat} {rows : List (List (List Token))}
    {us : List (List Template)} (h : cellTemplates s depth rows = .ok us) :
    us.map (List.map .ok) = rows.map (List.map (Template.ofTokens s 0)) := by
  symm
  apply map_eq_map_iff_forall₂.mpr
  apply (cellTemplates_eq_ok_iff.mp h).imp
  intro row us hrow
  apply map_eq_map_iff_forall₂.mpr
  exact hrow.imp fun c u hu => Template.ofTokens_zero hu

/-- **Only a table adds a table**, with the templates that its cells have by themselves. -/
theorem Reads.tables {t : Token} (h : Reads s t p q) :
    q.tables.map (Grid.map .ok) =
      p.tables.map (Grid.map .ok) ++
        (Token.tablesOf [t]).map (Grid.map (Template.ofTokens s 0)) := by
  cases h with
  | text r p => exact (List.append_nil _).symm
  | @tag k f p q hstep =>
    rw [hstep.tables, p.tables_settle]
    exact (List.append_nil _).symm
  | @table id rows p us hcells =>
    have hpush := p.settle.tables_push (.table id us)
    rw [p.tables_settle] at hpush
    have hgrid : Grid.map .ok ⟨id, us⟩ = Grid.map (Template.ofTokens s 0) ⟨id, rows⟩ := by
      rw [Grid.map, Grid.map, cellTemplates_zero hcells]
    show (p.settle.push (.table id us)).tables.map _ = _
    rw [hpush, List.map_append]
    exact congrArg (_ ++ [·]) hgrid

theorem Runs.tables {ts : List Token} (h : Runs s ts p q) :
    q.tables.map (Grid.map .ok) =
      p.tables.map (Grid.map .ok) ++
        (Token.tablesOf ts).map (Grid.map (Template.ofTokens s 0)) := by
  induction h with
  | nil p => exact (List.append_nil _).symm
  | @cons t ts p q r hstep hrest ih =>
    have hsplit : Token.tablesOf (t :: ts) = Token.tablesOf [t] ++ Token.tablesOf ts :=
      List.filterMap_append (l := [t])
    rw [ih, hstep.tables, hsplit, List.map_append, List.append_assoc]

/-- The tables of a template are those among its tokens, with the templates of their cells. -/
theorem Template.tables_ofTokens {depth : Nat} {ts : List Token} {t : Template}
    (h : Template.ofTokens s depth ts = .ok t) :
    t.tables.map (Grid.map .ok) = (Token.tablesOf ts).map (Grid.map (Template.ofTokens s 0)) := by
  obtain ⟨-, q, hruns, rfl⟩ := Template.ofTokens_eq_ok_iff.mp h
  rw [Progress.tables_finish hruns.stops, hruns.tables]
  rfl

end Readings

/-! ## Bodies -/

namespace Body

/-- The tables of a body come back one by one, each with the templates of its cells. -/
theorem tables_mirrored {s : Setting} {b : Body} {t : Template} (h : (b.parse s).result = .ok t) :
    t.tables.map (Grid.map .ok) = b.tables.map (Grid.map fun cell => (cell.parse s).result) := by
  rw [b.result_parse s] at h
  rw [Template.tables_ofTokens h, b.tablesOf_linearTokens, List.map_map]
  apply List.map_congr_left
  intro g hg
  simp [Grid.map, Function.comp_def, result_parse]

theorem mem_of_mem_tables {b : Body} {g : Grid Body} (h : g ∈ b.tables) :
    Element.table g.id g.rows ∈ b := by
  obtain ⟨e, he, hg⟩ := List.mem_filterMap.mp h
  cases e with
  | paragraph runs => cases hg
  | table id rows =>
    cases hg
    exact he

/-- What holds of the cells of a body and their templates holds at the same places in the two. -/
theorem mirrors_of_cells {s : Setting} {b : Body} {t : Template} (h : (b.parse s).result = .ok t)
    {R : Body → Template → Prop}
    (hcells : ∀ id rows, Element.table id rows ∈ b → ∀ row ∈ rows, ∀ cell ∈ row, ∀ u,
      (parse s cell).result = .ok u → R cell u) :
    List.Forall₂ (Grid.Mirrors R) b.tables t.tables := by
  have hsame := map_eq_map_iff_forall₂.mp (tables_mirrored h).symm
  -- The cells are wanted as cells of the body, so each table has to bring along where it stands.
  have hboth := (List.forall₂_and_left b.tables t.tables).mpr
    ⟨fun g hg => mem_of_mem_tables hg, hsame⟩
  apply hboth.imp
  rintro ⟨id, rows⟩ ⟨id', us⟩ ⟨hmem, heq⟩
  injection heq with hid hrows
  subst hid
  have hparsed : List.Forall₂ (List.Forall₂ fun cell u => (cell.parse s).result = .ok u) rows us :=
    (map_eq_map_iff_forall₂.mp hrows).imp fun row us hrow => map_eq_map_iff_forall₂.mp hrow
  exact .intro (forall₂_cells_imp hparsed (hcells id rows hmem))

/-- **Tables are mirrored one to one, and cells are isolated.** The tables of a template, those in
cells left out, are the tables of its body in order, with the same numbers, as many rows, and as
many cells in each row. What stands in a cell is what the parse of the cell's body alone gives, in
the same setting. -/
theorem parse_tables (s : Setting) (b : Body) {t : Template} (h : (b.parse s).result = .ok t) :
    t.tables.map Grid.shape = b.tables.map Grid.shape ∧
    ∀ i row column : Nat,
      (t.tables[i]?.bind (·.cell? row column)).map .ok =
        (b.tables[i]?.bind (·.cell? row column)).map (fun cell => (cell.parse s).result) := by
  -- Both parts are read off from one equation between lists of tables.
  have hmirrored := tables_mirrored h
  constructor
  · have hshape := congrArg (List.map Grid.shape) hmirrored
    simpa [Function.comp_def] using hshape
  · intro i row column
    have hcell := congrArg (fun gs => gs[i]?.bind (Grid.cell? · row column)) hmirrored
    simpa [Function.comp_def, Option.map_bind, Option.bind_map] using hcell

/-- A table in a condition inside a repetition, behind a stray tag and a field that nothing closes,
and another one behind `m:else`. -/
def tableInBranch : Body :=
  Draft.build
    [.paragraph [.field ["m:for x | xs"], .field ["m:endif"], .field ["m:if a"], .opening],
      .table [[[.paragraph [.field ["m:if b"]]], []], []],
      .paragraph [.field ["m:else"]],
      .table [[[]]]]

/-- The first cell holds a condition that is left open there and not in the body around it. -/
theorem parse_tables_tableInBranch :
    ∃ t, (tableInBranch.parse { compile := .fixed [] }).result = .ok t ∧
      t.tables.map Grid.shape = [(0, [2, 0]), (1, [1])] ∧
      ∃ cell, (tableInBranch.tables[0]?.bind (·.cell? 0 0)) = some cell ∧
        (t.tables[0]?.bind (·.cell? 0 0)).map .ok =
          some (cell.parse { compile := .fixed [] }).result := by
  have hok : (tableInBranch.parse { compile := .fixed [] }).result.toOption.map
      (fun t => t.problems.length) = some 5 := by decide +kernel
  obtain ⟨t, ht, -⟩ := exists_of_toOption_map hok
  obtain ⟨hshape, hcells⟩ := parse_tables { compile := .fixed [] } tableInBranch ht
  have hcell : (tableInBranch.tables[0]?.bind (·.cell? 0 0)).isSome = true := by decide +kernel
  obtain ⟨cell, hcell⟩ := Option.isSome_iff_exists.mp hcell
  refine ⟨t, ht, hshape.trans (by decide +kernel), cell, hcell, ?_⟩
  rw [hcells 0 0 0, hcell, Option.map_some]

end Body

end DocTemplate
