import DocTemplate.Proofs.Dictionaries
import DocTemplate.Proofs.SurveyOrder
import DocTemplate.Proofs.TableMirroring

/-!
# What statistics count

Statistics are counted along the walk, one construct after another; further conditions and cells are
added up where a conditional or a table is met. What is counted in this way is what there is in the
whole template: a further condition is held by one conditional only, and a cell by one table. Since
tables and cells of a template mirror those of its body, the document can be counted instead.

## Main statements

- `Stats.Counts.add`, `Stats.counts_ofTemplate`: counting along the walk
- `Template.countP_parts`: counting where something is held is counting it anywhere
- `Body.shapes_allTables`: the tables at all levels of a body come back in its template
- `Template.survey_agrees`: problems, walk and statistics agree on every template
-/

namespace DocTemplate

/-! ## Counting along a list -/

namespace Stats

/-- The numbers are those of `cs`: of each kind, altogether, and of what conditionals and tables
hold. -/
structure Counts (s : Stats) (cs : List Construct) : Prop where
  /-- A kind that does not occur has no entry. -/
  constructs : ∀ kind, s.constructs.get? kind =
    if cs.countP (·.kindName = kind) = 0 then none else some (cs.countP (·.kindName = kind))
  total : s.total = cs.length
  links : s.links = (cs.map Construct.linkCount).sum
  tableCells : s.tableCells = (cs.map Construct.cellCount).sum

variable {s : Stats} {cs : List Construct}

theorem Counts.count (h : s.Counts cs) (kind : String) :
    s.count kind = cs.countP (·.kindName = kind) := by
  rw [Stats.count, h.constructs kind]
  split
  next hzero => exact hzero.symm
  next => rfl

/-- One more construct is counted. -/
theorem Counts.add (h : s.Counts cs) (c : Construct) : (s.add c).Counts (cs ++ [c]) where
  constructs kind := by
    show (s.constructs.insert c.kindName (s.count c.kindName + 1)).get? kind = _
    rw [Dict.get?_insert, h.count, h.constructs kind, List.countP_append]
    by_cases hkind : c.kindName = kind
    · simp [hkind]
    · simp [hkind]
  total := by
    have hsum := s.constructs.sum_values_insert c.kindName (s.count c.kindName + 1)
    have htotal : s.constructs.values.sum = cs.length := h.total
    show (s.constructs.insert c.kindName (s.count c.kindName + 1)).values.sum = _
    -- What is inserted is one more than what was there.
    rw [htotal, Stats.count] at hsum
    rw [Stats.count, List.length_append, List.length_singleton]
    omega
  links := by
    show s.links + c.linkCount = _
    simp [h.links]
  tableCells := by
    show s.tableCells + c.cellCount = _
    simp [h.tableCells]

theorem Counts.foldl (h : s.Counts cs) (ds : List Construct) :
    (ds.foldl Stats.add s).Counts (cs ++ ds) := by
  induction ds generalizing s cs with
  | nil => simpa using h
  | cons d ds ih => simpa using ih (h.add d)

theorem problems_foldl (ds : List Construct) : (ds.foldl Stats.add s).problems = s.problems := by
  induction ds generalizing s with
  | nil => rfl
  | cons d ds ih => exact ih

theorem counts_ofTemplate (t : Template) : (ofTemplate t).Counts t.walk := by
  have hempty : Counts { problems := t.problems.length } [] :=
    ⟨fun _ => rfl, rfl, rfl, rfl⟩
  exact hempty.foldl t.walk

theorem problems_ofTemplate (t : Template) : (ofTemplate t).problems = t.problems.length :=
  problems_foldl t.walk

end Stats

/-! ## Further conditions and cells -/

theorem sum_map_filterMap {α β : Type} (f : α → Option β) (n : β → Nat) (xs : List α) :
    ((xs.filterMap f).map n).sum = (xs.map fun x => (f x).elim 0 n).sum := by
  induction xs with
  | nil => rfl
  | cons x xs ih => cases h : f x <;> simp [h, ih]

namespace Part

/-- A conditional holds its further conditions, and nothing else holds any. -/
theorem countP_isLink (p : Part) :
    p.parts.countP isLink = p.construct?.elim 0 Construct.linkCount := by
  cases p with
  | template t | link t | otherwise t | cell t =>
    simp [parts, Function.comp_def, isLink, construct?]
  | construct c =>
    cases c <;>
      simp [parts, Construct.parts, Function.comp_def, isLink, construct?, Construct.linkCount]

/-- A table holds its cells, and nothing else holds any. -/
theorem countP_isCell (p : Part) :
    p.parts.countP isCell = p.construct?.elim 0 Construct.cellCount := by
  cases p with
  | template t | link t | otherwise t | cell t =>
    simp [parts, Function.comp_def, isCell, construct?]
  | construct c =>
    cases c <;>
      simp [parts, Construct.parts, Function.comp_def, isCell, construct?, Construct.cellCount,
        List.sum_eq_foldr]

end Part

/-- **Counting where something is held is counting it anywhere,** for what is no template. -/
theorem Template.countP_parts {q : Part → Bool} {n : Construct → Nat}
    (hroot : ∀ t, q (.template t) = false)
    (hparts : ∀ p : Part, p.parts.countP q = p.construct?.elim 0 n) (t : Template) :
    t.parts.countP q = (t.walk.map n).sum := by
  -- The topmost part is not counted, so that each one that is counted is held by another part.
  have hall := Part.hierarchy.countP_all q (.template t)
  rw [t.walk_eq_filterMap, sum_map_filterMap, parts, hall]
  simp [hroot, ← hparts, Part.hierarchy]

/-! ## Tables at all levels -/

namespace Grid

variable {α : Type}

/-- How many cells there are in all rows. -/
def cellCount (g : Grid α) : Nat := g.rows.flatten.length

theorem cellCount_eq (g : Grid α) : g.cellCount = g.shape.2.sum := List.length_flatten

end Grid

namespace Element

/-- The elements in the cells of a table. -/
def parts : Element → List Element
  | .paragraph _ => []
  | .table _ rows => rows.flatten.flatten

theorem sizeOf_lt_of_mem_parts {e f : Element} (h : f ∈ e.parts) : sizeOf f < sizeOf e := by
  cases e with
  | paragraph runs => cases h
  | table id rows =>
    obtain ⟨cell, hcell, hf⟩ := List.mem_flatten.mp h
    obtain ⟨row, hrow, hcell⟩ := List.mem_flatten.mp hcell
    have h₁ := List.sizeOf_lt_of_mem hrow
    have h₂ := List.sizeOf_lt_of_mem hcell
    have h₃ := List.sizeOf_lt_of_mem hf
    simp only [Element.table.sizeOf_spec]
    omega

/-- The elements of a document and of whatever its tables hold. -/
def hierarchy : Hierarchy Element where
  parts := parts
  wf := Subrelation.wf sizeOf_lt_of_mem_parts (measure sizeOf).wf

end Element

/-- The table that a construct is. -/
def Construct.table? : Construct → Option (Grid Template)
  | .table id rows => some ⟨id, rows⟩
  | .text _ | .query .. | .image .. | .diagram .. | .loop .. | .conditional .. => none

namespace Part

/-- The tables in a part; those in cells are left out, unless the part is a cell. -/
def tables : Part → List (Grid Template)
  | .template t | .cell t => t.tables
  | .construct c => c.tables
  | .link b => Construct.tablesOfBranch b
  | .otherwise sec => Construct.tablesOfBody sec.body

/-- What is no table has the tables of its parts. -/
theorem tables_cases (p : Part) :
    (∃ id rows, p = .construct (.table id rows)) ∨
      p.construct?.bind Construct.table? = none ∧ p.tables = p.parts.flatMap tables := by
  cases p with
  | template t | cell t | otherwise t =>
    refine .inr ⟨rfl, ?_⟩
    rw [parts, List.flatMap_map]
    exact Construct.tablesOfBody_eq_flatMap t.body
  | link b =>
    refine .inr ⟨rfl, ?_⟩
    rw [parts, List.flatMap_map, tables, Construct.tablesOfBranch_eq]
    exact Construct.tablesOfBody_eq_flatMap b.body
  | construct c =>
    cases c with
    | text | query | image | diagram => exact .inr ⟨rfl, rfl⟩
    | loop tag iterator source body =>
      refine .inr ⟨rfl, ?_⟩
      rw [parts, Construct.parts, List.flatMap_map]
      exact Construct.tablesOfBody_eq_flatMap body
    | conditional first links otherwise =>
      refine .inr ⟨rfl, ?_⟩
      have helse : Construct.tablesOfElse otherwise =
          otherwise.toList.flatMap fun sec => Construct.tablesOfBody sec.body := by
        cases otherwise with
        | none => rfl
        | some sec => simp [Construct.tablesOfElse]
      rw [parts, Construct.parts, List.flatMap_append, List.flatMap_append, List.flatMap_map,
        List.flatMap_map, List.flatMap_map, tables, Construct.tables, Construct.tablesOfBranch_eq,
        Construct.tablesOfBody_eq_flatMap, Construct.tablesOfBranches_eq_flatMap, helse]
      rfl
    | table id rows => exact .inl ⟨id, rows, rfl⟩

end Part

namespace Template

/-- The tables of a template, those in cells included: each before the tables in its cells. -/
def allTables (t : Template) : List (Grid Template) := t.walk.filterMap Construct.table?

/-- In any part, each table outside of its cells is followed by those in the table's cells. -/
theorem filterMap_walk (p : Part) :
    p.walk.filterMap Construct.table? =
      p.tables.flatMap fun g => g :: g.rows.flatten.flatMap allTables := by
  induction p using Part.hierarchy.wf.induction with
  | h p ih =>
    rw [p.walk_eq, List.filterMap_append, List.filterMap_flatMap]
    rcases p.tables_cases with ⟨id, rows, rfl⟩ | ⟨hnone, htables⟩
    · -- What is below a table is in its cells, which are templates.
      rw [Part.parts, Construct.parts, List.flatMap_map]
      exact (List.append_nil _).symm
    · have hown : p.construct?.toList.filterMap Construct.table? = [] := by
        cases h : p.construct? <;> simp_all
      rw [hown, List.nil_append, htables, List.flatMap_assoc]
      exact List.flatMap_congr ih

theorem allTables_eq (t : Template) :
    t.allTables = t.tables.flatMap fun g => g :: g.rows.flatten.flatMap allTables :=
  filterMap_walk (.template t)

end Template

namespace Body

/-- The tables of a body, those in cells included: each before the tables in its cells. -/
def allTables (b : Body) : List (Grid Body) := tables (b.flatMap Element.hierarchy.all)

theorem tables_append (b b' : Body) : tables (b ++ b') = tables b ++ tables b' :=
  List.filterMap_append

theorem allTables_append (b b' : Body) : allTables (b ++ b') = allTables b ++ allTables b' := by
  rw [allTables, List.flatMap_append, tables_append, allTables, allTables]

theorem allTables_flatten (cells : List Body) :
    allTables cells.flatten = cells.flatMap allTables := by
  induction cells with
  | nil => rfl
  | cons cell cells ih => rw [List.flatten_cons, allTables_append, ih, List.flatMap_cons]

theorem allTables_paragraph (runs : List Run) : allTables [.paragraph runs] = [] := by
  rw [allTables, List.flatMap_singleton, Element.hierarchy.all_eq]
  rfl

theorem allTables_table (id : TableId) (rows : List (List Body)) :
    allTables [.table id rows] = ⟨id, rows⟩ :: rows.flatten.flatMap allTables := by
  rw [← allTables_flatten, allTables, List.flatMap_singleton, Element.hierarchy.all_eq]
  rfl

/-- Each table is followed by those in its cells. -/
theorem allTables_eq (b : Body) :
    b.allTables = b.tables.flatMap fun g => g :: g.rows.flatten.flatMap allTables := by
  induction b with
  | nil => rfl
  | cons e b ih =>
    rw [← List.singleton_append, allTables_append, tables_append, List.flatMap_append, ih]
    cases e with
    | paragraph runs =>
      rw [allTables_paragraph]
      rfl
    | table id rows =>
      rw [allTables_table]
      exact congrArg (· ++ _) (List.append_nil _).symm

theorem flatMap_eq_of_forall₂ {α β γ : Type} {f : α → List γ} {g : β → List γ} {xs : List α}
    {ys : List β} (h : List.Forall₂ (fun x y => f x = g y) xs ys) :
    xs.flatMap f = ys.flatMap g := by
  rw [List.flatMap_def, List.flatMap_def, map_eq_map_iff_forall₂.mpr h]

/-- **The tables at all levels come back in the template,** with their numbers and as many cells in
each row. -/
theorem shapes_allTables {s : Setting} (b : Body) :
    ∀ t, (b.parse s).result = .ok t → t.allTables.map Grid.shape = b.allTables.map Grid.shape := by
  induction b using cellInduction with
  | h b hcells =>
    intro t ht
    rw [t.allTables_eq, b.allTables_eq, List.map_flatMap, List.map_flatMap]
    -- Outside of cells the tables correspond one by one; what is in their cells follows by induction.
    have hmirrored := mirrors_of_cells
      (R := fun cell u => cell.allTables.map Grid.shape = u.allTables.map Grid.shape) ht
      fun id rows htable row hrow cell hcell u hu =>
        (hcells id rows htable row hrow cell hcell u hu).symm
    symm
    apply flatMap_eq_of_forall₂
    apply hmirrored.imp
    rintro ⟨id, rows⟩ ⟨_, rows'⟩ ⟨hrows⟩
    have hshape : Grid.shape ⟨id, rows⟩ = Grid.shape ⟨id, rows'⟩ := by
      have hlengths := map_eq_map_iff_forall₂.mpr (hrows.imp fun _ _ h => h.length_eq)
      rw [Grid.shape, Grid.shape, hlengths]
    have hbelow : (rows.flatten.flatMap allTables).map Grid.shape =
        (rows'.flatten.flatMap Template.allTables).map Grid.shape := by
      rw [List.map_flatMap, List.map_flatMap]
      exact flatMap_eq_of_forall₂ (List.rel_flatten hrows)
    rw [List.map_cons, List.map_cons, hshape, hbelow]

end Body

/-! ## Agreement -/

namespace Template

/-- A construct is counted as a table where it is one. -/
theorem countP_isTable (t : Template) :
    t.walk.countP (·.kindName = "table") = t.allTables.length := by
  rw [allTables, List.length_filterMap_eq_countP]
  apply List.countP_congr
  intro c hc
  cases c <;> simp [Construct.kindName, Construct.table?]

theorem sum_cellCount (t : Template) :
    (t.walk.map Construct.cellCount).sum = (t.allTables.map Grid.cellCount).sum := by
  rw [allTables, sum_map_filterMap]
  congr 1
  apply List.map_congr_left
  intro c hc
  cases c with
  | table id rows => exact List.length_flatten.symm
  | _ => rfl

/-- **Problems, walk and statistics agree on every template.** Its parts are listed in pre-order,
one for each place. The problems are those of the tags of the parts, and there are none if no tag
has one; the walk visits those parts that are constructs; and the statistics have the number of
problems, of constructs of each kind and altogether, of further conditions, and of cells. If the
template is that of a body, it has as many tables and cells as the body at all levels. -/
theorem survey_agrees (t : Template) :
    Part.hierarchy.InPreorder (.template t) t.parts ∧
    t.problems = t.parts.flatMap Part.ownProblems ∧
    (t.isValid = true ↔ ∀ p ∈ t.parts, ∀ tag, p.tag? = some tag → tag.problems = []) ∧
    t.walk = t.parts.filterMap Part.construct? ∧
    (Stats.ofTemplate t).problems = t.problems.length ∧
    (∀ kind, (Stats.ofTemplate t).constructs.get? kind =
      if t.walk.countP (·.kindName = kind) = 0 then none
      else some (t.walk.countP (·.kindName = kind))) ∧
    (Stats.ofTemplate t).total = t.walk.length ∧
    (Stats.ofTemplate t).links = t.parts.countP Part.isLink ∧
    (Stats.ofTemplate t).tableCells = t.parts.countP Part.isCell ∧
    ∀ (s : Setting) (b : Body), (b.parse s).result = .ok t →
      (Stats.ofTemplate t).count "table" = b.allTables.length ∧
      (Stats.ofTemplate t).tableCells = (b.allTables.map Grid.cellCount).sum := by
  have hcounts := Stats.counts_ofTemplate t
  refine ⟨t.inPreorder_parts, t.problems_eq_flatMap, t.isValid_iff, t.walk_eq_filterMap,
    Stats.problems_ofTemplate t, hcounts.constructs, hcounts.total, ?_, ?_, ?_⟩
  · rw [hcounts.links]
    exact (t.countP_parts (fun _ => rfl) Part.countP_isLink).symm
  · rw [hcounts.tableCells]
    exact (t.countP_parts (fun _ => rfl) Part.countP_isCell).symm
  · intro s b ht
    -- The shapes of the tables give both how many there are and how many cells they have.
    have hshapes := b.shapes_allTables t ht
    constructor
    · have hlength := congrArg List.length hshapes
      rw [List.length_map, List.length_map] at hlength
      rw [hcounts.count, t.countP_isTable, hlength]
    · have hcells := congrArg (fun shapes => (shapes.map fun shape => shape.2.sum).sum) hshapes
      simp only [List.map_map, Function.comp_def, ← Grid.cellCount_eq] at hcells
      rw [hcounts.tableCells, t.sum_cellCount, hcells]

end Template

namespace Body

/-- A conditional with a table behind `m:elseif`, inside a repetition that is left open; one cell of
the table has a conditional and a table of its own, and a stray field. -/
def tableInTable : Body :=
  Draft.build
    [.paragraph [.field ["m:for x | xs"], .field ["m:if a"], .field ["m:elseif b"]],
      .table [[[.paragraph [.field ["m:if c"], .field ["m:elseif d"], .field ["m:else"],
        .field ["m:endif"], .field ["m:endfor"]], .table [[[], []]]], []], [[]]]]

end Body

/-- The further conditions and the cells are counted at all levels. -/
theorem Template.survey_agrees_tableInTable :
    ∃ t, (Body.tableInTable.parse { compile := .fixed [] }).result = .ok t ∧
      t.walk.map Construct.kindName =
        ["repetition", "conditional", "table", "conditional", "table"] ∧
      t.parts.countP Part.isLink = 2 ∧ t.parts.countP Part.isCell = 5 ∧
      Body.tableInTable.allTables.length = 2 ∧
      (Body.tableInTable.allTables.map Grid.cellCount).sum = 5 := by
  have hok : (Body.tableInTable.parse { compile := .fixed [] }).result.toOption.map
      (fun t => (t.walk.map Construct.kindName, (Stats.ofTemplate t).count "table",
        (Stats.ofTemplate t).links, (Stats.ofTemplate t).tableCells)) =
      some (["repetition", "conditional", "table", "conditional", "table"], 2, 2, 5) := by
    decide +kernel
  obtain ⟨t, ht, hcounts⟩ := exists_of_toOption_map hok
  obtain ⟨hkinds, htables, hlinks, hcells⟩ : _ ∧ _ ∧ _ ∧ _ := by simpa using hcounts
  obtain ⟨-, -, -, -, -, -, -, hlinkParts, hcellParts, hbody⟩ := survey_agrees t
  obtain ⟨htableCount, hcellCount⟩ := hbody { compile := .fixed [] } Body.tableInTable ht
  exact ⟨t, ht, hkinds, hlinkParts.symm.trans hlinks, hcellParts.symm.trans hcells,
    htableCount.symm.trans htables, hcellCount.symm.trans hcells⟩

end DocTemplate
