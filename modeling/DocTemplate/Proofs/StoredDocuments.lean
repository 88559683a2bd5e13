import DocTemplate.Document.Load
import DocTemplate.Proofs.JsonRoundTrip
import DocTemplate.Proofs.Numbering

/-!
# Documents that are stored and loaded

A body that was stored as JSON is loaded as the same body, with fresh numbers. Members that say
nothing are left out when a body is stored, and what is left out has the same meaning when it is
read; kinds and marks are written as words and read from them.

## Main statements

- `Schema.run?_encode`, `Schema.element?_encode`: runs and elements are read back
- `Body.encode_plain`: what is stored is read back as JSON
- `Body.ofText_encode`: storing and loading a document
-/

namespace DocTemplate

/-! ## Depth of JSON values -/

namespace Json

theorem allFit_iff {depth : Nat} {items : List Json} :
    allFit depth items = true ↔ ∀ j ∈ items, j.fits depth = true := by
  induction items with
  | nil => simp [allFit]
  | cons j items ih => simp [allFit, ih]

theorem membersFit_iff {depth : Nat} {members : List (String × Json)} :
    membersFit depth members = true ↔ ∀ m ∈ members, m.2.fits depth = true := by
  induction members with
  | nil => simp [membersFit]
  | cons m members ih =>
    obtain ⟨key, j⟩ := m
    simp [membersFit, memberFits, ih]

/-- The items of an array have one level less. -/
theorem fits_array_iff {depth : Nat} {items : List Json} :
    (Json.array items).fits depth = true ↔
      ∃ d, depth = d + 1 ∧ ∀ j ∈ items, j.fits d = true := by
  cases depth with
  | zero => simp [fits]
  | succ d => simp [fits, allFit_iff]

/-- So have the members of an object. -/
theorem fits_object_iff {depth : Nat} {members : List (String × Json)} :
    (Json.object members).fits depth = true ↔
      ∃ d, depth = d + 1 ∧ ∀ m ∈ members, m.2.fits d = true := by
  cases depth with
  | zero => simp [fits]
  | succ d => simp [fits, membersFit_iff]

end Json

/-! ## Runs -/

theorem FieldMark.ofWord?_word (m : FieldMark) : FieldMark.ofWord? m.word = some m := by
  cases m <;> rfl

namespace Schema

/-- A list is read back if its items are. -/
theorem list?_map {α : Type} {read : Json → Option α} {value : α → Json} {items : List α}
    (h : ∀ a ∈ items, read (value a) = some a) :
    list? read (.array (items.map value)) = some items := by
  induction items with
  | nil => rfl
  | cons a items ih =>
    have hrest := ih fun b hb => h b (List.mem_cons_of_mem a hb)
    simp only [list?] at hrest ⊢
    simp [List.mapM_cons, h a, hrest]

/-- A member that is left out where it has the default value is read back. -/
theorem orDefault_skipped {α : Type} {read : Json → Option α} {default a : α} {skip : Bool}
    {j : Json} (hskip : skip = true → a = default) (hread : read j = some a) :
    orDefault read default (if skip then none else some j) = some a := by
  cases skip with
  | true => simp [orDefault, hskip rfl]
  | false => exact hread

/-- The members of a stored run; those that say nothing are left out. -/
theorem members?_run (r : Run) :
    members? ["id", "text", "instr_text", "field_char"] r.encode =
      some [some (.nat r.id), if r.text.isEmpty then none else some (.string r.text),
        if r.fragments.isEmpty then none else some (.ofList .string r.fragments),
        r.mark.map fun m => .string m.word] := by
  rw [Run.encode]
  -- Each of the three is there or not, and no member takes the name of another.
  cases r.text.isEmpty <;> cases r.fragments.isEmpty <;> cases r.mark <;> simp [members?]

/-- A run is read back. -/
theorem run?_encode {r : Run} (h : r.id < UInt64.size) : run? r.encode = some r := by
  -- The number is always there; what may be left out is left out with its default value.
  have hid : orDefault id? 0 (some (.nat r.id)) = some r.id := by simp [orDefault, id?, h]
  have htext : orDefault text? "" (if r.text.isEmpty then none else some (.string r.text)) =
      some r.text := orDefault_skipped String.isEmpty_iff.mp rfl
  have hfragments : orDefault (list? text?) []
      (if r.fragments.isEmpty then none else some (.ofList .string r.fragments)) =
        some r.fragments := orDefault_skipped List.isEmpty_iff.mp (list?_map fun s _ => rfl)
  have hmark : orDefault mark? none (r.mark.map fun m => .string m.word) = some r.mark := by
    cases r.mark with
    | none => rfl
    | some m => simp [orDefault, mark?, FieldMark.ofWord?_word]
  simp only [run?, members?_run, Option.bind_eq_bind, Option.bind_some, hid, htext, hfragments,
    hmark]
  rfl

end Schema

/-! ## Elements -/

namespace Body

theorem encodeElements_eq_map (es : List Element) : encodeElements es = es.map encodeElement := by
  induction es with
  | nil => rfl
  | cons e es ih => rw [encodeElements, ih, List.map_cons]

/-- A stored cell. -/
def encodeCell (c : Body) : Json := .object [("body", c.encode)]

/-- A stored row. -/
def encodeRow (r : List Body) : Json := .object [("cells", .array (r.map encodeCell))]

theorem encodeCells_eq_map (cells : List (List Element)) :
    encodeCells cells = cells.map encodeCell := by
  induction cells with
  | nil => rfl
  | cons c cs ih => rw [encodeCells, ih, List.map_cons, encodeCell, encode]

theorem encodeRows_eq_map (rows : List (List (List Element))) :
    encodeRows rows = rows.map encodeRow := by
  induction rows with
  | nil => rfl
  | cons r rs ih => rw [encodeRows, ih, List.map_cons, encodeRow, encodeCells_eq_map]

theorem encode_eq (b : Body) : b.encode = .object [("elements", .array (b.map encodeElement))] := by
  rw [encode, encodeElements_eq_map]

theorem encodeElement_table (id : TableId) (rows : List (List (List Element))) :
    encodeElement (.table id rows) = .object
      [("type", .string "table"), ("id", .nat id), ("rows", .array (rows.map encodeRow))] := by
  rw [encodeElement, encodeRows_eq_map]

/-- The elements of a body have two levels less than the body. -/
theorem fits_encode {b : Body} {depth : Nat} (h : b.encode.fits depth = true) :
    ∃ d, depth = d + 2 ∧ ∀ e ∈ b, (encodeElement e).fits d = true := by
  rw [encode_eq, Json.fits_object_iff] at h
  obtain ⟨d₁, rfl, hmembers⟩ := h
  obtain ⟨d, rfl, helements⟩ := Json.fits_array_iff.mp (hmembers _ List.mem_cons_self)
  exact ⟨d, rfl, fun e he => helements _ (List.mem_map_of_mem he)⟩

/-- An element has a level of its own. -/
theorem depth_pos_of_fits {e : Element} {depth : Nat} (h : (encodeElement e).fits depth = true) :
    0 < depth := by
  cases e with
  | paragraph rs =>
    rw [encodeElement, Json.fits_object_iff] at h
    obtain ⟨d, rfl, -⟩ := h
    exact d.succ_pos
  | table id rows =>
    rw [encodeElement_table, Json.fits_object_iff] at h
    obtain ⟨d, rfl, -⟩ := h
    exact d.succ_pos

/-- The elements in the cells of a table have seven levels less than the table. -/
theorem fits_cell {id : TableId} {rows : List (List Body)} {depth : Nat}
    (h : (encodeElement (.table id rows)).fits depth = true) {row : List Body} (hrow : row ∈ rows)
    {cell : Body} (hcell : cell ∈ row) :
    ∃ d, depth = d + 7 ∧ ∀ e ∈ cell, (encodeElement e).fits d = true := by
  -- From the table down: its rows, one row, its cells, one cell, and the body of the cell.
  rw [encodeElement_table, Json.fits_object_iff] at h
  obtain ⟨d₁, rfl, htable⟩ := h
  obtain ⟨d₂, rfl, hrows⟩ :=
    Json.fits_array_iff.mp (htable ("rows", .array (rows.map encodeRow)) (by simp))
  obtain ⟨d₃, rfl, hone⟩ := Json.fits_object_iff.mp (hrows _ (List.mem_map_of_mem hrow))
  obtain ⟨d₄, rfl, hcells⟩ := Json.fits_array_iff.mp (hone _ List.mem_cons_self)
  obtain ⟨d₅, rfl, hbody⟩ := Json.fits_object_iff.mp (hcells _ (List.mem_map_of_mem hcell))
  obtain ⟨d, rfl, helements⟩ := fits_encode (hbody _ List.mem_cons_self)
  exact ⟨d, rfl, helements⟩

end Body

/-! ## Numbers -/

namespace Body

/-- The numbers of all runs and tables are numbers of 64 bits. -/
structure NumbersFit (b : Body) : Prop where
  runs : ∀ r ∈ b.runs, r.id < UInt64.size
  tables : ∀ t ∈ b.tableIds, t < UInt64.size

theorem NumbersFit.paragraph {b : Body} (h : b.NumbersFit) {rs : List Run}
    (hmem : .paragraph rs ∈ b) {r : Run} (hr : r ∈ rs) : r.id < UInt64.size := by
  obtain ⟨before, after, rfl⟩ := List.append_of_mem hmem
  apply h.runs r
  rw [runs_append, runs_paragraph]
  exact List.mem_append_right _ (List.mem_append_left _ hr)

theorem NumbersFit.table {b : Body} (h : b.NumbersFit) {id : TableId} {rows : List (List Body)}
    (hmem : .table id rows ∈ b) : id < UInt64.size := by
  obtain ⟨before, after, rfl⟩ := List.append_of_mem hmem
  apply h.tables id
  rw [tableIds_append, tableIds_table]
  exact List.mem_append_right _ List.mem_cons_self

theorem NumbersFit.cell {b : Body} (h : b.NumbersFit) {id : TableId} {rows : List (List Body)}
    (hmem : .table id rows ∈ b) {row : List Body} (hrow : row ∈ rows) {cell : Body}
    (hcell : cell ∈ row) : cell.NumbersFit := by
  obtain ⟨before, after, rfl⟩ := List.append_of_mem hmem
  constructor
  · intro r hr
    apply h.runs r
    rw [runs_append, runs_table]
    simp only [List.mem_append, List.mem_flatMap]
    exact .inr (.inl ⟨row, hrow, cell, hcell, hr⟩)
  · intro t ht
    apply h.tables t
    rw [tableIds_append, tableIds_table]
    simp only [List.mem_append, List.mem_cons, List.mem_flatMap]
    exact .inr (.inl (.inr ⟨row, hrow, cell, hcell, ht⟩))

end Body

/-! ## What is stored -/

theorem Run.encode_plain {r : Run} (h : r.id < UInt64.size) : r.encode.Plain := by
  rw [Run.encode]
  apply Json.Plain.object
  intro m hm
  simp only [List.mem_append, List.mem_cons] at hm
  rcases hm with ((rfl | hm) | hm) | hm
  · exact .nat h
  · split at hm
    · contradiction
    · rw [List.mem_singleton.mp hm]
      exact .string r.text
  · split at hm
    · contradiction
    · rw [List.mem_singleton.mp hm]
      exact .array (List.forall_mem_map.mpr fun s _ => .string s)
  · split at hm
    · rw [List.mem_singleton.mp hm]
      exact .string _
    · contradiction

namespace Body

/-- A row is written as JSON without numerals if its cells are. -/
theorem encodeRow_plain {row : List Body} (h : ∀ c ∈ row, c.encode.Plain) :
    (encodeRow row).Plain := by
  have hcells : ∀ c ∈ row, (encodeCell c).Plain := fun c hc =>
    .object (List.forall_mem_singleton.mpr (h c hc))
  exact .object (List.forall_mem_singleton.mpr (.array (List.forall_mem_map.mpr hcells)))

theorem encode_plain (b : Body) (h : b.NumbersFit) : b.encode.Plain := by
  induction b using cellInduction with
  | h b ih =>
    rw [encode_eq]
    refine .object (List.forall_mem_singleton.mpr (.array (List.forall_mem_map.mpr ?_)))
    intro e he
    cases e with
    | paragraph rs =>
      have hruns : ∀ r ∈ rs, r.encode.Plain := fun r hr => Run.encode_plain (h.paragraph he hr)
      rw [encodeElement]
      apply Json.Plain.object
      simpa [Json.ofList] using ⟨.string _, .array (List.forall_mem_map.mpr hruns)⟩
    | table id rows =>
      have hrows : ∀ row ∈ rows, (encodeRow row).Plain := fun row hrow =>
        encodeRow_plain fun c hc => ih id rows he row hrow c hc (h.cell he hrow hc)
      rw [encodeElement_table]
      apply Json.Plain.object
      simpa using ⟨.string _, .nat (h.table he), .array (List.forall_mem_map.mpr hrows)⟩

end Body

/-! ## Elements are read back -/

namespace Schema

open Body (encodeElement encodeCell encodeRow)

theorem only?_object (name : String) (j : Json) :
    only? name (.object [(name, j)]) = some (some j) := by
  simp [only?, members?]

/-- A body is read back if its elements are. -/
theorem body?_encode {read : Json → Option Element} {b : Body}
    (h : ∀ e ∈ b, read (encodeElement e) = some e) : body? read b.encode = some b := by
  rw [Body.encode_eq, body?, only?_object]
  exact list?_map h

/-- So is the body of a cell. -/
theorem cell?_encode {read : Json → Option Element} {c : Body}
    (h : ∀ e ∈ c, read (encodeElement e) = some e) : cell? read (encodeCell c) = some c := by
  rw [encodeCell, cell?, only?_object]
  exact body?_encode h

/-- So are the cells of a row. -/
theorem row?_encode {read : Json → Option Element} {row : List Body}
    (h : ∀ c ∈ row, ∀ e ∈ c, read (encodeElement e) = some e) :
    row? read (encodeRow row) = some row := by
  rw [encodeRow, row?, only?_object]
  exact list?_map fun c hc => cell?_encode (h c hc)

theorem element?_paragraph {rs : List Run} (h : ∀ r ∈ rs, r.id < UInt64.size) (levels : Nat)
    (nested : Bool) :
    element? (levels + 1) nested (encodeElement (.paragraph rs)) = some (.paragraph rs) := by
  have hruns : list? run? (.ofList Run.encode rs) = some rs :=
    list?_map fun r hr => run?_encode (h r hr)
  have hsplit : splitKind? nested (encodeElement (.paragraph rs)) =
      some (.paragraph, .object [("runs", .ofList Run.encode rs)]) := by
    rw [encodeElement]
    rfl
  simp [element?, hsplit, only?_object, orDefault, hruns]

theorem element?_table {id : TableId} {rows : List (List Body)} (hid : id < UInt64.size)
    {levels : Nat} (hcells : ∀ row ∈ rows, ∀ cell ∈ row, ∀ e ∈ cell,
      element? levels true (encodeElement e) = some e) (nested : Bool) :
    element? (levels + 1) nested (encodeElement (.table id rows)) = some (.table id rows) := by
  have hrows : list? (row? (element? levels true)) (.array (rows.map encodeRow)) = some rows :=
    list?_map fun row hrow => row?_encode (hcells row hrow)
  have hsplit : splitKind? nested (encodeElement (.table id rows)) =
      some (.table, .object [("id", .nat id), ("rows", .array (rows.map encodeRow))]) := by
    rw [Body.encodeElement_table]
    rfl
  simp [element?, hsplit, members?, orDefault, id?, hid, hrows]

/-- The elements of a body are read back, wherever they stand, with as many levels as they have. -/
theorem element?_encode (b : Body) (h : b.NumbersFit) :
    ∀ e ∈ b, ∀ {depth levels : Nat} (nested : Bool), depth ≤ levels →
      (encodeElement e).fits depth = true →
      element? levels nested (encodeElement e) = some e := by
  induction b using Body.cellInduction with
  | h b ih =>
    intro e he depth levels nested hlevels hfits
    -- An element has a level of its own, so there is a level to read it with.
    have hdepth := Body.depth_pos_of_fits hfits
    obtain ⟨levels, rfl⟩ := Nat.exists_eq_add_one.mpr (Nat.lt_of_lt_of_le hdepth hlevels)
    cases e with
    | paragraph rs => exact element?_paragraph (fun r hr => h.paragraph he hr) levels nested
    | table id rows =>
      apply element?_table (h.table he)
      -- A cell has seven levels less than the table, and reading it takes one level more.
      intro row hrow cell hcell e' he'
      obtain ⟨d, rfl, hcellFits⟩ := Body.fits_cell hfits hrow hcell
      exact ih id rows he row hrow cell hcell (h.cell he hrow hcell) e' he' true (by omega)
        (hcellFits e' he')

/-- A body that is not nested too deep is read back as a document. -/
theorem document?_encode {b : Body} (h : b.NumbersFit)
    (hnesting : b.encode.fits nestingLimit = true) : document? b.encode = some b := by
  obtain ⟨d, hd, hfits⟩ := Body.fits_encode hnesting
  apply body?_encode
  intro e he
  -- What the nesting leaves to the elements is what the reader allows them.
  have hlimit : d = elementLimit := by
    rw [elementLimit, hd, Nat.add_sub_cancel]
  subst hlimit
  rw [if_pos (hfits e he)]
  exact element?_encode b h e he false (Nat.le_refl _) (hfits e he)

end Schema

/-! ## Storing and loading -/

namespace Body

/-- What a body needs to be stored: numbers of 64 bits, and no deeper nesting than can be read. -/
structure Storable (b : Body) : Prop extends NumbersFit b where
  nesting : b.encode.fits Schema.nestingLimit = true

/-- Loading what was stored is numbering it and looking at the count of runs. -/
theorem ofText_compact {b : Body} (h : b.Storable) :
    ofText b.encode.compact =
      if Limits.documentRuns < b.number.2.run then
        .error (.tooManyRuns b.number.2.run Limits.documentRuns)
      else .ok b.number.1 := by
  have hparse := Json.parse?_compact (encode_plain b h.toNumbersFit)
  have hdocument := Schema.document?_encode h.toNumbersFit h.nesting
  simp only [ofText, hparse, Option.bind_some, hdocument]

/-- **A stored document is loaded as it was, with fresh numbers.** If it has too many runs it is
refused, and the error tells how many there are. The numbers that it was stored with make no
difference. -/
theorem ofText_encode {b : Body} (h : b.Storable) :
    (b.runCount ≤ Limits.documentRuns → ofText b.encode.compact = .ok b.numbered) ∧
    (Limits.documentRuns < b.runCount → ofText b.encode.compact =
      .error (.tooManyRuns b.runCount Limits.documentRuns)) ∧
    ∀ b' : Body, b'.Storable → b'.unnumbered = b.unnumbered →
      ofText b'.encode.compact = ofText b.encode.compact := by
  have hload := ofText_compact h
  refine ⟨?_, ?_, ?_⟩
  · intro hfew
    rw [hload, run_number, if_neg (Nat.not_lt.mpr hfew), numbered]
  · intro hmany
    rw [hload, run_number, if_pos hmany]
  · intro b' h' hsame
    -- Both are numbered from the same body without numbers.
    have hnumber : b'.number = b.number := by
      rw [← number_unnumbered b', hsame, number_unnumbered]
    rw [hload, ofText_compact h', hnumber]

/-- A paragraph of empty runs, however many, can be stored. -/
theorem storable_replicate (n : Nat) : Storable [.paragraph (List.replicate n {})] := by
  refine ⟨⟨?_, ?_⟩, ?_⟩
  · rw [runs_paragraph]
    intro r hr
    simp only [runs, pushRuns, List.reverse_nil, List.append_nil, List.mem_replicate] at hr
    rw [hr.2]
    decide
  · intro t ht
    contradiction
  · have hrun : (Run.encode {}).fits 123 = true := by decide
    simp [encode, encodeElements, encodeElement, Schema.nestingLimit, Json.ofList, Json.fits,
      Json.membersFit, Json.memberFits, Json.allFit_iff, hrun]

theorem runCount_replicate (n : Nat) : runCount [.paragraph (List.replicate n {})] = n := by
  rw [runCount_paragraph, List.length_replicate]
  rfl

/-- A table in a cell of a table, and numbers that are used twice or are the largest that fit. -/
theorem ofText_encode_tableInCell :
    let b (n m : Nat) : Body :=
      [.paragraph [{ id := n, fragments := ["IF \"é\"\n", ""], mark := some .opening }],
        .table m [[[.table m [[], [[]]], .paragraph [{ id := n, text := "\\ 😀" }]], []]]]
    let long : Body := [.paragraph (List.replicate 1000001 {})]
    (b 7 7).Storable ∧ ofText (b 7 7).encode.compact = .ok
      [.paragraph [{ id := 0, fragments := ["IF \"é\"\n", ""], mark := some .opening }],
        .table 0 [[[.table 1 [[], [[]]], .paragraph [{ id := 1, text := "\\ 😀" }]], []]]] ∧
    (b (UInt64.size - 1) 0).Storable ∧
    ofText (b (UInt64.size - 1) 0).encode.compact = ofText (b 7 7).encode.compact ∧
    long.Storable ∧ ofText long.encode.compact = .error (.tooManyRuns 1000001 1000000) := by
  intro b long
  have hseven : (b 7 7).Storable := ⟨⟨by decide, by decide⟩, by decide⟩
  have hlarge : (b (UInt64.size - 1) 0).Storable := ⟨⟨by decide, by decide⟩, by decide⟩
  -- One run more than a document may have.
  have hlong : long.Storable := storable_replicate 1000001
  have hcount : long.runCount = 1000001 := runCount_replicate 1000001
  refine ⟨hseven, (ofText_encode hseven).1 (by decide), hlarge,
    (ofText_encode hseven).2.2 _ hlarge rfl, hlong, ?_⟩
  rw [(ofText_encode hlong).2.1 (by rw [hcount]; decide), hcount]
  rfl

end Body

end DocTemplate
