import DocTemplate.Proofs.Anonymity

/-!
# How instructions are cut into runs

What the runs between the marks of a field say together is the instruction; how it is cut into runs,
into fragments of a run and into paragraphs is an accident of how the document was edited. Cutting a
body anew may give other runs and so other numbers, but it does not change what is parsed from it in
any other way. Moving the ends of paragraphs changes nothing at all.

## Main statements

- `SayAlike.peekInstruction_eq`: looking ahead does not see the cuts
- `SayAlike.linear`: positions that say the same are cut into tokens that count as the same
- `Body.parse_recut`: the template does not depend on the cuts
-/

namespace DocTemplate

/-! ## Cutting runs -/

/-- A run is cut into runs that together have its instruction. One without a mark may be cut into
several; one with a mark stays a single run, of which only the fragments are regrouped. -/
structure Run.CutInto (r : Run) (rs : List Run) : Prop where
  nonempty : rs ≠ []
  instruction : rs.flatMap Run.instruction = r.instruction
  mark : ∀ x ∈ rs, x.mark = r.mark
  whole : r.mark ≠ none → rs.length = 1

instance (r : Run) (rs : List Run) : Decidable (r.CutInto rs) :=
  decidable_of_iff
    (rs ≠ [] ∧ rs.flatMap Run.instruction = r.instruction ∧ (∀ x ∈ rs, x.mark = r.mark) ∧
      (r.mark ≠ none → rs.length = 1))
    ⟨fun ⟨h₁, h₂, h₃, h₄⟩ => ⟨h₁, h₂, h₃, h₄⟩, fun ⟨h₁, h₂, h₃, h₄⟩ => ⟨h₁, h₂, h₃, h₄⟩⟩

/-- Each run of a list is cut anew. -/
def Recut (xs ys : List Run) : Prop :=
  ∃ pieces : List (List Run), List.Forall₂ Run.CutInto xs pieces ∧ ys = pieces.flatten

namespace Run.CutInto

variable {r : Run} {rs : List Run}

theorem isOpening (h : r.CutInto rs) {x : Run} (hx : x ∈ rs) : x.isOpening = r.isOpening := by
  rw [Run.isOpening, Run.isOpening, h.mark x hx]

theorem isClosing (h : r.CutInto rs) {x : Run} (hx : x ∈ rs) : x.isClosing = r.isClosing := by
  rw [Run.isClosing, Run.isClosing, h.mark x hx]

/-- A run with a mark stays one run. -/
theorem eq_singleton (h : r.CutInto rs) (hmark : r.isOpening = true ∨ r.isClosing = true) :
    ∃ x, rs = [x] := by
  apply List.length_eq_one_iff.mp
  apply h.whole
  intro hnone
  simp [Run.isOpening, Run.isClosing, hnone] at hmark

theorem ids (h : r.CutInto rs) : [r.id] = [] ↔ rs.map Run.id = [] := by
  simp [h.nonempty]

end Run.CutInto

theorem peekInstruction_runs {rs : List Run} (h : ∀ x ∈ rs, x.isClosing = false)
    (ps : List Position) :
    peekInstruction (rs.map .run ++ ps) =
      (peekInstruction ps).map (rs.flatMap Run.instruction ++ ·) := by
  induction rs with
  | nil => simp
  | cons r rs ih =>
    obtain ⟨hr, hrs⟩ := List.forall_mem_cons.mp h
    simp [peekInstruction, hr, ih hrs, Function.comp_def]

/-! ## Positions that say the same -/

/-- Positions with the same tables, up to `like` in their cells, and with runs cut anew. -/
inductive SayAlike (like : List Token → List Token → Prop) :
    List Position → List Position → Prop where
  | nil : SayAlike like [] []
  | run {r : Run} {rs : List Run} {ps qs : List Position} (hcut : r.CutInto rs)
      (hrest : SayAlike like ps qs) : SayAlike like (.run r :: ps) (rs.map .run ++ qs)
  | table {id : TableId} {rows rows' : List (List (List Token))} {ps qs : List Position}
      (hcells : List.Forall₂ (List.Forall₂ like) rows rows') (hrest : SayAlike like ps qs) :
      SayAlike like (.table id rows :: ps) (.table id rows' :: qs)

namespace SayAlike

variable {like : List Token → List Token → Prop} {ps qs : List Position}

theorem runs {xs ys : List Run} (hruns : Recut xs ys) (hrest : SayAlike like ps qs) :
    SayAlike like (xs.map .run ++ ps) (ys.map .run ++ qs) := by
  obtain ⟨pieces, hpieces, rfl⟩ := hruns
  induction hpieces with
  | nil => exact hrest
  | cons hcut hpieces ih =>
    rw [List.flatten_cons, List.map_append, List.append_assoc]
    exact .run hcut ih

/-- Looking ahead sees the same instruction, however it is cut. -/
theorem peekInstruction_eq (h : SayAlike like ps qs) : peekInstruction ps = peekInstruction qs := by
  induction h with
  | nil => rfl
  | table hcells hrest ih => rfl
  | @run r rs ps qs hcut hrest ih =>
    cases hclosing : r.isClosing with
    | true =>
      obtain ⟨x, rfl⟩ := hcut.eq_singleton (.inr hclosing)
      have hx : x.isClosing = true := by rw [hcut.isClosing List.mem_cons_self, hclosing]
      simp [peekInstruction, hclosing, hx]
    | false =>
      have hrs : ∀ x ∈ rs, x.isClosing = false := by
        intro x hx
        rw [hcut.isClosing hx, hclosing]
      rw [peekInstruction_runs hrs, hcut.instruction, peekInstruction, hclosing, ih]
      rfl

/-- Where a field ends on the one side, one with the same instruction ends on the other, and what
follows is the same again. -/
theorem exists_field {inner : List Run} {closing : Run} {rest : List Position}
    (h : SayAlike like (inner.map .run ++ .run closing :: rest) qs)
    (hinner : ∀ r ∈ inner, r.isClosing = false) (hclosing : closing.isClosing = true) :
    ∃ (inner' : List Run) (closing' : Run) (rest' : List Position),
      qs = inner'.map .run ++ .run closing' :: rest' ∧
      (∀ r ∈ inner', r.isClosing = false) ∧ closing'.isClosing = true ∧
      inner'.flatMap Run.instruction = inner.flatMap Run.instruction ∧ SayAlike like rest rest' := by
  induction inner generalizing qs with
  | nil =>
    cases h with
    | run hcut hrest =>
      obtain ⟨x, rfl⟩ := hcut.eq_singleton (.inr hclosing)
      refine ⟨[], x, _, rfl, by simp, ?_, rfl, hrest⟩
      rw [hcut.isClosing List.mem_cons_self, hclosing]
  | cons r inner ih =>
    obtain ⟨hr, hinner⟩ := List.forall_mem_cons.mp hinner
    cases h with
    | @run _ rs _ qs hcut hrest =>
      obtain ⟨inner', closing', rest', rfl, hinner', hclosing', htext, hrest'⟩ := ih hrest hinner
      refine ⟨rs ++ inner', closing', rest', by simp, ?_, hclosing', ?_, hrest'⟩
      · intro x hx
        rcases List.mem_append.mp hx with hx | hx
        · rw [hcut.isClosing hx, hr]
        · exact hinner' x hx
      · rw [List.flatMap_append, List.flatMap_cons, hcut.instruction, htext]

/-- A run of plain text is cut into plain text. -/
theorem linear_run {r : Run} {rs : List Run} (hcut : r.CutInto rs) (hrest : SayAlike like ps qs)
    (htext : classify (.run r :: ps) = .text) :
    linear (rs.map .run ++ qs) = (rs.map Run.id).map .text ++ linear qs := by
  cases hopening : r.isOpening with
  | false =>
    apply linear_plain
    intro x hx
    rw [hcut.isOpening hx, hopening]
  | true =>
    -- The field that would open here is no tag, or not complete, and no more so on the other side.
    obtain ⟨x, rfl⟩ := hcut.eq_singleton (.inl hopening)
    have hx : x.isOpening = true := by rw [hcut.isOpening List.mem_cons_self, hopening]
    have htext' : classify (.run x :: qs) = .text := by
      rw [classify, hx, ← hrest.peekInstruction_eq]
      rwa [classify, hopening] at htext
    exact linear_text htext'

/-- **Positions that say the same are cut into tokens that count as the same.** -/
theorem linear {s : Setting} (h : SayAlike (Agreement.anonymous s).Alike ps qs) :
    (Agreement.anonymous s).Alike (linear ps) (linear qs) := by
  induction ps using linear_induction generalizing qs with
  | nil =>
    cases h
    rw [linear_nil]
    exact .nil
  | table id rows ps ih =>
    cases h with
    | table hcells hrest =>
      rw [linear_table, linear_table]
      exact .table hcells (ih hrest)
  | tag ps f rest k hf hk ih =>
    obtain ⟨rfl, hopening, hinner, hclosing⟩ := readField_eq_ok hf
    cases h with
    | run hcut hrest =>
      obtain ⟨x, rfl⟩ := hcut.eq_singleton (.inl hopening)
      obtain ⟨inner, closing, rest', rfl, hinner', hclosing', htext, hrest'⟩ :=
        hrest.exists_field hinner hclosing
      have hx : x.isOpening = true := by rw [hcut.isOpening List.mem_cons_self, hopening]
      have hg := readField_field (f := ⟨x, inner, closing⟩) hx hinner' hclosing' rest'
      have hinstruction : f.instruction = Field.instruction ⟨x, inner, closing⟩ := by
        simp only [Field.instruction, htext]
      rw [linear_tag hf hk]
      rw [hinstruction] at hk
      show (Agreement.anonymous s).Alike _
        (DocTemplate.linear (.run x :: (inner.map .run ++ .run closing :: rest')))
      rw [linear_tag hg hk]
      exact .tag hinstruction (ih hrest')
  | text r ps htext ih =>
    cases h with
    | @run _ rs _ qs hcut hrest =>
      rw [linear_text htext, linear_run hcut hrest htext]
      have hstretch : (Agreement.anonymous s).stretch [r.id] (rs.map Run.id) := hcut.ids
      exact .text hstretch (ih hrest)

end SayAlike

/-! ## Bodies -/

/-- Two bodies with the same tables. Between two tables the runs of the paragraphs are related by
`R`, wherever the paragraphs end; and the bodies in the cells correspond in the same way. -/
inductive Body.Corresponds (R : List Run → List Run → Prop) : Body → Body → Prop where
  | nil : Corresponds R [] []
  | paragraphs {ps qs : List (List Run)} {b c : Body} (hruns : R ps.flatten qs.flatten)
      (hrest : Corresponds R b c) :
      Corresponds R (ps.map .paragraph ++ b) (qs.map .paragraph ++ c)
  | table {id : TableId} {rows rows' : List (List Body)} {b c : Body}
      (hcells : List.Forall₂ (List.Forall₂ (Corresponds R)) rows rows') (hrest : Corresponds R b c) :
      Corresponds R (.table id rows :: b) (.table id rows' :: c)

namespace Body

/-- Induction over bodies that correspond, through the cells of tables. -/
@[elab_as_elim]
theorem Corresponds.cellInduction {R : List Run → List Run → Prop} {P : Body → Body → Prop}
    {b c : Body} (h : Corresponds R b c) (nil : P [] [])
    (paragraphs : ∀ (ps qs : List (List Run)) b c, R ps.flatten qs.flatten → P b c →
      P (ps.map .paragraph ++ b) (qs.map .paragraph ++ c))
    (table : ∀ id rows rows' b c, List.Forall₂ (List.Forall₂ P) rows rows' → P b c →
      P (.table id rows :: b) (.table id rows' :: c)) : P b c :=
  @Corresponds.rec R (fun b c _ => P b c)
    (fun rows rows' _ => List.Forall₂ (List.Forall₂ P) rows rows')
    (fun cells cells' _ => List.Forall₂ P cells cells')
    nil (fun hruns _ ih => paragraphs _ _ _ _ hruns ih)
    (fun _ _ ihcells ih => table _ _ _ _ _ ihcells ih)
    .nil (fun _ _ ihrow ihrows => .cons ihrow ihrows)
    .nil (fun _ _ ihcell ihcells => .cons ihcell ihcells) b c h

/-- Where the paragraphs end is not to be seen in the positions. -/
theorem linearPositions_paragraphs (ps : List (List Run)) (b : Body) :
    linearPositions (ps.map .paragraph ++ b) = ps.flatten.map .run ++ linearPositions b := by
  induction ps with
  | nil => rfl
  | cons p ps ih => simp [linearPositions, elementPositions, ih]

theorem forall₂_linearRows {R : List Token → List Token → Prop} {rows rows' : List (List Body)}
    (h : List.Forall₂ (List.Forall₂ fun b c => R b.linearTokens c.linearTokens) rows rows') :
    List.Forall₂ (List.Forall₂ R) (linearRows rows) (linearRows rows') := by
  rw [linearRows_eq_map, linearRows_eq_map, List.forall₂_map_left_iff, List.forall₂_map_right_iff]
  refine h.imp fun row row' hrow => ?_
  rwa [List.forall₂_map_left_iff, List.forall₂_map_right_iff]

theorem linearPositions_table (id : TableId) (rows : List (List Body)) (b : Body) :
    linearPositions (.table id rows :: b) = .table id (linearRows rows) :: linearPositions b := by
  simp [linearPositions, elementPositions]

/-- A body that is cut anew has positions that say the same. -/
theorem Corresponds.sayAlike {b c : Body} (h : Corresponds Recut b c) (s : Setting) :
    SayAlike (Agreement.anonymous s).Alike (linearPositions b) (linearPositions c) := by
  refine h.cellInduction ?nil ?paragraphs ?table
  case nil => exact .nil
  case paragraphs =>
    intro ps qs b c hruns ih
    rw [linearPositions_paragraphs, linearPositions_paragraphs]
    exact .runs hruns ih
  case table =>
    intro id rows rows' b c ihcells ih
    rw [linearPositions_table, linearPositions_table]
    apply SayAlike.table _ ih
    apply forall₂_linearRows
    exact ihcells.imp fun row row' hrow => hrow.imp fun c c' hcell => hcell.linear

/-- Bodies that differ in the ends of paragraphs alone have the same positions. -/
theorem Corresponds.linearPositions_eq {b c : Body} (h : Corresponds Eq b c) :
    linearPositions b = linearPositions c := by
  refine h.cellInduction ?nil ?paragraphs ?table
  case nil => rfl
  case paragraphs =>
    intro ps qs b c hruns ih
    rw [linearPositions_paragraphs, linearPositions_paragraphs, hruns, ih]
  case table =>
    intro id rows rows' b c ihcells ih
    have hrows : List.Forall₂ (List.Forall₂ Eq) (linearRows rows) (linearRows rows') := by
      apply forall₂_linearRows
      exact ihcells.imp fun row row' hrow => hrow.imp fun c c' hcell => congrArg linear hcell
    rw [List.forall₂_eq_eq_eq, List.forall₂_eq_eq_eq] at hrows
    rw [linearPositions_table, linearPositions_table, hrows, ih]

/-- **How a body is cut into runs, fragments and paragraphs does not matter.** Cut anew, it is parsed
to the same up to the numbers of runs: both parses fail, with errors that differ in the number of
their run at most, or both give templates that do. If only paragraphs end elsewhere, the parse is the
same altogether. -/
theorem parse_recut (s : Setting) (b c : Body) :
    (Corresponds Recut b c →
      (∃ e e', (b.parse s).result = .error e ∧ (c.parse s).result = .error e' ∧
          e.anonymous = e'.anonymous) ∨
        ∃ t t', (b.parse s).result = .ok t ∧ (c.parse s).result = .ok t' ∧
          t.anonymous = t'.anonymous) ∧
      (Corresponds Eq b c → c.parse s = b.parse s) := by
  constructor
  · intro h
    have hsame := (h.sayAlike s).linear.readAlike.ofTokens 0
    rw [b.result_parse, c.result_parse]
    simp only [Body.linearTokens]
    cases hread : Template.ofTokens s 0 (linear (linearPositions b)) with
    | error e =>
      rw [hread] at hsame
      obtain ⟨e', hread', he⟩ := Reduction.onResult_eq_error hsame.symm
      exact .inl ⟨e, e', rfl, hread', he.symm⟩
    | ok t =>
      rw [hread] at hsame
      obtain ⟨t', hread', ht⟩ := Reduction.onResult_eq_ok hsame.symm
      exact .inr ⟨t, t', rfl, hread', ht.symm⟩
  · intro h
    rw [parse, parse, tokens_eq_linearTokens, tokens_eq_linearTokens, linearTokens, linearTokens,
      h.linearPositions_eq]

/-- A repetition around a table, with every instruction in one run. -/
def loopUncut : Body :=
  [.paragraph [⟨0, "", [], some .opening⟩, ⟨1, "", ["m:for x | xs"], none⟩,
      ⟨2, "", [], some .closing⟩, ⟨3, "a", [], none⟩],
    .table 0 [[[.paragraph [⟨4, "", [], some .opening⟩, ⟨5, "", ["m:", "x"], none⟩,
      ⟨6, "", [], some .closing⟩]]]],
    .paragraph [⟨7, "", [], some .opening⟩, ⟨8, "", ["m:endfor"], none⟩,
      ⟨9, "", [], some .closing⟩]]

/-- The same with a keyword cut in two, over the end of a paragraph, and with fragments regrouped in
the cell. -/
def loopCut : Body :=
  [.paragraph [⟨0, "", [], some .opening⟩, ⟨1, "", ["m:f"], none⟩],
    .paragraph [⟨2, "", ["or x |"], none⟩, ⟨3, "", [" ", "xs"], none⟩,
      ⟨4, "", [], some .closing⟩, ⟨5, "a", [], none⟩],
    .table 0 [[[.paragraph [⟨6, "", [], some .opening⟩, ⟨7, "", ["m:x"], none⟩,
      ⟨8, "", [], some .closing⟩]]]],
    .paragraph [⟨9, "", [], some .opening⟩, ⟨10, "", ["m:endfor"], none⟩,
      ⟨11, "", [], some .closing⟩]]

/-- The first one with a field over the end of a paragraph. -/
def loopReflowed : Body :=
  .paragraph [⟨0, "", [], some .opening⟩, ⟨1, "", ["m:for x | xs"], none⟩] ::
    .paragraph [⟨2, "", [], some .closing⟩, ⟨3, "a", [], none⟩] :: loopUncut.tail

/-- Between the first two bodies only run numbers change, and between the first and the third
nothing. -/
theorem parse_recut_loopCut :
    Corresponds Recut loopUncut loopCut ∧ Corresponds Eq loopUncut loopReflowed ∧
      (∃ t t', (loopUncut.parse { compile := .fixed [] }).result = .ok t ∧
        (loopCut.parse { compile := .fixed [] }).result = .ok t' ∧ t.anonymous = t'.anonymous) ∧
      loopReflowed.parse { compile := .fixed [] } = loopUncut.parse { compile := .fixed [] } := by
  have hheader : Recut
      [⟨0, "", [], some .opening⟩, ⟨1, "", ["m:for x | xs"], none⟩, ⟨2, "", [], some .closing⟩,
        ⟨3, "a", [], none⟩]
      [⟨0, "", [], some .opening⟩, ⟨1, "", ["m:f"], none⟩, ⟨2, "", ["or x |"], none⟩,
        ⟨3, "", [" ", "xs"], none⟩, ⟨4, "", [], some .closing⟩, ⟨5, "a", [], none⟩] :=
    ⟨[[_], [_, _, _], [_], [_]], by decide +kernel, rfl⟩
  have hcell : Recut
      [⟨4, "", [], some .opening⟩, ⟨5, "", ["m:", "x"], none⟩, ⟨6, "", [], some .closing⟩]
      [⟨6, "", [], some .opening⟩, ⟨7, "", ["m:x"], none⟩, ⟨8, "", [], some .closing⟩] :=
    ⟨[[_], [_], [_]], by decide +kernel, rfl⟩
  have hend : Recut
      [⟨7, "", [], some .opening⟩, ⟨8, "", ["m:endfor"], none⟩, ⟨9, "", [], some .closing⟩]
      [⟨9, "", [], some .opening⟩, ⟨10, "", ["m:endfor"], none⟩, ⟨11, "", [], some .closing⟩] :=
    ⟨[[_], [_], [_]], by decide +kernel, rfl⟩
  have hcut : Corresponds Recut loopUncut loopCut :=
    @Corresponds.paragraphs _ [_] [_, _] _ _ hheader
      (.table (.cons (.cons (@Corresponds.paragraphs _ [_] [_] _ _ hcell .nil) .nil) .nil)
        (@Corresponds.paragraphs _ [_] [_] _ _ hend .nil))
  have hreflowed : Corresponds Eq loopUncut loopReflowed :=
    @Corresponds.paragraphs _ [_] [_, _] _ _ rfl
      (.table (.cons (.cons (@Corresponds.paragraphs _ [_] [_] _ _ rfl .nil) .nil) .nil)
        (@Corresponds.paragraphs _ [_] [_] _ _ rfl .nil))
  have hok : (loopUncut.parse { compile := .fixed [] }).result.toOption.isSome = true := by
    decide +kernel
  refine ⟨hcut, hreflowed, ?_, (parse_recut _ loopUncut loopReflowed).2 hreflowed⟩
  rcases (parse_recut { compile := .fixed [] } loopUncut loopCut).1 hcut with
    ⟨e, e', he, -⟩ | htemplates
  · rw [he] at hok
    cases hok
  · exact htemplates

end Body

end DocTemplate
