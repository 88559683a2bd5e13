import DocTemplate.Document.Draft
import DocTemplate.Proofs.Tokenization
import Mathlib.Data.List.Forall2

/-!
# The tokens of a draft

A draft in which every plain run, every field and every table stands by itself is cut into tokens
piece by piece, whatever numbers its runs and tables are given: a plain run is plain text, a field
whose instruction starts with a keyword is a tag, and a table holds the tokens of its cells.

## Main statements

- `Draft.build_lexes`: the tokens of a built draft
-/

namespace DocTemplate

namespace Draft

/-- The draft is a plain run, a field that is a tag, or a table of such drafts. -/
inductive Lexable : Draft → Prop where
  | text (s : String) : Lexable (.paragraph [.text s])
  | tag {s : String} {k : Keyword} (hk : Keyword.match? (Text.trim s.toList) = some k) :
      Lexable (.paragraph [.field [s]])
  | table {rows : List (List (List Draft))}
      (hcells : ∀ row ∈ rows, ∀ cell ∈ row, ∀ d ∈ cell, Lexable d) : Lexable (.table rows)

/-- The token that such a draft becomes, up to numbers. -/
inductive Lexes : Draft → Token → Prop where
  | text (s : String) (r : RunId) : Lexes (.paragraph [.text s]) (.text r)
  | tag {s : String} {k : Keyword} {f : Field} (hk : Keyword.match? (Text.trim s.toList) = some k)
      (hf : f.instruction = Text.trim s.toList) : Lexes (.paragraph [.field [s]]) (.tag k f)
  | table {rows : List (List (List Draft))} {rows' : List (List (List Token))} (id : TableId)
      (hcells : List.Forall₂ (List.Forall₂ (List.Forall₂ Lexes)) rows rows') :
      Lexes (.table rows) (.table id rows')

/-- Building the drafts puts elements with the right tokens behind those already built. -/
def Builds (ds : List Draft) : Prop :=
  ∀ c done, ∃ es c', buildElements c done ds = (done.reverse ++ es, c') ∧
    List.Forall₂ Lexes ds (Body.linearTokens es)

theorem Builds.cells {cells : List (List Draft)} (h : ∀ cell ∈ cells, Builds cell) (c : Counters)
    (done : List Body) :
    ∃ bs c', buildCells c done cells = (done.reverse ++ bs, c') ∧
      List.Forall₂ (List.Forall₂ Lexes) cells (bs.map Body.linearTokens) := by
  induction cells generalizing c done with
  | nil => exact ⟨[], c, by simp [buildCells], .nil⟩
  | cons cell cells ih =>
    obtain ⟨hcell, hcells⟩ := List.forall_mem_cons.mp h
    obtain ⟨es, c', hbuild, hes⟩ := hcell c []
    obtain ⟨bs, c'', hrest, hbs⟩ := ih hcells c' (es :: done)
    refine ⟨es :: bs, c'', ?_, .cons hes hbs⟩
    simp [buildCells, hbuild, hrest]

theorem Builds.rows {rows : List (List (List Draft))} (h : ∀ row ∈ rows, ∀ cell ∈ row, Builds cell)
    (c : Counters) (done : List (List Body)) :
    ∃ bs c', buildRows c done rows = (done.reverse ++ bs, c') ∧
      List.Forall₂ (List.Forall₂ (List.Forall₂ Lexes)) rows (Body.linearRows bs) := by
  induction rows generalizing c done with
  | nil => exact ⟨[], c, by simp [buildRows], .nil⟩
  | cons row rows ih =>
    obtain ⟨hrow, hrows⟩ := List.forall_mem_cons.mp h
    obtain ⟨bs, c', hbuild, hbs⟩ := Builds.cells hrow c []
    obtain ⟨bss, c'', hrest, hbss⟩ := ih hrows c' (bs :: done)
    refine ⟨bs :: bss, c'', by simp [buildRows, hbuild, hrest], ?_⟩
    rw [Body.linearRows, Body.linearCells_eq_map]
    exact .cons hbs hbss

/-- One more draft in front, once its element and the token of that are known. -/
theorem Builds.cons {d : Draft} {ds : List Draft} (h : Builds ds)
    (hd : ∀ c, ∃ e c', buildElement c d = (e, c') ∧ ∀ es : Body, ∃ t, Lexes d t ∧
      Body.linearTokens (e :: es) = t :: Body.linearTokens es) : Builds (d :: ds) := by
  intro c done
  obtain ⟨e, c', hbuild, htoken⟩ := hd c
  obtain ⟨es, c'', hrest, hes⟩ := h c' (e :: done)
  obtain ⟨t, ht, htokens⟩ := htoken es
  refine ⟨e :: es, c'', by simp [buildElements, hbuild, hrest], ?_⟩
  rw [htokens]
  exact .cons ht hes

theorem linearTokens_text (r : Run) (hr : r.isOpening = false) (es : Body) :
    Body.linearTokens (.paragraph [r] :: es) = .text r.id :: Body.linearTokens es :=
  @linear_plain [r] (by simpa using hr) (Body.linearPositions es)

theorem linearTokens_field {f : Field} {k : Keyword} (hopening : f.opening.isOpening = true)
    (hinner : ∀ r ∈ f.inner, r.isClosing = false) (hclosing : f.closing.isClosing = true)
    (hk : Keyword.match? f.instruction = some k) (es : Body) :
    Body.linearTokens (.paragraph (f.opening :: f.inner ++ [f.closing]) :: es) =
      .tag k f :: Body.linearTokens es := by
  have hread := readField_field hopening hinner hclosing (Body.linearPositions es)
  have hpositions : Body.linearPositions (.paragraph (f.opening :: f.inner ++ [f.closing]) :: es) =
      .run f.opening :: (f.inner.map .run ++ .run f.closing :: Body.linearPositions es) := by
    simp [Body.linearPositions, Body.elementPositions]
  rw [Body.linearTokens, hpositions, linear_tag hread hk]
  rfl

theorem builds_of_lexable {ds : List Draft} (h : ∀ d ∈ ds, Lexable d)
    (hcells : ∀ rows, Draft.table rows ∈ ds → ∀ row ∈ rows, ∀ cell ∈ row, Builds cell) :
    Builds ds := by
  induction ds with
  | nil =>
    intro c done
    refine ⟨[], c, by simp [buildElements], ?_⟩
    rw [Body.linearTokens, Body.linearPositions, linear_nil]
    exact .nil
  | cons d ds ih =>
    obtain ⟨hd, hds⟩ := List.forall_mem_cons.mp h
    have hrest : Builds ds := by
      apply ih hds
      intro rows hmem
      exact hcells rows (List.mem_cons_of_mem d hmem)
    apply hrest.cons
    intro c
    cases hd with
    | text s => exact ⟨_, _, rfl, fun es => ⟨_, .text s c.run, linearTokens_text _ rfl es⟩⟩
    | @tag s k hk =>
      let f : Field := ⟨{ id := c.run, mark := some .opening },
        [{ id := c.run + 1, fragments := [s] }], { id := c.run + 2, mark := some .closing }⟩
      have hf : f.instruction = Text.trim s.toList := by
        simp [f, Field.instruction, Run.instruction]
      refine ⟨.paragraph (f.opening :: f.inner ++ [f.closing]), _, rfl, fun es => ?_⟩
      refine ⟨.tag k f, .tag hk hf, linearTokens_field rfl ?_ rfl (by rw [hf, hk]) es⟩
      simp [f, Run.isClosing]
    | @table rows hlexable =>
      -- A table takes its number before its cells take theirs.
      have hrows := hcells rows List.mem_cons_self
      obtain ⟨bs, c', hbuild, hbs⟩ := Builds.rows hrows { c with table := c.table + 1 } []
      refine ⟨.table c.table bs, c', by simp [buildElement, hbuild], fun es => ?_⟩
      refine ⟨.table c.table (Body.linearRows bs), .table c.table hbs, ?_⟩
      simp only [Body.linearTokens, Body.linearPositions, Body.elementPositions,
        List.singleton_append, linear_table]

/-- Induction on drafts through the cells of tables. -/
@[elab_as_elim]
theorem cellInduction {P : List Draft → Prop}
    (h : ∀ ds, (∀ rows, Draft.table rows ∈ ds → ∀ row ∈ rows, ∀ cell ∈ row, P cell) → P ds)
    (ds : List Draft) : P ds := by
  apply h ds
  intro rows htable row hrow cell hcell
  have h₁ := List.sizeOf_lt_of_mem htable
  have h₂ := List.sizeOf_lt_of_mem hrow
  have h₃ := List.sizeOf_lt_of_mem hcell
  have hlt : sizeOf cell < sizeOf ds := by
    simp only [Draft.table.sizeOf_spec] at h₁
    omega
  exact cellInduction h cell
termination_by sizeOf ds

/-- **The tokens of a built draft are those of its parts.** -/
theorem build_lexes {ds : List Draft} (h : ∀ d ∈ ds, Lexable d) :
    List.Forall₂ Lexes ds (Body.linearTokens (build ds)) := by
  have hbuilds : Builds ds := by
    induction ds using cellInduction with
    | h ds cells =>
      apply builds_of_lexable h
      intro rows hmem row hrow cell hcell
      apply cells rows hmem row hrow cell hcell
      cases h _ hmem with
      | table hlexable => exact hlexable row hrow cell hcell
  obtain ⟨es, c', hbuild, hes⟩ := hbuilds {} []
  rwa [build, hbuild]

end Draft

end DocTemplate
