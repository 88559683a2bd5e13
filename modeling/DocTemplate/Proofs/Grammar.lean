import DocTemplate.Document.Draft
import DocTemplate.Proofs.Strays

/-!
# The grammar of templates

Which sequences of tags are well nested is said here without a parser: a block is a sequence of
items, and an item is a single token, a repetition with its end tag, or a conditional with its
alternatives. A reading does not follow this grammar; it keeps a stack of frames and goes on after
every mistake. Still, it finds nothing to report about the nesting exactly when the grammar derives
the tokens.

## Main statements

- `Grammar.block_iff_advanceAll`: a block is what brings the stack of frames back to where it was
- `Template.gather_structural_eq_nil_iff`: a template has structural problems unless its tokens are
  well nested
- `Body.parse_structure_iff`: the same for bodies, cells included
-/

namespace DocTemplate

/-! ## The grammar -/

/-- A token that stands for itself. -/
def TokenKind.isSingle : TokenKind → Bool
  | .text | .table | .tag .query | .tag .image | .tag .diagram => true
  | _ => false

namespace Grammar

mutual

/-- A sequence of items. -/
inductive Block : List TokenKind → Prop where
  | nil : Block []
  | cons {item ks : List TokenKind} (hitem : Item item) (hrest : Block ks) : Block (item ++ ks)

/-- A single token, a repetition, or a conditional. -/
inductive Item : List TokenKind → Prop where
  | single {k : TokenKind} (hk : k.isSingle = true) : Item [k]
  | loop {body : List TokenKind} (hbody : Block body) :
      Item (.tag .forEach :: (body ++ [.tag .endFor]))
  | conditional {body rest : List TokenKind} (hbody : Block body) (hrest : Alternatives rest) :
      Item (.tag .ifThen :: (body ++ rest))

/-- What follows the first body of a conditional: further conditions, perhaps `m:else`, and the end
tag. -/
inductive Alternatives : List TokenKind → Prop where
  | endIf : Alternatives [.tag .endIf]
  | otherwise {body : List TokenKind} (hbody : Block body) :
      Alternatives (.tag .otherwise :: (body ++ [.tag .endIf]))
  | elseIf {body rest : List TokenKind} (hbody : Block body) (hrest : Alternatives rest) :
      Alternatives (.tag .elseIf :: (body ++ rest))

end

/-! ## A block leaves the stack as it was -/

/-- What is open after a sequence of tokens, all of which have a place. -/
def advanceAll : List TokenKind → List Frame → Option (List Frame)
  | [], fs => some fs
  | k :: ks, fs => (advance k fs).bind (advanceAll ks)

theorem advance_single {k : TokenKind} (h : k.isSingle = true) (fs : List Frame) :
    advance k fs = some fs := by
  unfold TokenKind.isSingle at h
  split at h <;> first | rfl | cases h

mutual

theorem Block.advanceAll_append {block : List TokenKind} :
    Block block → ∀ ks fs, advanceAll (block ++ ks) fs = advanceAll ks fs
  | .nil, _, _ => rfl
  | .cons hitem hrest, ks, fs => by
    rw [List.append_assoc, hitem.advanceAll_append, hrest.advanceAll_append]

theorem Item.advanceAll_append {item : List TokenKind} :
    Item item → ∀ ks fs, advanceAll (item ++ ks) fs = advanceAll ks fs
  | .single hk, ks, fs => by
    rw [List.singleton_append, advanceAll, advance_single hk, Option.bind_some]
  | .loop hbody, ks, fs => by
    rw [List.cons_append, List.append_assoc, advanceAll, advance, Option.bind_some,
      hbody.advanceAll_append]
    rfl
  | .conditional hbody hrest, ks, fs => by
    rw [List.cons_append, List.append_assoc, advanceAll, advance, Option.bind_some,
      hbody.advanceAll_append, hrest.advanceAll_append]

theorem Alternatives.advanceAll_append {rest : List TokenKind} :
    Alternatives rest → ∀ ks fs, advanceAll (rest ++ ks) (.branch :: fs) = advanceAll ks fs
  | .endIf, _, _ => rfl
  | .otherwise hbody, ks, fs => by
    rw [List.cons_append, List.append_assoc, advanceAll, advance, Option.bind_some,
      hbody.advanceAll_append]
    rfl
  | .elseIf hbody hrest, ks, fs => by
    rw [List.cons_append, List.append_assoc, advanceAll, advance, Option.bind_some,
      hbody.advanceAll_append, hrest.advanceAll_append]

end

/-! ## What a stack still demands -/

/-- A block and then what `P` allows. -/
def BlockThen (P : List TokenKind → Prop) (ks : List TokenKind) : Prop :=
  ∃ block tail, Block block ∧ P tail ∧ ks = block ++ tail

/-- What ends the open frames, from the end tag of the innermost one on. -/
def Ends : List Frame → List TokenKind → Prop
  | [], ks => ks = []
  | .loop :: fs, ks => ∃ tail, BlockThen (Ends fs) tail ∧ ks = .tag .endFor :: tail
  | .branch :: fs, ks =>
    ∃ rest tail, Alternatives rest ∧ BlockThen (Ends fs) tail ∧ ks = rest ++ tail
  | .otherwise :: fs, ks => ∃ tail, BlockThen (Ends fs) tail ∧ ks = .tag .endIf :: tail

/-- What completes a text in the middle of which the frames are open. -/
def Completes (fs : List Frame) : List TokenKind → Prop := BlockThen (Ends fs)

theorem Ends.completes {fs : List Frame} {ks : List TokenKind} (h : Ends fs ks) :
    Completes fs ks := ⟨[], ks, .nil, h, rfl⟩

/-- An item may always be put in front. -/
theorem Completes.cons_item {fs : List Frame} {item ks : List TokenKind} (hitem : Item item)
    (h : Completes fs ks) : Completes fs (item ++ ks) := by
  obtain ⟨block, tail, hblock, htail, rfl⟩ := h
  exact ⟨item ++ block, tail, .cons hitem hblock, htail, (List.append_assoc ..).symm⟩

/-- A token puts in front what leads from the frames before it to those after it. -/
theorem Completes.cons {fs gs : List Frame} {k : TokenKind} {ks : List TokenKind}
    (hk : advance k fs = some gs) (h : Completes gs ks) : Completes fs (k :: ks) := by
  unfold advance at hk
  -- The cases are those of `advance`: tokens that stand for themselves, the two opening tags, the
  -- end tags, and the two tags between branches.
  split at hk <;> cases hk
  · exact h.cons_item (.single rfl)
  · exact h.cons_item (.single rfl)
  · exact h.cons_item (.single rfl)
  · exact h.cons_item (.single rfl)
  · exact h.cons_item (.single rfl)
  · obtain ⟨body, tail, hbody, ⟨after, hafter, rfl⟩, rfl⟩ := h
    have hitem := Completes.cons_item (.loop hbody) hafter
    simpa using hitem
  · obtain ⟨body, tail, hbody, ⟨rest, after, hrest, hafter, rfl⟩, rfl⟩ := h
    have hitem := Completes.cons_item (.conditional hbody hrest) hafter
    simpa using hitem
  · exact Ends.completes ⟨ks, h, rfl⟩
  · exact Ends.completes ⟨[.tag .endIf], ks, .endIf, h, rfl⟩
  · exact Ends.completes ⟨ks, h, rfl⟩
  · obtain ⟨body, tail, hbody, ⟨rest, after, hrest, hafter, rfl⟩, rfl⟩ := h
    exact Ends.completes ⟨_, after, .elseIf hbody hrest, hafter, by simp⟩
  · obtain ⟨body, tail, hbody, ⟨after, hafter, rfl⟩, rfl⟩ := h
    exact Ends.completes ⟨_, after, .otherwise hbody, hafter, by simp⟩

theorem completes_of_advanceAll {ks : List TokenKind} {fs : List Frame}
    (h : advanceAll ks fs = some []) : Completes fs ks := by
  induction ks generalizing fs with
  | nil =>
    cases h
    exact Ends.completes rfl
  | cons k ks ih =>
    obtain ⟨gs, hk, hks⟩ := Option.bind_eq_some_iff.mp h
    exact Completes.cons hk (ih hks)

/-- **A block is what leads from the empty stack to the empty stack.** -/
theorem block_iff_advanceAll {ks : List TokenKind} : Block ks ↔ advanceAll ks [] = some [] := by
  constructor
  · intro h
    simpa [advanceAll] using h.advanceAll_append [] []
  · intro h
    obtain ⟨block, tail, hblock, rfl, rfl⟩ := completes_of_advanceAll h
    rwa [List.append_nil]

end Grammar

/-! ## Structural problems along a reading -/

/-- The tokens form a block, and so do those of every cell, at any depth. -/
inductive WellNested : List Token → Prop where
  | intro {ts : List Token} (hblock : Grammar.Block (ts.map Token.kind))
      (hcells : ∀ id rows, Token.table id rows ∈ ts → ∀ row ∈ rows, ∀ c ∈ row, WellNested c) :
      WellNested ts

/-- The view of the structural problems. -/
def TagView.structural : TagView Problem := .reports (Option.guard Problem.isStructural)

theorem Problem.guard_of_not_structural (p : Problem) (h : p.isStructural = false) :
    Option.guard Problem.isStructural p = none := by
  simp [Option.guard, h]

theorem TagView.ofEnd_structural_ne_nil (l : Level) : TagView.structural.ofEnd l ≠ [] := by
  unfold ofEnd
  exact List.append_ne_nil_of_left_ne_nil (by decide) _

section Readings

variable {s : Setting} {p q : Progress}

/-- A token adds no structural problem exactly if it has a place and its cells have none. -/
theorem Reads.gather_structural_eq_nil_iff {t : Token} (h : Reads s t p q) (hp : p.Unclosed)
    (hcells : ∀ id rows, t = .table id rows → ∀ row ∈ rows, ∀ c ∈ row, ∀ depth u,
      Template.ofTokens s depth c = .ok u → (u.gather .structural = [] ↔ WellNested c)) :
    q.gather .structural = [] ↔
      p.gather .structural = [] ∧ advance t.kind p.frames = some q.frames ∧
        ∀ id rows, t = .table id rows → ∀ row ∈ rows, ∀ c ∈ row, WellNested c := by
  cases h with
  | text r p =>
    rw [Progress.gather_text]
    simp [TagView.structural, TagView.reports, Token.kind, advance, Progress.frames]
  | @tag k f p q hstep =>
    have hframes := hstep.frames
    rw [p.frames_settle] at hframes
    rcases hframes with hsome | ⟨hnone, -⟩
    · -- In its place, a tag reports only what is wrong inside its field.
      have hplace : advance (.tag k) p.frames ≠ none := by simp [hsome]
      have hnil := TagView.ofTag_reports Problem.guard_of_not_structural s f k
      rw [hstep.gather_of_place .structural hplace hp, TagView.structural, hnil]
      simp [Token.kind, hsome]
    · -- A stray is reported, whatever was reported before.
      have hperm := hstep.gather_of_stray .structural hnone
      have hne : q.gather .structural ≠ [] := by
        intro hnil
        rw [hnil] at hperm
        have hparts := List.append_eq_nil_iff.mp hperm.symm.eq_nil
        cases hparts.2
      simp [hne, Token.kind, hnone]
  | @table id rows p ts hread =>
    have hframes : advance (Token.table id rows).kind p.frames =
        some { p.settle.push (.table id ts) with
          strays := (cellStrays s p.depth rows).reverse ++ p.strays }.frames := by
      rw [Token.kind, advance]
      exact congrArg some ((p.settle.frames_push _).trans p.frames_settle).symm
    have hside := forall₂_cells_imp (cellTemplates_eq_ok_iff.mp hread)
      fun row hrow c hc u hu => hcells id rows rfl row hrow c hc p.depth u hu
    rw [Progress.gather_table, List.append_eq_nil_iff, flatMap_cells_eq_nil_iff hside]
    constructor
    · rintro ⟨hgather, hnested⟩
      refine ⟨hgather, hframes, ?_⟩
      intro id' rows' heq
      cases heq
      exact hnested
    · rintro ⟨hgather, -, hnested⟩
      exact ⟨hgather, hnested id rows rfl⟩

theorem Runs.gather_structural_eq_nil_iff {ts : List Token} (h : Runs s ts p q) (hp : p.Unclosed)
    (hcells : ∀ id rows, Token.table id rows ∈ ts → ∀ row ∈ rows, ∀ c ∈ row, ∀ depth u,
      Template.ofTokens s depth c = .ok u → (u.gather .structural = [] ↔ WellNested c)) :
    q.gather .structural = [] ↔
      p.gather .structural = [] ∧
        Grammar.advanceAll (ts.map Token.kind) p.frames = some q.frames ∧
        ∀ id rows, Token.table id rows ∈ ts → ∀ row ∈ rows, ∀ c ∈ row, WellNested c := by
  induction h with
  | nil p => simp [Grammar.advanceAll]
  | @cons t ts p q r hstep hrest ih =>
    have hfirst := hstep.gather_structural_eq_nil_iff hp fun id rows ht =>
      hcells id rows (ht ▸ List.mem_cons_self)
    have hnext := ih (hstep.unclosed hp) fun id rows hmem =>
      hcells id rows (List.mem_cons_of_mem _ hmem)
    rw [hnext, hfirst, List.map_cons, Grammar.advanceAll]
    constructor
    · rintro ⟨⟨hgather, hhere, hown⟩, hlater, hothers⟩
      refine ⟨hgather, by rw [hhere, Option.bind_some, hlater], ?_⟩
      intro id rows hmem
      rcases List.mem_cons.mp hmem with heq | hmem
      · exact hown id rows heq.symm
      · exact hothers id rows hmem
    · rintro ⟨hgather, hall, hcellsNested⟩
      -- The frames that the grammar's stack has after the token are those of the state.
      obtain ⟨fs, hhere, hlater⟩ := Option.bind_eq_some_iff.mp hall
      have hframes : q.frames = fs := by rw [hstep.frames, hhere, Option.getD_some]
      subst hframes
      refine ⟨⟨hgather, hhere, ?_⟩, hlater, ?_⟩
      · intro id rows ht
        exact hcellsNested id rows (ht ▸ List.mem_cons_self)
      · intro id rows hmem
        exact hcellsNested id rows (List.mem_cons_of_mem _ hmem)

/-- Where all tokens have a place, they open and close what the grammar's stack tells. -/
theorem Runs.frames_of_advanceAll {ts : List Token} (h : Runs s ts p q) {fs : List Frame}
    (hall : Grammar.advanceAll (ts.map Token.kind) p.frames = some fs) : q.frames = fs := by
  induction h with
  | nil p => exact Option.some.inj hall
  | cons hstep hrest ih =>
    obtain ⟨gs, hhere, hlater⟩ := Option.bind_eq_some_iff.mp hall
    apply ih
    rw [hstep.frames, hhere, Option.getD_some]
    exact hlater

/-- The end of the body is reported wherever something is still open. -/
theorem Progress.gather_structural_finish (hp : p.Unclosed)
    (hstops : p.block.stops = [.endOfBody]) :
    Template.gather .structural p.finish.block.toSection = [] ↔
      p.gather .structural = [] ∧ p.frames = [] := by
  rw [Progress.gather_finish _ hp hstops, ← p.gather_settle, ← p.frames_settle]
  cases hlevels : p.settle.levels with
  | nil => simp [Progress.gather, Progress.frames, hlevels, p.stretch_settle]
  | cons l ls =>
    -- One level that is cut off is enough for a report.
    have hend : l.gatherAtEnd .structural ≠ [] := by
      simp [Level.gatherAtEnd, TagView.ofEnd_structural_ne_nil]
    simp [Progress.frames, hlevels, hend]

/-- **A template has no structural problem exactly if its tokens are well nested.** -/
theorem Template.gather_structural_eq_nil_iff {depth : Nat} {ts : List Token} {t : Template}
    (h : Template.ofTokens s depth ts = .ok t) : t.gather .structural = [] ↔ WellNested ts := by
  refine Template.ofTokens_induction h ?_
  intro depth ts q hruns hcells
  have hfresh := Progress.fresh_unclosed depth
  have hrun := hruns.gather_structural_eq_nil_iff hfresh hcells
  have hempty : (Progress.fresh depth).gather .structural = [] := rfl
  rw [Progress.gather_structural_finish (hruns.unclosed hfresh) hruns.stops, hrun]
  constructor
  · rintro ⟨⟨-, hall, hnested⟩, hframes⟩
    rw [hframes] at hall
    exact .intro (Grammar.block_iff_advanceAll.mpr hall) hnested
  · rintro ⟨hblock, hnested⟩
    have hall := Grammar.block_iff_advanceAll.mp hblock
    have hframes : q.frames = [] := hruns.frames_of_advanceAll hall
    exact ⟨⟨hempty, by rw [hframes]; exact hall, hnested⟩, hframes⟩

end Readings

/-! ## Bodies -/

theorem Body.wellNested_iff (b : Body) :
    WellNested b.linearTokens ↔
      b.Everywhere (fun c => Grammar.Block (c.linearTokens.map Token.kind)) := by
  induction b using Body.cellInduction with
  | h b cells =>
    constructor
    · rintro ⟨hblock, hnested⟩
      refine .intro hblock ?_
      intro id rows htable row hrow c hc
      apply (cells id rows htable row hrow c hc).mp
      exact hnested id _ (Body.mem_linearTokens_table.mpr ⟨rows, htable, rfl⟩) _
        (List.mem_map_of_mem hrow) _ (List.mem_map_of_mem hc)
    · rintro ⟨hblock, hnested⟩
      refine .intro hblock ?_
      intro id rows htable row hrow c hc
      obtain ⟨bodies, hmem, rfl⟩ := Body.mem_linearTokens_table.mp htable
      obtain ⟨bodyRow, hbodyRow, rfl⟩ := List.mem_map.mp hrow
      obtain ⟨cell, hcell, rfl⟩ := List.mem_map.mp hc
      exact (cells id bodies hmem bodyRow hbodyRow cell hcell).mpr
        (hnested id bodies hmem bodyRow hbodyRow cell hcell)

/-- **Structural problems are reported exactly for the bodies outside the grammar.** A template has
no problem with the codes W100 and W103 if and only if the tokens of its body form a block, and those
of the body of every cell of every table do too. -/
theorem Body.parse_structure_iff (s : Setting) (b : Body) {t : Template}
    (h : (b.parse s).result = .ok t) :
    (∀ p ∈ t.problems, p.code ≠ "W100" ∧ p.code ≠ "W103") ↔
      b.Everywhere (fun c => Grammar.Block (c.linearTokens.map Token.kind)) := by
  rw [b.result_parse s] at h
  rw [← b.wellNested_iff, ← Template.gather_structural_eq_nil_iff h, TagView.structural,
    Template.gather_reports, List.filterMap_eq_nil_iff]
  have hcode : ∀ p : Problem,
      Option.guard Problem.isStructural p = none ↔ p.code ≠ "W100" ∧ p.code ≠ "W103" := by
    intro p
    rw [Option.guard_eq_none_iff, Bool.eq_false_iff, Ne, p.isStructural_iff_code, not_or]
  simp only [hcode]

/-- A conditional with two conditions and `m:else`, around a table of one cell. -/
def Body.conditionalAround (cell : List DraftItem) : Body :=
  Draft.build
    [.paragraph [.field ["m:if a"], .field ["m:x"], .field ["m:elseif b"]],
      .table [[[.paragraph cell]]],
      .paragraph [.field ["m:else"], .text "c", .field ["m:endif"]]]

/-- Whether the repetition in the cell is closed decides about the whole body. -/
theorem Body.parse_structure_iff_conditionalAround :
    (∃ t, ((Body.conditionalAround [.field ["m:for x | xs"], .field ["m:endfor"]]).parse
        { compile := .fixed [] }).result = .ok t ∧ t.problems.map Problem.code = [] ∧
      (Body.conditionalAround [.field ["m:for x | xs"], .field ["m:endfor"]]).Everywhere
        (fun c => Grammar.Block (c.linearTokens.map Token.kind))) ∧
    ∃ t, ((Body.conditionalAround [.field ["m:for x | xs"]]).parse
        { compile := .fixed [] }).result = .ok t ∧ t.problems.map Problem.code = ["W100"] ∧
      ¬ (Body.conditionalAround [.field ["m:for x | xs"]]).Everywhere
        (fun c => Grammar.Block (c.linearTokens.map Token.kind)) := by
  have hcodes : ∀ (t : Template) (codes : List String), t.problems.map Problem.code = codes →
      ((∀ p ∈ t.problems, p.code ≠ "W100" ∧ p.code ≠ "W103") ↔
        ∀ code ∈ codes, code ≠ "W100" ∧ code ≠ "W103") := by
    rintro t codes rfl
    simp
  constructor
  · obtain ⟨t, hresult, hclosed⟩ := exists_of_toOption_map
      (x := ((Body.conditionalAround [.field ["m:for x | xs"], .field ["m:endfor"]]).parse
        { compile := .fixed [] }).result)
      (g := fun t => t.problems.map Problem.code) (y := []) (by decide +kernel)
    refine ⟨t, hresult, hclosed, ?_⟩
    rw [← Body.parse_structure_iff _ _ hresult, hcodes t _ hclosed]
    simp
  · obtain ⟨t, hresult, hopen⟩ := exists_of_toOption_map
      (x := ((Body.conditionalAround [.field ["m:for x | xs"]]).parse
        { compile := .fixed [] }).result)
      (g := fun t => t.problems.map Problem.code) (y := ["W100"]) (by decide +kernel)
    refine ⟨t, hresult, hopen, ?_⟩
    rw [← Body.parse_structure_iff _ _ hresult, hcodes t _ hopen]
    simp

end DocTemplate
