import DocTemplate.Proofs.Headers
import DocTemplate.Proofs.Steps
import DocTemplate.Template.Survey

/-!
# Gathering from all tags

The runs that a template records and the problems that it reports are gathered from all its tags in
one fixed order: a tag's own part, its body, its alternative, and what belongs behind the body; the
cells of a table row by row. The same is done for a state of the reading, where the open levels
stand in the order in which they were opened, so that one can follow what each step adds.

## Main statements

- `TagStep.gather_of_place`: a tag that is in its place adds its part at the end
- `TagStep.gather_of_stray`: a stray tag adds its part somewhere
- `Progress.gather_finish`: what a finished reading gives
-/

namespace DocTemplate

/-- What is gathered from a tag, and the laws that let it be followed through a reading. -/
structure TagView (α : Type) where
  /-- The part of a tag that stands before its body. -/
  front : Tag → List α
  /-- The part of a tag that stands behind its body and its alternative. -/
  back : Tag → List α
  /-- What a run of plain text adds. -/
  ofRun : RunId → List α
  /-- What a stray field adds. -/
  ofStray : Keyword × Field → List α
  /-- What a closing field adds. -/
  ofClosing : Field → List α
  /-- What a problem adds that is found after the opening field. -/
  ofProblem : Problem → List α
  front_text : ∀ rs : List RunId, front { runs := rs } = rs.flatMap ofRun
  front_swallowAll : ∀ (t : Tag) (strays : List (Keyword × Field)),
    front (t.swallowAll strays) = front t ++ strays.flatMap ofStray
  front_closing : ∀ (t : Tag) (f : Field), front (t.absorb .closing f) = front t
  front_report : ∀ (t : Tag) (c : Cause) (r : Option RunId),
    front (t.report c r) = front t ++ ofProblem ⟨c, r⟩
  back_eq_nil : ∀ t : Tag, t.closingRuns = [] → back t = []
  back_closing : ∀ (t : Tag) (f : Field), t.closingRuns = [] →
    back (t.absorb .closing f) = ofClosing f

variable {α : Type}

/-! ## Templates -/

namespace Construct

mutual

/-- What is gathered from a construct. -/
def gather (v : TagView α) : Construct → List α
  | .text tag | .query tag _ _ | .image tag _ | .diagram tag _ _ _ => v.front tag ++ v.back tag
  | .loop tag _ _ body => v.front tag ++ gatherBody v body ++ v.back tag
  | .conditional first links otherwise =>
    gatherBranch v first (gatherLinks v links (gatherElse v otherwise))
  | .table _ rows => gatherRows v rows

/-- What is gathered from a list of constructs. -/
def gatherBody (v : TagView α) : List Construct → List α
  | [] => []
  | c :: cs => gather v c ++ gatherBody v cs

/-- What is gathered from a branch, around what its alternative gives. -/
def gatherBranch (v : TagView α) : Branch Construct → List α → List α
  | ⟨tag, _, body⟩, alternative => v.front tag ++ gatherBody v body ++ alternative ++ v.back tag

/-- What is gathered from the further conditions of a conditional: each is the alternative of the
one before it. -/
def gatherLinks (v : TagView α) : List (Branch Construct) → List α → List α
  | [], alternative => alternative
  | b :: bs, alternative => gatherBranch v b (gatherLinks v bs alternative)

/-- What is gathered from what follows `m:else`. -/
def gatherElse (v : TagView α) : Option (Section Construct) → List α
  | none => []
  | some sec => gatherSection v sec

/-- What is gathered from a section. -/
def gatherSection (v : TagView α) : Section Construct → List α
  | ⟨tag, body⟩ => v.front tag ++ gatherBody v body ++ v.back tag

/-- What is gathered from the rows of a table. -/
def gatherRows (v : TagView α) : List (List (Section Construct)) → List α
  | [] => []
  | r :: rs => gatherCells v r ++ gatherRows v rs

/-- What is gathered from the cells of a row. -/
def gatherCells (v : TagView α) : List (Section Construct) → List α
  | [] => []
  | c :: cs => gatherSection v c ++ gatherCells v cs

end

theorem gatherBody_append (v : TagView α) (cs ds : List Construct) :
    gatherBody v (cs ++ ds) = gatherBody v cs ++ gatherBody v ds := by
  induction cs with
  | nil => rfl
  | cons c cs ih => simp [gatherBody, ih]

theorem gatherCells_eq_flatMap (v : TagView α) (cells : List (Section Construct)) :
    gatherCells v cells = cells.flatMap (gatherSection v) := by
  induction cells with
  | nil => rfl
  | cons c cs ih => simp [gatherCells, ih]

theorem gatherRows_eq_flatMap (v : TagView α) (rows : List (List (Section Construct))) :
    gatherRows v rows = rows.flatMap (fun r => r.flatMap (gatherSection v)) := by
  induction rows with
  | nil => rfl
  | cons r rs ih => simp [gatherRows, ih, gatherCells_eq_flatMap]

end Construct

/-- What is gathered from a template. -/
def Template.gather (v : TagView α) (t : Template) : List α := Construct.gatherSection v t

/-! ## States of a reading -/

/-- The finished branches before the one that a level builds, in document order. -/
def Purpose.branches : Purpose → List (Branch Construct)
  | .loop .. => []
  | .branch earlier _ => earlier.reverse
  | .otherwise earlier last => earlier.reverse ++ [last]

/-- What is gathered from a branch whose alternative is still to come. -/
def Branch.gatherOpen (v : TagView α) (b : Branch Construct) : List α :=
  v.front b.tag ++ Construct.gatherBody v b.body

/-- What is gathered from an open level. -/
def Level.gather (v : TagView α) (l : Level) : List α :=
  l.purpose.branches.flatMap (Branch.gatherOpen v) ++
    (v.front l.tag ++ Construct.gatherBody v l.body.reverse)

/-- What is gathered from a block, apart from what is open in it. -/
def Block.gather (v : TagView α) (b : Block) : List α :=
  v.front b.tag ++ Construct.gatherBody v b.body.reverse

/-- What is gathered from a state: the block, the open levels from the outermost one in, and the
current stretch. -/
def Progress.gather (v : TagView α) (p : Progress) : List α :=
  p.block.gather v ++ p.levels.reverse.flatMap (Level.gather v) ++ p.stretch.reverse.flatMap v.ofRun

/-- No closing field has been read for the level or for the branches before it. -/
structure Level.Unclosed (l : Level) : Prop where
  header : l.header.closingRuns = []
  branches : ∀ b ∈ l.purpose.branches, b.tag.closingRuns = []

/-- Nothing that is open has a closing field. -/
structure Progress.Unclosed (p : Progress) : Prop where
  block : p.block.header.closingRuns = []
  levels : ∀ l ∈ p.levels, l.Unclosed

/-! ## What stays unclosed -/

theorem Level.Unclosed.tag {l : Level} (h : l.Unclosed) : l.tag.closingRuns = [] := h.header

/-- The condition that a level builds joins the finished branches before the next one. -/
theorem Level.Unclosed.toBranch {l : Level} (h : l.Unclosed) {earlier : List (Branch Construct)}
    {condition : Option Expression} (hpurpose : l.purpose = .branch earlier condition) :
    ∀ b ∈ earlier.reverse ++ [l.toBranch condition], b.tag.closingRuns = [] := by
  intro b hb
  rcases List.mem_append.mp hb with hb | hb
  · exact h.branches b (by rw [hpurpose]; exact hb)
  · rw [List.mem_singleton.mp hb]
    exact h.tag

/-- Before `m:else` stand branches without a closing field. -/
theorem Level.Unclosed.beforeElse {l : Level} (h : l.Unclosed) {earlier : List (Branch Construct)}
    {last : Branch Construct} (hpurpose : l.purpose = .otherwise earlier last) :
    (∀ b ∈ earlier.reverse, b.tag.closingRuns = []) ∧ last.tag.closingRuns = [] := by
  have hbranches := h.branches
  rw [hpurpose] at hbranches
  constructor
  · intro b hb
    exact hbranches b (List.mem_append_left _ hb)
  · exact hbranches last (List.mem_append_right _ (List.mem_singleton.mpr rfl))

namespace Progress

/-- What holds of all open levels holds still when another level takes the place of the innermost
one. -/
theorem forall_levels_replace {p : Progress} {P : Level → Prop} {l new : Level} {ls : List Level}
    (hlevels : p.levels = l :: ls) (h : ∀ l ∈ p.levels, P l) (hnew : P new) :
    ∀ l' ∈ new :: ls, P l' := by
  rw [hlevels] at h
  exact List.forall_mem_cons.mpr ⟨hnew, (List.forall_mem_cons.mp h).2⟩

theorem Unclosed.push {p : Progress} (h : p.Unclosed) (c : Construct) : (p.push c).Unclosed := by
  unfold Progress.push
  cases hlevels : p.levels with
  | nil => exact ⟨h.block, by simp⟩
  | cons l ls =>
    have hl : l.Unclosed := h.levels l (by simp [hlevels])
    exact ⟨h.block, forall_levels_replace hlevels h.levels ⟨hl.header, hl.branches⟩⟩

theorem Unclosed.settle {p : Progress} (h : p.Unclosed) : p.settle.Unclosed := by
  unfold Progress.settle
  split
  · exact h
  · have hpush := h.push (.text { runs := p.stretch.reverse })
    exact ⟨hpush.block, hpush.levels⟩

/-- Replacing the open levels by unclosed ones. -/
theorem Unclosed.withLevels {p : Progress} (h : p.Unclosed) {ls : List Level}
    (hls : ∀ l ∈ ls, l.Unclosed) : { p with levels := ls }.Unclosed := ⟨h.block, hls⟩

end Progress

/-- A tag that is understood by itself is a query, an image or a diagram, with the tag of its
field. -/
theorem single?_cases {s : Setting} {f : Field} {k : Keyword} {c : Construct}
    (h : single? s f k = some c) :
    ∃ tag : Tag, tag.Describes f ∧
      ((k = .query ∧ ∃ expression display, c = .query tag expression display) ∨
        (k = .image ∧ ∃ options, c = .image tag options) ∨
        k = .diagram ∧ ∃ options provider extras, c = .diagram tag options provider extras) := by
  unfold single? at h
  split at h <;> cases h
  · obtain ⟨tag, expression, display, hread, htag⟩ := readQuery_describes s f
    exact ⟨tag, htag, .inl ⟨rfl, _, _, hread⟩⟩
  · obtain ⟨tag, options, hread, htag⟩ := readImage_describes f
    exact ⟨tag, htag, .inr (.inl ⟨rfl, _, hread⟩)⟩
  · obtain ⟨tag, options, provider, extras, hread, htag⟩ := readDiagram_describes s f
    exact ⟨tag, htag, .inr (.inr ⟨rfl, _, _, _, hread⟩)⟩

theorem opened?_unclosed {s : Setting} {f : Field} {depth : Nat} {k : Keyword} {l : Level}
    (h : opened? s f depth k = some l) : l.Unclosed := by
  unfold opened? at h
  split at h
  · cases h
    exact ⟨(readLoop_describes s f).closingRuns, by simp [Level.ofLoop, Purpose.branches]⟩
  · cases h
    exact ⟨(readCondition_describes s f).closingRuns, by simp [Level.ofCondition, Purpose.branches]⟩
  · cases h

theorem TagStep.unclosed {s : Setting} {p q : Progress} {k : Keyword} {f : Field}
    (h : TagStep s p k f q) (hp : p.Unclosed) : q.Unclosed := by
  cases h with
  | single hc => exact hp.push _
  | opens hl hlimit =>
    apply hp.withLevels
    intro l hmem
    rcases List.mem_cons.mp hmem with rfl | hmem
    · exact opened?_unclosed hl
    · exact hp.levels l hmem
  | closes hlevels hends =>
    -- The level that gets its closing field is no longer open.
    apply Progress.Unclosed.push
    apply hp.withLevels
    intro l hmem
    exact hp.levels l (by rw [hlevels]; exact List.mem_cons_of_mem _ hmem)
  | @elseIf _ l ls earlier condition hlevels hpurpose hlimit =>
    have hl : l.Unclosed := hp.levels l (by simp [hlevels])
    apply hp.withLevels
    apply Progress.forall_levels_replace hlevels hp.levels
    refine ⟨(readCondition_describes s f).closingRuns, ?_⟩
    simpa [Level.ofCondition, Purpose.branches] using hl.toBranch hpurpose
  | @otherwise _ l ls earlier condition hlevels hpurpose =>
    have hl : l.Unclosed := hp.levels l (by simp [hlevels])
    apply hp.withLevels
    apply Progress.forall_levels_replace hlevels hp.levels
    refine ⟨(Tag.Describes.ofField f).closingRuns, ?_⟩
    simpa [Level.ofOtherwise, Purpose.branches] using hl.toBranch hpurpose
  | strays hterminator hnone =>
    unfold Progress.swallow
    cases hlevels : p.levels with
    | nil => exact ⟨hp.block, by simp⟩
    | cons l ls =>
      have hl : l.Unclosed := hp.levels l (by simp [hlevels])
      refine ⟨hp.block, ?_⟩
      exact Progress.forall_levels_replace hlevels hp.levels ⟨hl.header, hl.branches⟩

/-- No step closes anything that stays open. -/
theorem Reads.unclosed {s : Setting} {t : Token} {p q : Progress} (h : Reads s t p q)
    (hp : p.Unclosed) : q.Unclosed := by
  cases h with
  | text r p => exact ⟨hp.block, hp.levels⟩
  | tag hstep => exact hstep.unclosed hp.settle
  | table hcells =>
    have hpush := hp.settle.push
    exact ⟨(hpush _).block, (hpush _).levels⟩

theorem Runs.unclosed {s : Setting} {ts : List Token} {p q : Progress} (h : Runs s ts p q)
    (hp : p.Unclosed) : q.Unclosed := by
  induction h with
  | nil p => exact hp
  | cons hstep hrest ih => exact ih (hstep.unclosed hp)

theorem Progress.fresh_unclosed (depth : Nat) : (Progress.fresh depth).Unclosed :=
  ⟨rfl, by simp [fresh, start]⟩

/-! ## What a step adds -/

namespace Construct

variable (v : TagView α)

theorem gatherBranch_unclosed {b : Branch Construct} (h : b.tag.closingRuns = [])
    (alternative : List α) : gatherBranch v b alternative = b.gatherOpen v ++ alternative := by
  obtain ⟨tag, condition, body⟩ := b
  simp [gatherBranch, Branch.gatherOpen, v.back_eq_nil tag h]

theorem gatherLinks_append (bs cs : List (Branch Construct)) (alternative : List α) :
    gatherLinks v (bs ++ cs) alternative = gatherLinks v bs (gatherLinks v cs alternative) := by
  induction bs with
  | nil => rfl
  | cons b bs ih => simp [gatherLinks, ih]

theorem gatherLinks_unclosed {bs : List (Branch Construct)}
    (h : ∀ b ∈ bs, b.tag.closingRuns = []) (alternative : List α) :
    gatherLinks v bs alternative = bs.flatMap (Branch.gatherOpen v) ++ alternative := by
  induction bs with
  | nil => rfl
  | cons b bs ih =>
    have hb := h b List.mem_cons_self
    have hbs : ∀ b ∈ bs, b.tag.closingRuns = [] := fun c hc => h c (List.mem_cons_of_mem _ hc)
    simp [gatherLinks, gatherBranch_unclosed v hb, ih hbs]

/-- The branches of a conditional give their parts one after another, as long as only the last one
has a closing field. -/
theorem gather_ofBranches {earlier : List (Branch Construct)}
    (h : ∀ b ∈ earlier.reverse, b.tag.closingRuns = []) (last : Branch Construct)
    (otherwise : Option (Section Construct)) :
    (Construct.ofBranches last earlier otherwise).gather v =
      earlier.reverse.flatMap (Branch.gatherOpen v) ++
        gatherBranch v last (gatherElse v otherwise) := by
  unfold Construct.ofBranches
  -- The first branch is kept apart from the others, but gathered as one of them.
  have hchain : ∀ first links, earlier.reverse = first :: links →
      gatherBranch v first (gatherLinks v (links ++ [last]) (gatherElse v otherwise)) =
        gatherLinks v (earlier.reverse ++ [last]) (gatherElse v otherwise) := by
    intro first links hearlier
    rw [hearlier]
    rfl
  cases hearlier : earlier.reverse with
  | nil => rfl
  | cons first links =>
    rw [gather, hchain first links hearlier, gatherLinks_append, gatherLinks_unclosed v h, hearlier]
    rfl

end Construct

namespace Level

variable (v : TagView α)

/-- A closing field adds its part at the end of its level. -/
theorem gather_close {l : Level} (h : l.Unclosed) (f : Field) :
    (l.close f).gather v = l.gather v ++ v.ofClosing f := by
  have hback := v.back_closing l.tag f h.tag
  have hbranches := h.branches
  unfold close Level.gather
  cases hpurpose : l.purpose with
  | loop iterator source =>
    simp [Construct.gather, Purpose.branches, v.front_closing, hback]
  | branch earlier condition =>
    rw [hpurpose] at hbranches
    rw [Construct.gather_ofBranches v hbranches]
    simp [Construct.gatherBranch, Construct.gatherElse, Purpose.branches, v.front_closing, hback]
  | otherwise earlier last =>
    -- The closing field is recorded at the last condition, behind what `m:else` opens.
    obtain ⟨hearlier, hlast⟩ := h.beforeElse hpurpose
    rw [Construct.gather_ofBranches v hearlier]
    simp [Construct.gatherBranch, Construct.gatherElse, Construct.gatherSection, Purpose.branches,
      Branch.gatherOpen, v.front_closing, v.back_closing last.tag f hlast,
      v.back_eq_nil l.tag h.tag]

end Level

namespace Progress

variable (v : TagView α)

/-- A construct adds its part at the end. -/
theorem gather_push {p : Progress} (h : p.stretch = []) (c : Construct) :
    (p.push c).gather v = p.gather v ++ c.gather v := by
  unfold push Progress.gather
  cases hlevels : p.levels with
  | nil =>
    simp [h, Block.gather, Block.tag, Construct.gatherBody_append, Construct.gatherBody]
  | cons l ls =>
    simp [h, Level.gather, Level.tag, Construct.gatherBody_append, Construct.gatherBody]

/-- Ending the stretch leaves everything in place. -/
theorem gather_settle (p : Progress) : p.settle.gather v = p.gather v := by
  unfold settle
  split
  · rfl
  · have htext : (Construct.text { runs := p.stretch.reverse }).gather v =
        p.stretch.reverse.flatMap v.ofRun := by
      simp [Construct.gather, v.front_text, v.back_eq_nil]
    have hpush := gather_push v (p := { p with stretch := [] }) rfl
      (.text { runs := p.stretch.reverse })
    -- The stretch plays no part in adding a construct, so it may as well be emptied before.
    have hsame : { p.push (.text { runs := p.stretch.reverse }) with stretch := [] } =
        { p with stretch := [] }.push (.text { runs := p.stretch.reverse }) := by
      unfold push
      cases p.levels <;> rfl
    rw [hsame, hpush, htext]
    simp [Progress.gather]

end Progress

/-- What a tag that is in its place adds. -/
def TagView.ofTag (v : TagView α) (s : Setting) (f : Field) : Keyword → List α
  | .query => (readQuery s f).gather v
  | .image => (readImage f).gather v
  | .diagram => (readDiagram s f).gather v
  | .forEach => v.front (readLoop s f).tag
  | .ifThen | .elseIf => v.front (readCondition s f).2
  | .otherwise => v.front (Tag.ofField f)
  | .endFor | .endIf => v.ofClosing f
  | .element | .binding | .endBinding => []

/-- All tags but the reserved ones add the same, if this is what a tag that tells its field gives and
what a closing field adds. -/
theorem TagView.ofTag_of_front (v : TagView α) (s : Setting) {f : Field} {xs : List α}
    (hfront : ∀ t : Tag, t.Describes f → v.front t = xs) (hclosing : v.ofClosing f = xs)
    {k : Keyword} (hk : k ∉ [.element, .binding, .endBinding]) : v.ofTag s f k = xs := by
  have hboth : ∀ t : Tag, t.Describes f → v.front t ++ v.back t = xs := by
    intro t ht
    rw [hfront t ht, v.back_eq_nil t ht.closingRuns, List.append_nil]
  cases k with
  | query =>
    obtain ⟨tag, expression, display, hread, htag⟩ := readQuery_describes s f
    rw [ofTag, hread, Construct.gather, hboth tag htag]
  | image =>
    obtain ⟨tag, options, hread, htag⟩ := readImage_describes f
    rw [ofTag, hread, Construct.gather, hboth tag htag]
  | diagram =>
    obtain ⟨tag, options, provider, extras, hread, htag⟩ := readDiagram_describes s f
    rw [ofTag, hread, Construct.gather, hboth tag htag]
  | forEach => exact hfront _ (readLoop_describes s f)
  | ifThen | elseIf => exact hfront _ (readCondition_describes s f)
  | otherwise => exact hfront _ (.ofField f)
  | endFor | endIf => exact hclosing
  | element | binding | endBinding => exact absurd (by decide) hk

theorem TagStep.gather_eq (v : TagView α) {s : Setting} {p q : Progress} {k : Keyword} {f : Field}
    (h : TagStep s p k f q) (hplace : advance (.tag k) p.frames ≠ none) (hstretch : p.stretch = [])
    (hp : p.Unclosed) : q.gather v = p.gather v ++ v.ofTag s f k := by
  cases h with
  | single hc =>
    rw [Progress.gather_push v hstretch]
    cases k <;> simp_all [single?, TagView.ofTag]
  | @opens _ _ l hl hlimit =>
    have hlevel : l.gather v = v.ofTag s f k := by
      unfold opened? at hl
      split at hl <;> cases hl <;>
        simp [TagView.ofTag, Level.gather, Level.ofLoop, Level.ofCondition, Level.tag,
          Purpose.branches, Construct.gatherBody, v.front_swallowAll]
    simp [Progress.gather, hstretch, hlevel]
  | @closes _ _ l ls hlevels hends =>
    have hl : l.Unclosed := hp.levels l (by simp [hlevels])
    have hclosing : v.ofTag s f k = v.ofClosing f := by
      simp only [Level.endsAt] at hends
      split at hends <;> subst hends <;> rfl
    rw [Progress.closeLevel, Progress.gather_push v (by exact hstretch), Level.gather_close v hl,
      hclosing]
    simp [Progress.gather, hlevels, hstretch]
  | @elseIf _ l ls earlier condition hlevels hpurpose hlimit =>
    simp [Progress.gather, hlevels, hstretch, Level.gather, Level.ofCondition, hpurpose,
      Purpose.branches, Level.tag, Level.toBranch, Branch.gatherOpen, TagView.ofTag,
      Construct.gatherBody, v.front_swallowAll]
  | @otherwise _ l ls earlier condition hlevels hpurpose =>
    simp [Progress.gather, hlevels, hstretch, Level.gather, Level.ofOtherwise, hpurpose,
      Purpose.branches, Level.tag, Level.toBranch, Branch.gatherOpen, TagView.ofTag,
      Construct.gatherBody, v.front_swallowAll]
  | strays hterminator hnone => exact absurd hnone hplace

/-- A stray field adds its part to the tag of the innermost body. -/
theorem Progress.gather_swallow (v : TagView α) {p : Progress} (hstretch : p.stretch = [])
    (k : Keyword) (f : Field) :
    ((p.swallow k f).gather v).Perm (p.gather v ++ v.ofStray (k, f)) := by
  -- The tag stands in front of its body, so the part of the stray is moved behind the body.
  unfold Progress.swallow Progress.gather
  cases hlevels : p.levels with
  | nil =>
    simp only [Block.gather, Block.tag, v.front_swallowAll, hstretch, List.reverse_cons,
      List.flatMap_append, List.reverse_nil, List.flatMap_nil, List.append_nil, List.flatMap_cons,
      List.append_assoc]
    exact List.Perm.append_left _ (List.Perm.append_left _ List.perm_append_comm)
  | cons l ls =>
    simp only [Level.gather, Level.tag, v.front_swallowAll, hstretch, List.reverse_cons,
      List.flatMap_append, List.reverse_nil, List.flatMap_nil, List.append_nil, List.flatMap_cons,
      List.append_assoc]
    refine List.Perm.append_left _ (List.Perm.append_left _ (List.Perm.append_left _
      (List.Perm.append_left _ (List.Perm.append_left _ ?_))))
    exact List.perm_append_comm

section Steps

variable (v : TagView α) (p : Progress)

theorem Progress.gather_text (r : RunId) :
    { p with stretch := r :: p.stretch }.gather v = p.gather v ++ v.ofRun r := by
  simp [Progress.gather]

/-- A table adds what its cells give, row by row. -/
theorem Progress.gather_table (id : TableId) (ts : List (List Template)) (strays : List Stray) :
    { p.settle.push (.table id ts) with strays := strays }.gather v =
      p.gather v ++ ts.flatMap (fun row => row.flatMap (Template.gather v)) := by
  have hpush := Progress.gather_push v p.stretch_settle (.table id ts)
  rw [p.gather_settle, Construct.gather, Construct.gatherRows_eq_flatMap] at hpush
  exact hpush

/-- A tag that is in its place adds its part at the end. -/
theorem TagStep.gather_of_place {s : Setting} {p q : Progress} {k : Keyword} {f : Field}
    (h : TagStep s p.settle k f q) (hplace : advance (.tag k) p.frames ≠ none) (hp : p.Unclosed) :
    q.gather v = p.gather v ++ v.ofTag s f k := by
  rw [← p.gather_settle v]
  exact h.gather_eq v (by rwa [p.frames_settle]) p.stretch_settle hp.settle

/-- A tag that has no place adds its part somewhere. -/
theorem TagStep.gather_of_stray {s : Setting} {p q : Progress} {k : Keyword} {f : Field}
    (h : TagStep s p.settle k f q) (hnone : advance (.tag k) p.frames = none) :
    (q.gather v).Perm (p.gather v ++ v.ofStray (k, f)) := by
  rw [h.eq_swallow (by rwa [p.frames_settle]), ← p.gather_settle v]
  exact Progress.gather_swallow v p.stretch_settle k f

end Steps

/-! ## The end of the body -/

/-- What the end of the body adds to a level that it cuts off. -/
def TagView.ofEnd (v : TagView α) (l : Level) : List α :=
  v.ofProblem ⟨.unexpected .endOfBody, none⟩ ++
    match l.frame with
    | .branch => v.ofProblem ⟨.conditionalLeftOpen, l.tag.anchor?⟩
    | .loop | .otherwise => []

/-- What is gathered from a level that the end of the body cuts off. -/
def Level.gatherAtEnd (v : TagView α) (l : Level) : List α :=
  l.purpose.branches.flatMap (Branch.gatherOpen v) ++
    (v.front l.tag ++ v.ofEnd l ++ Construct.gatherBody v l.body.reverse)

theorem Tag.anchor?_report (t : Tag) (c : Cause) (r : Option RunId) :
    (t.report c r).anchor? = t.anchor? := rfl

namespace Level

variable (v : TagView α)

theorem gather_closeAtEnd {l : Level} (h : l.Unclosed) :
    l.closeAtEnd.gather v = l.gatherAtEnd v := by
  have hbranches := h.branches
  have hback : ∀ c r, v.back (l.tag.report c r) = [] := fun c r => v.back_eq_nil _ h.tag
  have hback₂ : ∀ c r c' r', v.back ((l.tag.report c r).report c' r') = [] :=
    fun c r c' r' => v.back_eq_nil _ h.tag
  unfold closeAtEnd gatherAtEnd TagView.ofEnd Level.frame
  cases hpurpose : l.purpose with
  | loop iterator source =>
    simp [Construct.gather, Purpose.branches, v.front_report, hback]
  | branch earlier condition =>
    rw [hpurpose] at hbranches
    rw [Construct.gather_ofBranches v hbranches]
    simp [Construct.gatherBranch, Construct.gatherElse, Purpose.branches, v.front_report, hback₂,
      Tag.anchor?_report]
  | otherwise earlier last =>
    obtain ⟨hearlier, hlast⟩ := h.beforeElse hpurpose
    rw [Construct.gather_ofBranches v hearlier, Construct.gatherBranch_unclosed v hlast]
    simp [Construct.gatherElse, Construct.gatherSection, Purpose.branches, v.front_report, hback]

/-- The level closed inside another one is the last construct of its body. -/
theorem gatherAtEnd_inner (l : Level) (inner : Option Construct) :
    { l with body := inner.toList ++ l.body }.gatherAtEnd v =
      l.gatherAtEnd v ++ Construct.gatherBody v inner.toList := by
  have hinner : inner.toList.reverse = inner.toList := by cases inner <;> rfl
  simp [gatherAtEnd, TagView.ofEnd, Level.frame, Level.tag, Construct.gatherBody_append, hinner]

end Level

namespace Progress

variable (v : TagView α)

/-- Closing what is open changes only the body of the block. -/
theorem closeLevels_eq (b : Block) (inner : Option Construct) (ls : List Level) :
    closeLevels b inner ls = { b with body := (closeLevels b inner ls).body } := by
  induction ls generalizing inner with
  | nil => rfl
  | cons l ls ih => exact ih _

theorem gather_closeLevels (b : Block) (inner : Option Construct) {ls : List Level}
    (h : ∀ l ∈ ls, l.Unclosed) :
    Construct.gatherBody v (closeLevels b inner ls).body.reverse =
      Construct.gatherBody v b.body.reverse ++ ls.reverse.flatMap (Level.gatherAtEnd v) ++
        Construct.gatherBody v inner.toList := by
  -- From the innermost level outward; each closed level is the last construct of the next.
  induction ls generalizing inner with
  | nil =>
    have hinner : inner.toList.reverse = inner.toList := by cases inner <;> rfl
    simp [closeLevels, Construct.gatherBody_append, hinner]
  | cons l ls ih =>
    have hl : l.Unclosed := h l List.mem_cons_self
    have hclosed : { l with body := inner.toList ++ l.body }.Unclosed := ⟨hl.header, hl.branches⟩
    rw [closeLevels, ih _ (fun l' hl' => h l' (List.mem_cons_of_mem _ hl'))]
    simp [Construct.gatherBody, Level.gather_closeAtEnd v hclosed, Level.gatherAtEnd_inner]

/-- A reading of a whole body ends by closing what is open. -/
theorem block_finish {p : Progress} (hstops : p.block.stops = [.endOfBody]) :
    p.finish.block = closeLevels p.settle.block none p.settle.levels := by
  have hcontains : (closeLevels p.settle.block none p.settle.levels).stops.contains .endOfBody =
      true := by
    rw [closeLevels_eq, p.stops_settle, hstops]
    rfl
  simp only [finish, hcontains, if_true]

/-- **The template of a finished reading** gives what the state gave, and for each level that is
still open what the end of the body adds to it. -/
theorem gather_finish {p : Progress} (h : p.Unclosed) (hstops : p.block.stops = [.endOfBody]) :
    Template.gather v p.finish.block.toSection =
      p.settle.block.gather v ++ p.settle.levels.reverse.flatMap (Level.gatherAtEnd v) := by
  have hsettle := h.settle
  have htag : (closeLevels p.settle.block none p.settle.levels).tag = p.settle.block.tag := by
    rw [closeLevels_eq]
    rfl
  have hback : v.back p.settle.block.tag = [] := v.back_eq_nil _ hsettle.block
  rw [Template.gather, block_finish hstops, Block.toSection, Construct.gatherSection, htag, hback,
    gather_closeLevels v _ _ hsettle.levels]
  simp [Construct.gatherBody, Block.gather]

/-- Where the end of the body adds nothing, the template gives just what the state gave. -/
theorem gather_finish_of_quiet {p : Progress} (h : p.Unclosed)
    (hstops : p.block.stops = [.endOfBody]) (hquiet : ∀ l, v.ofEnd l = []) :
    Template.gather v p.finish.block.toSection = p.gather v := by
  have hend : Level.gatherAtEnd v = Level.gather v := by
    funext l
    simp [Level.gatherAtEnd, Level.gather, hquiet]
  rw [gather_finish v h hstops, hend, ← p.gather_settle v]
  simp [Progress.gather, stretch_settle]

end Progress

end DocTemplate
