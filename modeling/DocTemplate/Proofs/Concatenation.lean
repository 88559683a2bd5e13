import DocTemplate.Document.Draft
import DocTemplate.Proofs.Gathering
import DocTemplate.Proofs.Tidying

/-!
# Bodies one after the other

A body that leaves nothing open can be parsed apart from what follows it. Looking ahead from a field
of the first body never reaches the second, so that the tokens of the two stand one after the other;
and once the tokens of the first body are read with all levels closed, reading goes on as it would
from the start, above what has already been read. The template of the whole is that of the first
body followed by that of the second. Where one ends and the other begins with plain text, the two
texts become one.

## Main statements

- `linear_append`: the tokens of the whole are those of the parts
- `Progress.templateAfter_above`: reading on does not depend on what has been read below
- `Body.parse_append`: the template of the whole is made of those of the parts
-/

namespace DocTemplate

/-! ## Tokens -/

/-- The search for the end of a field stops here. -/
def Position.endsSearch : Position → Bool
  | .run r => r.isClosing
  | .table .. => true

/-- Behind every run that opens a field stands one that closes a field, or a table. -/
def FieldsEnd : List Position → Prop
  | [] => True
  | .table .. :: ps => FieldsEnd ps
  | .run r :: ps => (r.isOpening = true → ∃ p ∈ ps, p.endsSearch = true) ∧ FieldsEnd ps

instance FieldsEnd.decidable : (ps : List Position) → Decidable (FieldsEnd ps)
  | [] => .isTrue trivial
  | .table .. :: ps => decidable ps
  | .run r :: ps =>
    haveI := decidable ps
    inferInstanceAs (Decidable ((r.isOpening = true → ∃ p ∈ ps, p.endsSearch = true) ∧ FieldsEnd ps))

theorem FieldsEnd.of_append {ps qs : List Position} (h : FieldsEnd (ps ++ qs)) : FieldsEnd qs := by
  induction ps with
  | nil => exact h
  | cons p ps ih =>
    cases p with
    | run r => exact ih h.2
    | table id rows => exact ih h

/-- Looking ahead does not go beyond the first place where it has to stop. -/
theorem peekInstruction_append {ps : List Position} (h : ∃ p ∈ ps, p.endsSearch = true)
    (qs : List Position) : peekInstruction (ps ++ qs) = peekInstruction ps := by
  induction ps with
  | nil => simp at h
  | cons p ps ih =>
    cases p with
    | table id rows => rfl
    | run r =>
      cases hr : r.isClosing with
      | true => simp [peekInstruction, hr]
      | false =>
        have hrest : ∃ p ∈ ps, p.endsSearch = true := by
          simpa [Position.endsSearch, hr] using h
        simp [peekInstruction, hr, ih hrest]

theorem classify_append {r : Run} {ps : List Position} (h : FieldsEnd (.run r :: ps))
    (qs : List Position) : classify (.run r :: (ps ++ qs)) = classify (.run r :: ps) := by
  rw [classify, classify]
  split
  next hr => rw [peekInstruction_append (h.1 hr)]
  next => rfl

/-- **The tokens of a whole are those of its parts**, if no field of the first part is left open. -/
theorem linear_append {ps : List Position} (h : FieldsEnd ps) (qs : List Position) :
    linear (ps ++ qs) = linear ps ++ linear qs := by
  induction ps using linear_induction with
  | nil => rw [linear_nil]; rfl
  | table id rows ps ih =>
    rw [List.cons_append, linear_table, linear_table, ih h]
    rfl
  | tag ps f rest k hf hk ih =>
    obtain ⟨rfl, hopening, hinner, hclosing⟩ := readField_eq_ok hf
    have hclosingRest : FieldsEnd (.run f.closing :: rest) := h.2.of_append
    have hrest : FieldsEnd rest := hclosingRest.2
    have hwhole := readField_field hopening hinner hclosing (rest ++ qs)
    have hread : readField (.run f.opening :: (f.inner.map .run ++ .run f.closing :: rest) ++ qs) =
        (.ok f, rest ++ qs) := by
      simpa using hwhole
    rw [linear_tag hread hk, linear_tag hf hk, ih hrest]
    rfl
  | text r ps htext ih =>
    have hwhole : classify (.run r :: (ps ++ qs)) = .text := by rw [classify_append h, htext]
    rw [List.cons_append, linear_text hwhole, linear_text htext, ih h.2]
    rfl

theorem Body.linearPositions_append (b c : Body) :
    linearPositions (b ++ c) = linearPositions b ++ linearPositions c := by
  induction b with
  | nil => rfl
  | cons e b ih => simp [linearPositions, ih]

/-! ## Reading above what has been read -/

/-- The block with what another one holds below its own. -/
def Block.above (b ground : Block) : Block :=
  { b with
    header := ground.header
    swallowed := b.swallowed ++ ground.swallowed
    body := b.body ++ ground.body }

/-- The state with what the block of another one holds below its own. -/
def Progress.above (p ground : Progress) : Progress :=
  { p with block := p.block.above ground.block, strays := p.strays ++ ground.strays }

def Step.above (ground : Progress) : Step → Step
  | .next p => .next (p.above ground)
  | .fail e taken p => .fail e taken (p.above ground)

namespace Progress

variable (p ground : Progress)

theorem depth_above : (p.above ground).depth = p.depth := rfl

theorem push_above (c : Construct) : (p.above ground).push c = (p.push c).above ground := by
  unfold push above
  cases p.levels <;> rfl

theorem settle_above : (p.above ground).settle = p.settle.above ground := by
  unfold settle
  rw [push_above]
  show (if p.stretch.isEmpty then _ else _) = _
  split <;> rfl

theorem swallow_above (k : Keyword) (f : Field) :
    (p.above ground).swallow k f = (p.swallow k f).above ground := by
  simp only [swallow, depth_above]
  cases hlevels : p.levels <;> simp [above, Block.above, hlevels]

theorem openLevel_above (s : Setting) (level : Nat → Level) :
    (p.above ground).openLevel s level = (p.openLevel s level).above ground := by
  unfold openLevel
  rw [depth_above]
  split <;> rfl

theorem closeLevel_above (ls : List Level) (c : Construct) :
    (p.above ground).closeLevel ls c = (p.closeLevel ls c).above ground :=
  push_above { p with levels := ls } ground c

/-- A tag does the same, whatever has been read below: it looks at what is open alone. -/
theorem readTag_above (s : Setting) (k : Keyword) (f : Field) :
    (p.above ground).readTag s k f = (p.readTag s k f).above ground := by
  have hlevels : (p.above ground).levels = p.levels := rfl
  cases k with
  | query | image | diagram => simp only [readTag, push_above, Step.above]
  | forEach | ifThen => simp only [readTag, openLevel_above]
  | element | binding => rfl
  | endBinding => simp only [readTag, swallow_above, Step.above]
  | endFor | endIf =>
    simp only [readTag, hlevels]
    cases p.levels with
    | nil => simp only [swallow_above, Step.above]
    | cons l ls =>
      cases hpurpose : l.purpose <;> simp only [hpurpose, swallow_above, closeLevel_above, Step.above]
  | otherwise =>
    simp only [readTag, hlevels]
    cases p.levels with
    | nil => simp only [swallow_above, Step.above]
    | cons l ls =>
      cases hpurpose : l.purpose with
      | branch => simp only [hpurpose]; rfl
      | loop | otherwise => simp only [hpurpose, swallow_above, Step.above]
  | elseIf =>
    simp only [readTag, hlevels]
    cases p.levels with
    | nil => simp only [swallow_above, Step.above]
    | cons l ls =>
      cases hpurpose : l.purpose with
      | branch =>
        simp only [hpurpose]
        split <;> rfl
      | loop | otherwise => simp only [hpurpose, swallow_above, Step.above]

variable {p}

theorem readToken_above {s : Setting} {t : Token} {q : Progress} (h : readToken s t p = .next q) :
    readToken s t (p.above ground) = .next (q.above ground) := by
  cases t with
  | text r =>
    rw [readToken] at h ⊢
    cases h
    rfl
  | tag k f =>
    rw [readToken] at h ⊢
    rw [settle_above, readTag_above, h, Step.above]
  | table id rows =>
    cases readToken_eq_next_iff.mp h with
    | table hcells =>
      rw [readToken_table_ok (by rwa [depth_above]), settle_above, push_above, depth_above]
      simp [above]

theorem readToken_above_fail {s : Setting} {t : Token} {e : ParseError} {taken : Bool}
    {q : Progress} (h : readToken s t p = .fail e taken q) :
    ∃ taken' q', readToken s t (p.above ground) = .fail e taken' q' := by
  cases t with
  | text r =>
    rw [readToken] at h
    cases h
  | tag k f =>
    rw [readToken] at h ⊢
    rw [settle_above, readTag_above, h]
    exact ⟨taken, q.above ground, rfl⟩
  | table id rows =>
    cases hcells : cellTemplates s p.depth rows with
    | ok ts =>
      rw [readToken_table_ok hcells] at h
      cases h
    | error e' =>
      obtain ⟨q', hfail⟩ := readToken_table_error hcells id
      rw [hfail] at h
      cases h
      exact ⟨true, readToken_table_error (p := p.above ground) hcells id⟩

theorem closeLevels_above (b ground : Block) (inner : Option Construct) (ls : List Level) :
    closeLevels (b.above ground) inner ls = (closeLevels b inner ls).above ground := by
  induction ls generalizing inner with
  | nil => simp [closeLevels, Block.above]
  | cons l ls ih => exact ih _

theorem finish_above (hstops : p.block.stops = [.endOfBody]) :
    (p.above ground).finish.block = p.finish.block.above ground.block := by
  have habove : (p.above ground).block.stops = [.endOfBody] := hstops
  rw [block_finish habove, block_finish hstops, settle_above]
  exact closeLevels_above _ _ _ _

end Progress

/-- The one template followed by the other. -/
def Template.concat (a b : Template) : Template := ⟨a.tag.join b.tag, a.body ++ b.body⟩

theorem Block.tag_above {b : Block} (h : b.header = {}) (ground : Block) :
    (b.above ground).tag = ground.tag.join b.tag := by
  simp [Block.tag, Block.above, Tag.swallowAll, Tag.join, h, List.findSome?_append,
    Option.or_assoc]

theorem Block.toSection_above {b : Block} (h : b.header = {}) (ground : Block) :
    (b.above ground).toSection = Template.concat ground.toSection b.toSection := by
  simp only [toSection, Template.concat, tag_above h]
  simp [Block.above]

theorem Progress.emptied_finish {p : Progress} (hstops : p.block.stops = [.endOfBody]) :
    p.finish.block.emptied = p.block.emptied := by
  rw [block_finish hstops, closeLevels_eq]
  exact p.emptied_settle

/-- **Reading on does not depend on what has been read below.** The template begins with what is
there already and goes on with what would be read from the start. -/
theorem Progress.templateAfter_above {s : Setting} {ts : List Token} {p : Progress} {depth : Nat}
    (h : p.block.emptied = (Progress.fresh depth).block) (ground : Progress) :
    (p.above ground).templateAfter s ts =
      (p.templateAfter s ts).map (Template.concat ground.block.toSection) := by
  have hstops : p.block.stops = [.endOfBody] :=
    Block.stops_of_emptied (c := (Progress.fresh depth).block) h
  have habove : (p.above ground).block.stops = [.endOfBody] := hstops
  induction ts generalizing p with
  | nil =>
    have hheader : p.finish.block.header = {} := by
      show p.finish.block.emptied.header = {}
      rw [emptied_finish hstops, h]
      rfl
    rw [templateAfter_nil, templateAfter_nil, finish_above ground hstops,
      Block.toSection_above hheader]
    rfl
  | cons t ts ih =>
    rw [templateAfter_cons habove, templateAfter_cons hstops]
    cases hread : readToken s t p with
    | next q =>
      rw [readToken_above ground hread]
      have hq := (readToken_eq_next_iff.mp hread).emptied.trans h
      have hqstops := (stops_of_readToken hread).trans hstops
      exact ih hq hqstops hqstops
    | fail e taken q =>
      obtain ⟨taken', q', hfail⟩ := readToken_above_fail ground hread
      rw [hfail]
      rfl

/-! ## Bodies that leave nothing open -/

namespace Construct

mutual

/-- The tags of a construct and of everything in it that stands outside the cells of tables. -/
def outerTags : Construct → List Tag
  | .text tag | .query tag _ _ | .image tag _ | .diagram tag _ _ _ => [tag]
  | .loop tag _ _ body => tag :: outerTagsOfBody body
  | .conditional first links otherwise =>
    outerTagsOfBranch first ++ outerTagsOfBranches links ++ outerTagsOfElse otherwise
  | .table .. => []

def outerTagsOfBody : List Construct → List Tag
  | [] => []
  | c :: cs => outerTags c ++ outerTagsOfBody cs

def outerTagsOfBranch : Branch Construct → List Tag
  | ⟨tag, _, body⟩ => tag :: outerTagsOfBody body

def outerTagsOfBranches : List (Branch Construct) → List Tag
  | [] => []
  | b :: bs => outerTagsOfBranch b ++ outerTagsOfBranches bs

def outerTagsOfElse : Option (Section Construct) → List Tag
  | none => []
  | some sec => outerTagsOfSection sec

def outerTagsOfSection : Section Construct → List Tag
  | ⟨tag, body⟩ => tag :: outerTagsOfBody body

end

end Construct

/-- The tags of a template outside the cells of tables. -/
def Template.outerTags (t : Template) : List Tag := Construct.outerTagsOfSection t

/-- One of the tags is cut off by the end of the body. -/
def Tag.CutOff (tags : List Tag) : Prop :=
  ∃ t ∈ tags, ∃ p ∈ t.problems, p.cause = .unexpected .endOfBody

namespace Construct

theorem outerTagsOfBody_eq_flatMap (cs : List Construct) :
    outerTagsOfBody cs = cs.flatMap outerTags := by
  induction cs with
  | nil => rfl
  | cons c cs ih => rw [outerTagsOfBody, ih, List.flatMap_cons]

theorem outerTagsOfBranches_eq_flatMap (bs : List (Branch Construct)) :
    outerTagsOfBranches bs = bs.flatMap outerTagsOfBranch := by
  induction bs with
  | nil => rfl
  | cons b bs ih => rw [outerTagsOfBranches, ih, List.flatMap_cons]

/-- The branches of a conditional are listed in order, and last what follows `m:else`. -/
theorem outerTags_ofBranches (last : Branch Construct) (earlier : List (Branch Construct))
    (otherwise : Option (Section Construct)) :
    (ofBranches last earlier otherwise).outerTags =
      (earlier.reverse ++ [last]).flatMap outerTagsOfBranch ++ outerTagsOfElse otherwise := by
  unfold ofBranches
  cases earlier.reverse with
  | nil => simp [outerTags, outerTagsOfBranches]
  | cons first links => simp [outerTags, outerTagsOfBranches_eq_flatMap]

end Construct

/-- A level that the end of the body closes tells so at one of its tags. -/
theorem Level.cutOff_closeAtEnd (l : Level) : Tag.CutOff l.closeAtEnd.outerTags := by
  have hreported : ⟨.unexpected .endOfBody, none⟩ ∈
      (l.tag.report (.unexpected .endOfBody) none).problems := by
    simp [Tag.report]
  unfold Level.closeAtEnd
  cases l.purpose with
  | loop iterator source =>
    refine ⟨l.tag.report (.unexpected .endOfBody) none, ?_, _, hreported, rfl⟩
    simp [Construct.outerTags]
  | branch earlier condition =>
    -- The level reports also that the conditional is left open, behind the first report.
    refine ⟨(l.tag.report (.unexpected .endOfBody) none).report .conditionalLeftOpen
      (l.tag.report (.unexpected .endOfBody) none).anchor?, ?_, _,
      List.mem_append_left _ hreported, rfl⟩
    simp [Construct.outerTags_ofBranches, Construct.outerTagsOfBranch]
  | otherwise earlier last =>
    refine ⟨l.tag.report (.unexpected .endOfBody) none, ?_, _, hreported, rfl⟩
    simp [Construct.outerTags_ofBranches, Construct.outerTagsOfElse, Construct.outerTagsOfSection]

/-- The outermost level that the end of the body closes is a construct of the block. -/
theorem Progress.cutOff_closeLevels (b : Block) {c : Construct} (hc : Tag.CutOff c.outerTags)
    (ls : List Level) : ∃ d ∈ (closeLevels b (some c) ls).body, Tag.CutOff d.outerTags := by
  induction ls generalizing c with
  | nil => exact ⟨c, by simp [closeLevels], hc⟩
  | cons l ls ih => exact ih (Level.cutOff_closeAtEnd _)

/-- **Where no tag is cut off by the end of the body, no level was open there.** -/
theorem Progress.levels_eq_nil {p : Progress} (hstops : p.block.stops = [.endOfBody])
    (h : ¬ Tag.CutOff (Template.outerTags p.finish.block.toSection)) : p.settle.levels = [] := by
  rw [block_finish hstops] at h
  cases hlevels : p.settle.levels with
  | nil => rfl
  | cons l ls =>
    obtain ⟨d, hd, t, ht, hproblem⟩ :=
      cutOff_closeLevels p.settle.block (Level.cutOff_closeAtEnd { l with body := [] ++ l.body }) ls
    refine absurd ⟨t, ?_, hproblem⟩ h
    rw [hlevels, closeLevels, Block.toSection, Template.outerTags, Construct.outerTagsOfSection,
      Construct.outerTagsOfBody_eq_flatMap]
    exact List.mem_cons_of_mem _ (List.mem_flatMap.mpr ⟨d, List.mem_reverse.mpr hd, ht⟩)

/-! ## Where the parts meet -/

theorem Reads.stretch_eq_nil_iff {s : Setting} {t : Token} {p q : Progress} (h : Reads s t p q) :
    q.stretch = [] ↔ t.kind ≠ .text := by
  cases h with
  | text r p => simp [Token.kind]
  | tag hstep => simp [Token.kind, hstep.stretch, Progress.stretch_settle]
  | table hcells => simp [Token.kind, Progress.stretch_push, Progress.stretch_settle]

/-- A stretch of plain runs is pending exactly if the last token is plain. -/
theorem Runs.stretch_eq_nil_iff {s : Setting} {ts : List Token} {p q : Progress}
    (h : Runs s ts p q) (hp : p.stretch = []) :
    q.stretch = [] ↔ ts.getLast?.map Token.kind ≠ some .text := by
  have hlast : ts ≠ [] → (q.stretch = [] ↔ ts.getLast?.map Token.kind ≠ some .text) := by
    clear hp
    induction h with
    | nil p => simp
    | @cons t ts p q r hstep hrest ih =>
      intro _
      cases ts with
      | nil =>
        cases hrest
        simpa using hstep.stretch_eq_nil_iff
      | cons u us => simpa using ih (by simp)
  cases ts with
  | nil =>
    cases h
    simpa using hp
  | cons t ts => exact hlast (by simp)

/-- The plain tokens in front. -/
theorem Token.exists_leading_texts (ts : List Token) :
    ∃ (ys : List RunId) (rest : List Token), ts = ys.map .text ++ rest ∧
      rest.head?.map Token.kind ≠ some .text ∧
      (ys ≠ [] ↔ ts.head?.map Token.kind = some .text) := by
  induction ts with
  | nil => exact ⟨[], [], by simp⟩
  | cons t ts ih =>
    cases t with
    | text r =>
      obtain ⟨ys, rest, rfl, hrest, -⟩ := ih
      exact ⟨r :: ys, rest, by simp, hrest, by simp [Token.kind]⟩
    | tag k f => exact ⟨[], _, rfl, by simp [Token.kind], by simp [Token.kind]⟩
    | table id rows => exact ⟨[], _, rfl, by simp [Token.kind], by simp [Token.kind]⟩

/-- Reading on from a state in which nothing is open and nothing pending is reading above it. -/
theorem Progress.fresh_above {p : Progress} {depth : Nat} (hlevels : p.levels = [])
    (hstretch : p.stretch = []) (h : p.block.emptied = (fresh depth).block) :
    (fresh depth).above p = p := by
  obtain ⟨⟨stops, depth', header, swallowed, body⟩, levels, stretch, strays⟩ := p
  simp only [Block.emptied, fresh, start, Block.mk.injEq] at h
  obtain ⟨rfl, rfl, -⟩ := h
  simp only at hlevels hstretch
  subst hlevels hstretch
  rfl

/-- The construct of a stretch, if there is one. -/
def Construct.ofStretch (xs : List RunId) : List Construct :=
  if xs = [] then [] else [.text { runs := xs }]

theorem Progress.toSection_settle {p : Progress} (h : p.levels = []) :
    p.settle.block.toSection =
      ⟨p.block.tag, p.block.body.reverse ++ Construct.ofStretch p.stretch.reverse⟩ := by
  by_cases hstretch : p.stretch = []
  · rw [settle_of_nil hstretch]
    simp [Block.toSection, Construct.ofStretch, hstretch]
  · rw [settle_of_ne_nil hstretch]
    simp [Block.toSection, Construct.ofStretch, hstretch, push, h, Block.tag]

theorem Progress.levels_settle {p : Progress} : p.settle.levels = [] ↔ p.levels = [] := by
  have hframes := p.frames_settle
  constructor <;> intro h <;> rw [frames, frames, h] at hframes <;> simpa using hframes

/-- Reading on over plain runs first. -/
theorem Progress.templateAfter_texts {s : Setting} {p : Progress} {depth : Nat}
    (h : p.block.emptied = (fresh depth).block) (hlevels : p.levels = []) (ys : List RunId)
    {rest : List Token} (hrest : rest.head?.map Token.kind ≠ some .text) :
    p.templateAfter s (ys.map .text ++ rest) =
      ((fresh depth).templateAfter s rest).map (Template.concat ⟨p.block.tag,
        p.block.body.reverse ++ Construct.ofStretch (p.stretch.reverse ++ ys)⟩) := by
  have hstops : p.block.stops = [.endOfBody] :=
    Block.stops_of_emptied (c := (fresh depth).block) h
  generalize hlater : { p with stretch := ys.reverse ++ p.stretch } = later
  have hopen : later.levels = [] := by rw [← hlater, hlevels]
  have hlaterStops : later.block.stops = [.endOfBody] := by rw [← hlater, hstops]
  have hground : (fresh depth).above later.settle = later.settle := by
    apply fresh_above
    · exact levels_settle.mpr hopen
    · exact later.stretch_settle
    · rw [later.emptied_settle, ← hlater, h]
  calc p.templateAfter s (ys.map .text ++ rest)
      = later.templateAfter s rest := by rw [templateAfter_text hstops, hlater]
    _ = ((fresh depth).above later.settle).templateAfter s rest := by
        rw [hground, templateAfter_settle hlaterStops hrest]
    _ = ((fresh depth).templateAfter s rest).map
          (Template.concat later.settle.block.toSection) := templateAfter_above rfl _
    _ = _ := by
        rw [toSection_settle hopen, ← hlater]
        simp

/-! ## Parsing -/

/-- One list of constructs behind another one. If they are to be merged where they meet, the text at
the end of the one and the text at the start of the other become one text. -/
inductive Construct.Joins : Bool → List Construct → List Construct → List Construct → Prop where
  | apart (cs ds : List Construct) : Joins false cs ds (cs ++ ds)
  | merged (cs : List Construct) (t u : Tag) (ds : List Construct) :
      Joins true (cs ++ [.text t]) (.text u :: ds) (cs ++ .text (t.join u) :: ds)

theorem Construct.joins_ofStretch (cs ds : List Construct) (xs ys : List RunId) :
    Joins (decide (xs ≠ [] ∧ ys ≠ [])) (cs ++ ofStretch xs) (ofStretch ys ++ ds)
      (cs ++ ofStretch (xs ++ ys) ++ ds) := by
  by_cases hxs : xs = []
  · simpa [ofStretch, hxs] using Joins.apart cs (ofStretch ys ++ ds)
  · by_cases hys : ys = []
    · simpa [ofStretch, hys] using Joins.apart (cs ++ ofStretch xs) ds
    · simpa [ofStretch, hxs, hys, Tag.join] using
        Joins.merged cs { runs := xs } { runs := ys } ds

/-- Tokens behind tokens that leave nothing open: what is read from them stands behind what is read
from the first ones. -/
theorem Template.ofTokens_append {s : Setting} {depth : Nat} {ts : List Token} {t : Template}
    (h : Template.ofTokens s depth ts = .ok t) (hclosed : ¬ Tag.CutOff t.outerTags)
    (us : List Token) :
    (∀ e, Template.ofTokens s depth (ts ++ us) = .error e ↔ Template.ofTokens s depth us = .error e) ∧
      ∀ u, Template.ofTokens s depth us = .ok u →
        ∃ w, Template.ofTokens s depth (ts ++ us) = .ok w ∧ w.tag = t.tag.join u.tag ∧
          Construct.Joins (ts.getLast?.map Token.kind = some .text ∧
            us.head?.map Token.kind = some .text) t.body u.body w.body := by
  obtain ⟨hlimit, q, hruns, rfl⟩ := Template.ofTokens_eq_ok_iff.mp h
  have hq : q.block.emptied = (Progress.fresh depth).block := hruns.emptied
  have hsettled := Progress.levels_eq_nil hruns.stops hclosed
  have hlevels := Progress.levels_settle.mp hsettled
  have hfirst : q.finish.block.toSection =
      ⟨q.block.tag, q.block.body.reverse ++ Construct.ofStretch q.stretch.reverse⟩ := by
    rw [Progress.block_finish hruns.stops, hsettled]
    exact Progress.toSection_settle hlevels
  obtain ⟨ys, rest, rfl, hrest, hys⟩ := Token.exists_leading_texts us
  have hseam : (q.stretch.reverse ≠ [] ∧ ys ≠ []) ↔ ts.getLast?.map Token.kind = some .text ∧
      (ys.map Token.text ++ rest).head?.map Token.kind = some .text := by
    rw [hys, List.reverse_ne_nil_iff, ne_eq, hruns.stretch_eq_nil_iff rfl, ne_eq, not_not]
  rw [Template.ofTokens_eq_fresh hlimit, Template.ofTokens_eq_fresh hlimit,
    hruns.templateAfter_append rfl, Progress.templateAfter_texts hq hlevels ys hrest,
    Progress.templateAfter_texts (p := Progress.fresh depth) rfl rfl ys hrest, hfirst]
  -- Both readings end with the one that begins behind the plain tokens.
  cases (Progress.fresh depth).templateAfter s rest with
  | error e => simp [Except.map]
  | ok u =>
    refine ⟨by simp [Except.map], ?_⟩
    rintro _ ⟨⟩
    refine ⟨_, rfl, ?_, ?_⟩
    · simp [Template.concat, Tag.join, Progress.fresh, Progress.start, Block.tag, Tag.swallowAll]
    · have hjoins := Construct.joins_ofStretch q.block.body.reverse u.body q.stretch.reverse ys
      simp only [hseam] at hjoins
      exact hjoins

namespace Body

/-- **Bodies one after the other are parsed one after the other.** Let a body `b` have a template in
which the end of the body cuts off nothing, cells apart, and let none of its fields be left open.
Then `b` followed by `c` fails as `c` does; and if `c` has a template, the whole has the template of
`b` followed by that of `c`, with the texts at the seam merged exactly if plain text stands on both
sides of it. -/
theorem parse_append (s : Setting) (b c : Body) {t : Template} (hb : (b.parse s).result = .ok t)
    (hclosed : ∀ tag ∈ t.outerTags, ∀ p ∈ tag.problems, p.cause ≠ .unexpected .endOfBody)
    (hfields : FieldsEnd b.positions) :
    (∀ e, ((b ++ c).parse s).result = .error e ↔ (c.parse s).result = .error e) ∧
      ∀ u, (c.parse s).result = .ok u →
        ∃ w, ((b ++ c).parse s).result = .ok w ∧ w.tag = t.tag.join u.tag ∧
          Construct.Joins
            (b.tokens.getLast?.map Token.kind = some .text ∧
              c.tokens.head?.map Token.kind = some .text)
            t.body u.body w.body := by
  have hnot : ¬ Tag.CutOff t.outerTags := by
    rintro ⟨tag, htag, p, hp, hcause⟩
    exact hclosed tag htag p hp hcause
  rw [b.positions_eq_linearPositions] at hfields
  have htokens : (b ++ c).linearTokens = b.linearTokens ++ c.linearTokens := by
    rw [linearTokens, linearPositions_append, linear_append hfields]
    rfl
  rw [b.result_parse] at hb
  rw [(b ++ c).result_parse, c.result_parse, htokens, b.tokens_eq_linearTokens,
    c.tokens_eq_linearTokens]
  exact Template.ofTokens_append hb hnot c.linearTokens

/-- A repetition around a table, a stray end tag and a plain run. -/
def loopThenText : Body :=
  Draft.build
    [.paragraph [.field ["m:for x | xs"], .text "a"], .table [[[.paragraph [.opening]]]],
      .paragraph [.field ["m:endfor"], .field ["m:endif"], .text "b"]]

/-- A plain run, a query and a repetition that is left open. -/
def textThenLoop : Body :=
  Draft.build [.paragraph [.text "c", .field ["m:y"], .field ["m:for x | xs"]]]

/-- The plain runs at the seam are merged. -/
theorem parse_append_loopThenText :
    ∃ t u w, (loopThenText.parse { compile := .fixed [] }).result = .ok t ∧
      (textThenLoop.parse { compile := .fixed [] }).result = .ok u ∧
      ((loopThenText ++ textThenLoop).parse { compile := .fixed [] }).result = .ok w ∧
      w.tag = t.tag.join u.tag ∧ Construct.Joins true t.body u.body w.body := by
  have hfirst : (loopThenText.parse { compile := .fixed [] }).result.toOption.map
      (fun t => decide (∀ tag ∈ t.outerTags, ∀ p ∈ tag.problems,
        p.cause ≠ .unexpected .endOfBody)) = some true := by decide +kernel
  have hsecond : (textThenLoop.parse { compile := .fixed [] }).result.toOption.map
      (fun _ => ()) = some () := by decide +kernel
  have hseam : decide (loopThenText.tokens.getLast?.map Token.kind = some .text ∧
      textThenLoop.tokens.head?.map Token.kind = some .text) = true := by decide +kernel
  obtain ⟨t, ht, hclosed⟩ := exists_of_toOption_map hfirst
  obtain ⟨u, hu, -⟩ := exists_of_toOption_map hsecond
  obtain ⟨w, hw, htag, hbody⟩ := (parse_append { compile := .fixed [] } loopThenText textThenLoop ht
    (of_decide_eq_true hclosed) (by decide +kernel)).2 u hu
  rw [hseam] at hbody
  exact ⟨t, u, w, ht, hu, hw, htag, hbody⟩

end Body

end DocTemplate
