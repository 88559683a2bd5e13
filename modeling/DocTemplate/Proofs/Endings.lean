import DocTemplate.Document.Draft
import DocTemplate.Proofs.Concatenation
import DocTemplate.Proofs.TreeInvariants

/-!
# How constructs end

A repetition ends with its end tag, or it is cut off by the end of the body. A condition ends where
the next one begins, where `m:else` begins, with the end tag of the conditional, or it is cut off.
Three things tell which it was: the runs of a closing field, the alternative that follows, and the
reports about the end of the body. They are written at different moments of a reading, but they
always agree.

What is cut off is the last construct of its body, and so is everything around it, up to the
template that it stands in.

## Main statements

- `Construct.EndsWell`: what a construct tells about its end is consistent
- `TreeProperty.endings_kept`: reading keeps to it
- `Body.parse_endings`: every construct of a template ends well
-/

namespace DocTemplate

/-! ## Reports about the end of the body -/

namespace Tag

/-- How often a tag reports the end of the body. -/
def endReports (t : Tag) : Nat := t.problems.countP (·.cause = .unexpected .endOfBody)

/-- How often a tag reports that a conditional is left open. -/
def openReports (t : Tag) : Nat := t.problems.countP (·.cause = .conditionalLeftOpen)

/-- The tag says nothing about the end of the body. -/
structure Quiet (t : Tag) : Prop where
  endReports : t.endReports = 0
  openReports : t.openReports = 0

theorem cutOff_iff {tags : List Tag} : CutOff tags ↔ ∃ t ∈ tags, t.endReports ≠ 0 := by
  simp [CutOff, Tag.endReports, List.countP_eq_zero]

theorem not_cutOff_of_quiet {tags : List Tag} (h : ∀ t ∈ tags, t.Quiet) : ¬ CutOff tags := by
  rw [cutOff_iff]
  rintro ⟨t, ht, hreports⟩
  exact hreports (h t ht).endReports

/-- What is wrong inside a field has nothing to do with the end of the body. -/
theorem Describes.quiet {t : Tag} {f : Field} (h : t.Describes f) : t.Quiet := by
  constructor
  all_goals
    apply List.countP_eq_zero.mpr
    intro p hp hcause
    have hlocal := h.problems p hp
    rw [Problem.isStructural, of_decide_eq_true hcause] at hlocal
    cases hlocal

theorem Quiet.swallow {t : Tag} (h : t.Quiet) (k : Keyword) (f : Field) :
    (t.swallow k f).Quiet := by
  constructor
  · simpa [Tag.endReports, Tag.swallow, report, absorb] using h.endReports
  · simpa [Tag.openReports, Tag.swallow, report, absorb] using h.openReports

theorem Quiet.closing {t : Tag} (h : t.Quiet) (f : Field) : (t.absorb .closing f).Quiet :=
  ⟨h.endReports, h.openReports⟩

theorem Quiet.endReports_report {t : Tag} (h : t.Quiet) :
    (t.report (.unexpected .endOfBody) none).endReports = 1 := by
  have hreports := h.endReports
  unfold Tag.endReports at hreports ⊢
  simp [report, hreports]

theorem Quiet.openReports_report {t : Tag} (h : t.Quiet) :
    (t.report (.unexpected .endOfBody) none).openReports = 0 := by
  simpa [Tag.openReports, report] using h.openReports

theorem closing_ne_nil (t : Tag) (f : Field) : (t.absorb .closing f).closingRuns ≠ [] := by
  simp [absorb, Field.runs]

end Tag

/-! ## Stages of a conditional -/

/-- What follows a condition. -/
inductive Alternative where
  | elseIf
  | otherwise (sec : Section Construct)
  | none

def Alternative.ofElse : Option (Section Construct) → Alternative
  | some sec => .otherwise sec
  | Option.none => .none

/-- A condition of a conditional, and what follows it. -/
structure Stage where
  branch : Branch Construct
  alternative : Alternative

/-- How a condition can end. -/
inductive Ending where
  | elseIf
  | otherwise
  | closed
  | cutOff

/-- A condition that ends in some way, and what it tells about that. What `m:else` opens is closed
by the field that closes the condition before it; a condition that is cut off reports the end of the
body and, last of all, that the conditional is left open. -/
def Ending.Fits (g : Stage) : Ending → Prop
  | .elseIf => g.alternative = .elseIf ∧ g.branch.tag.closingRuns = [] ∧ g.branch.tag.endReports = 0
  | .otherwise => ∃ sec, g.alternative = .otherwise sec ∧ g.branch.tag.endReports = 0 ∧
      (g.branch.tag.closingRuns = [] ↔ sec.tag.endReports ≠ 0)
  | .closed => g.alternative = .none ∧ g.branch.tag.closingRuns ≠ [] ∧ g.branch.tag.endReports = 0
  | .cutOff => g.alternative = .none ∧ g.branch.tag.closingRuns = [] ∧
      ∃ before anchor, g.branch.tag.problems =
        before ++ [⟨.unexpected .endOfBody, Option.none⟩, ⟨.conditionalLeftOpen, anchor⟩]

/-- The alternative and the closing runs tell the four endings apart. -/
theorem Ending.fits_unique {g : Stage} {e e' : Ending} (h : e.Fits g) (h' : e'.Fits g) :
    e = e' := by
  cases e <;> cases e' <;> simp_all [Fits]

namespace Construct

/-- The conditions of a conditional, each with what follows it. -/
def stagesOf (b : Branch Construct) :
    List (Branch Construct) → Option (Section Construct) → List Stage
  | [], otherwise => [⟨b, .ofElse otherwise⟩]
  | next :: links, otherwise => ⟨b, .elseIf⟩ :: stagesOf next links otherwise

def stages : Construct → List Stage
  | .conditional first links otherwise => stagesOf first links otherwise
  | _ => []

/-! ## Parts of a construct -/

/-- The tags of a construct itself, without what is in its bodies. -/
def ownTags : Construct → List Tag
  | .text tag | .query tag _ _ | .image tag _ | .diagram tag _ _ _ | .loop tag _ _ _ => [tag]
  | .conditional first links otherwise =>
    (first :: links).map Branch.tag ++ otherwise.toList.map Section.tag
  | .table .. => []

/-- The bodies of a construct, without the cells of a table. -/
def innerBodies : Construct → List (List Construct)
  | .loop _ _ _ body => [body]
  | .conditional first links otherwise =>
    (first :: links).map Branch.body ++ otherwise.toList.map Section.body
  | _ => []

/-- The cells of a table. -/
def cells : Construct → List Template
  | .table _ rows => rows.flatten
  | _ => []

theorem walkBody_eq_flatMap (cs : List Construct) : walkBody cs = cs.flatMap walk := by
  induction cs with
  | nil => rfl
  | cons c cs ih => rw [walkBody, ih, List.flatMap_cons]

theorem walkBranches_eq_flatMap (bs : List (Branch Construct)) :
    walkBranches bs = bs.flatMap (fun b => b.body.flatMap walk) := by
  induction bs with
  | nil => rfl
  | cons b bs ih => rw [walkBranches, ih, List.flatMap_cons, walkBranch, walkBody_eq_flatMap]

theorem walkRows_eq_flatMap (rows : List (List Template)) :
    walkRows rows = rows.flatten.flatMap (fun u => u.body.flatMap walk) := by
  have hcells : ∀ row : List Template,
      walkCells row = row.flatMap (fun u => u.body.flatMap walk) := by
    intro row
    induction row with
    | nil => rfl
    | cons u row ih => rw [walkCells, ih, List.flatMap_cons, walkSection, walkBody_eq_flatMap]
  induction rows with
  | nil => rfl
  | cons row rows ih => rw [walkRows, ih, hcells, List.flatten_cons, List.flatMap_append]

/-- A construct and everything in it, told by its bodies and cells. -/
theorem mem_walk_iff {c d : Construct} :
    d ∈ c.walk ↔ d = c ∨ (∃ cs ∈ c.innerBodies, ∃ e ∈ cs, d ∈ e.walk) ∨
      ∃ u ∈ c.cells, ∃ e ∈ u.body, d ∈ e.walk := by
  cases c with
  | text | query | image | diagram => simp [walk, innerBodies, cells]
  | loop tag iterator source body => simp [walk, innerBodies, cells, walkBody_eq_flatMap]
  | conditional first links otherwise =>
    obtain ⟨tag, condition, body⟩ := first
    cases otherwise with
    | none =>
      simp [walk, innerBodies, cells, walkBranch, walkBranches_eq_flatMap, walkBody_eq_flatMap,
        walkElse]
    | some sec =>
      obtain ⟨elseTag, elseBody⟩ := sec
      simp [walk, innerBodies, cells, walkBranch, walkBranches_eq_flatMap, walkBody_eq_flatMap,
        walkElse, walkSection, or_and_right, exists_or]
  | table id rows => simp [walk, innerBodies, cells, walkRows_eq_flatMap]

theorem outerTagsOfBranch_eq (b : Branch Construct) :
    outerTagsOfBranch b = b.tag :: b.body.flatMap outerTags := by
  cases b
  rw [outerTagsOfBranch, outerTagsOfBody_eq_flatMap]

theorem outerTagsOfElse_eq (otherwise : Option (Section Construct)) :
    outerTagsOfElse otherwise =
      otherwise.toList.flatMap (fun sec => sec.tag :: sec.body.flatMap outerTags) := by
  cases otherwise with
  | none => rfl
  | some sec =>
    cases sec
    simp [outerTagsOfElse, outerTagsOfSection, outerTagsOfBody_eq_flatMap]

theorem mem_outerTags_iff {c : Construct} {tag : Tag} :
    tag ∈ c.outerTags ↔ tag ∈ c.ownTags ∨ ∃ cs ∈ c.innerBodies, ∃ d ∈ cs, tag ∈ d.outerTags := by
  cases c with
  | text | query | image | diagram | table => simp [outerTags, ownTags, innerBodies]
  | loop own iterator source body =>
    simp [outerTags, ownTags, innerBodies, outerTagsOfBody_eq_flatMap]
  | conditional first links otherwise =>
    simp only [outerTags, ownTags, innerBodies, outerTagsOfBranch_eq, outerTagsOfElse_eq,
      outerTagsOfBranches_eq_flatMap, List.mem_append, List.mem_cons, List.mem_flatMap,
      List.mem_map, List.map_cons]
    -- The tags of a branch stand in front of those in its body, so that the two kinds are mixed.
    grind

/-- What is cut off in a construct is the construct itself, or something in one of its bodies. -/
theorem cutOff_outerTags_iff {c : Construct} :
    Tag.CutOff c.outerTags ↔
      Tag.CutOff c.ownTags ∨ ∃ cs ∈ c.innerBodies, ∃ d ∈ cs, Tag.CutOff d.outerTags := by
  constructor
  · rintro ⟨tag, htag, hproblem⟩
    rcases mem_outerTags_iff.mp htag with htag | ⟨cs, hcs, d, hd, htag⟩
    · exact .inl ⟨tag, htag, hproblem⟩
    · exact .inr ⟨cs, hcs, d, hd, tag, htag, hproblem⟩
  · rintro (⟨tag, htag, hproblem⟩ | ⟨cs, hcs, d, hd, tag, htag, hproblem⟩)
    · exact ⟨tag, mem_outerTags_iff.mpr (.inl htag), hproblem⟩
    · exact ⟨tag, mem_outerTags_iff.mpr (.inr ⟨cs, hcs, d, hd, htag⟩), hproblem⟩

/-! ## Conditionals, from their branches -/

section OfBranches

variable {last : Branch Construct} {earlier : List (Branch Construct)}
  {otherwise : Option (Section Construct)}

theorem stages_ofBranches :
    (ofBranches last earlier otherwise).stages =
      earlier.reverse.map (fun b => ⟨b, .elseIf⟩) ++ [⟨last, .ofElse otherwise⟩] := by
  have hstages : ∀ first links, stagesOf first (links ++ [last]) otherwise =
      (first :: links).map (fun b => ⟨b, .elseIf⟩) ++ [⟨last, .ofElse otherwise⟩] := by
    intro first links
    induction links generalizing first with
    | nil => rfl
    | cons next links ih =>
      rw [List.cons_append, stagesOf, ih]
      rfl
  unfold ofBranches
  cases earlier.reverse with
  | nil => rfl
  | cons first links => exact hstages first links

theorem forall_mem_stages_ofBranches {P : Stage → Prop} :
    (∀ g ∈ (ofBranches last earlier otherwise).stages, P g) ↔
      (∀ b ∈ earlier, P ⟨b, .elseIf⟩) ∧ P ⟨last, .ofElse otherwise⟩ := by
  rw [stages_ofBranches, List.forall_mem_append, List.forall_mem_map, List.forall_mem_singleton]
  simp only [List.mem_reverse]

theorem forall_mem_ownTags_ofBranches {P : Tag → Prop} :
    (∀ tag ∈ (ofBranches last earlier otherwise).ownTags, P tag) ↔
      (∀ b ∈ earlier, P b.tag) ∧ P last.tag ∧ ∀ sec ∈ otherwise, P sec.tag := by
  have hown : (ofBranches last earlier otherwise).ownTags =
      (earlier.reverse ++ [last]).map Branch.tag ++ otherwise.toList.map Section.tag := by
    unfold ofBranches
    cases earlier.reverse <;> simp [ownTags]
  simp [hown, or_imp, forall_and]

theorem forall_mem_innerBodies_ofBranches {P : List Construct → Prop} :
    (∀ cs ∈ (ofBranches last earlier otherwise).innerBodies, P cs) ↔
      (∀ b ∈ earlier, P b.body) ∧ P last.body ∧ ∀ sec ∈ otherwise, P sec.body := by
  have hbodies : (ofBranches last earlier otherwise).innerBodies =
      (earlier.reverse ++ [last]).map Branch.body ++ otherwise.toList.map Section.body := by
    unfold ofBranches
    cases earlier.reverse <;> simp [innerBodies]
  simp [hbodies, or_imp, forall_and]

theorem cells_ofBranches : (ofBranches last earlier otherwise).cells = [] := by
  unfold ofBranches
  cases earlier.reverse <;> rfl

theorem ofBranches_ne_loop {tag : Tag} {iterator : Option String} {source : Option Expression}
    {body : List Construct} :
    ofBranches last earlier otherwise ≠ .loop tag iterator source body := by
  unfold ofBranches
  cases earlier.reverse <;> simp

end OfBranches

end Construct

/-! ## Constructs that end well -/

/-- Only the last construct of a body may be cut off, or hold something that is. -/
def OnlyLastCutOff (cs : List Construct) : Prop := ∀ c ∈ cs.dropLast, ¬ Tag.CutOff c.outerTags

/-- A template's tag says nothing about the end of its body. -/
structure Template.EndsWell (t : Template) : Prop where
  tag : t.tag.Quiet
  body : OnlyLastCutOff t.body

/-- What a construct tells about its end is consistent. -/
structure Construct.EndsWell (c : Construct) : Prop where
  /-- A repetition has a closing field, or reports the end of the body once. -/
  loop : ∀ tag iterator source body, c = .loop tag iterator source body →
    tag.endReports = if tag.closingRuns = [] then 1 else 0
  /-- Each condition ends in one of the four ways. -/
  stages : ∀ g ∈ c.stages, ∃! e : Ending, e.Fits g
  /-- Only a condition that is cut off reports that the conditional is left open. -/
  openReports : ∀ tag ∈ c.ownTags, tag.openReports ≠ 0 →
    ∃ g ∈ c.stages, g.branch.tag = tag ∧ Ending.cutOff.Fits g
  bodies : ∀ cs ∈ c.innerBodies, OnlyLastCutOff cs
  cells : ∀ u ∈ c.cells, u.EndsWell
  /-- What is around something that is cut off is itself cut off. -/
  around : Tag.CutOff c.outerTags → Tag.CutOff c.ownTags

/-- The construct and everything in it ends well. -/
def Construct.AllEndWell (c : Construct) : Prop := ∀ d ∈ c.walk, d.EndsWell

/-- A construct that is finished when its body goes on: everything in it ends well, and nothing is
cut off outside the cells of tables. -/
structure Construct.Finished (c : Construct) : Prop where
  all : c.AllEndWell
  notCutOff : ¬ Tag.CutOff c.outerTags

namespace Construct

theorem onlyLastCutOff_of_finished {cs : List Construct} (h : ∀ c ∈ cs, c.Finished) :
    OnlyLastCutOff cs :=
  fun c hc => (h c (List.dropLast_subset cs hc)).notCutOff

theorem AllEndWell.of {c : Construct} (hends : c.EndsWell)
    (hbodies : ∀ cs ∈ c.innerBodies, ∀ d ∈ cs, d.AllEndWell)
    (hcells : ∀ u ∈ c.cells, ∀ d ∈ u.body, d.AllEndWell) : c.AllEndWell := by
  intro d hd
  rcases mem_walk_iff.mp hd with rfl | ⟨cs, hcs, e, he, hd⟩ | ⟨u, hu, e, he, hd⟩
  · exact hends
  · exact hbodies cs hcs e he d hd
  · exact hcells u hu e he d hd

/-- A construct without a report about the end of the body, all of whose bodies are finished. -/
theorem Finished.of {c : Construct} (hown : ∀ tag ∈ c.ownTags, tag.Quiet)
    (hbodies : ∀ cs ∈ c.innerBodies, ∀ d ∈ cs, d.Finished)
    (hloop : ∀ tag iterator source body, c = .loop tag iterator source body →
      tag.closingRuns ≠ [])
    (hstages : ∀ g ∈ c.stages, ∃ e : Ending, e.Fits g)
    (hcells : ∀ u ∈ c.cells, u.EndsWell ∧ ∀ d ∈ u.body, d.AllEndWell) : c.Finished := by
  -- Neither its own tags nor anything in its bodies reports the end of the body.
  have hnot : ¬ Tag.CutOff c.outerTags := by
    rw [cutOff_outerTags_iff]
    rintro (hcut | ⟨cs, hcs, d, hd, hcut⟩)
    · exact Tag.not_cutOff_of_quiet hown hcut
    · exact (hbodies cs hcs d hd).notCutOff hcut
  refine ⟨AllEndWell.of ?_ (fun cs hcs d hd => (hbodies cs hcs d hd).all)
    (fun u hu => (hcells u hu).2), hnot⟩
  constructor
  · rintro tag iterator source body rfl
    rw [if_neg (hloop tag iterator source body rfl)]
    exact (hown tag List.mem_cons_self).endReports
  · intro g hg
    obtain ⟨e, he⟩ := hstages g hg
    exact ⟨e, he, fun e' he' => Ending.fits_unique he' he⟩
  · intro tag htag hreports
    exact absurd (hown tag htag).openReports hreports
  · intro cs hcs
    exact onlyLastCutOff_of_finished (hbodies cs hcs)
  · intro u hu
    exact (hcells u hu).1
  · intro hcut
    exact absurd hcut hnot

/-- A construct without bodies. -/
theorem finished_leaf {c : Construct} {tag : Tag} (htag : tag.Quiet) (hown : c.ownTags = [tag])
    (hbodies : c.innerBodies = []) (hstages : c.stages = []) (hcells : c.cells = [])
    (hloop : ∀ tag iterator source body, c ≠ .loop tag iterator source body) : c.Finished := by
  apply Finished.of
  · simpa [hown] using htag
  · simp [hbodies]
  · intro tag iterator source body hc
    exact absurd hc (hloop tag iterator source body)
  · simp [hstages]
  · simp [hcells]

/-- A construct that reports the end of the body, with a body at whose end something may be cut
off. -/
theorem AllEndWell.ofCutOff {c : Construct} (hcut : Tag.CutOff c.ownTags)
    (hbodies : ∀ cs ∈ c.innerBodies, OnlyLastCutOff cs ∧ ∀ d ∈ cs, d.AllEndWell)
    (hloop : ∀ tag iterator source body, c = .loop tag iterator source body →
      tag.closingRuns = [] ∧ tag.endReports = 1)
    (hstages : ∀ g ∈ c.stages, ∃ e : Ending, e.Fits g)
    (hopen : ∀ tag ∈ c.ownTags, tag.openReports ≠ 0 →
      ∃ g ∈ c.stages, g.branch.tag = tag ∧ Ending.cutOff.Fits g)
    (hcells : c.cells = []) : c.AllEndWell := by
  apply AllEndWell.of
  · constructor
    · intro tag iterator source body hc
      obtain ⟨hclosing, hreports⟩ := hloop tag iterator source body hc
      rw [if_pos hclosing, hreports]
    · intro g hg
      obtain ⟨e, he⟩ := hstages g hg
      exact ⟨e, he, fun e' he' => Ending.fits_unique he' he⟩
    · exact hopen
    · intro cs hcs
      exact (hbodies cs hcs).1
    · simp [hcells]
    · exact fun _ => hcut
  · intro cs hcs
    exact (hbodies cs hcs).2
  · simp [hcells]

end Construct

/-! ## Reading -/

/-- What is asked of the endings in a tree: a tag that is open has no closing field yet and says
nothing about the end of the body. -/
def TreeProperty.endings : TreeProperty where
  openTag _ _ tag := tag.closingRuns = [] ∧ tag.Quiet
  construct _ c := c.Finished
  cutOff _ c := c.AllEndWell

section Steps

variable {ts : List Token} {l : Level}

theorem TreeProperty.OfBody.onlyLastCutOff {cs : List Construct}
    (h : TreeProperty.endings.OfBody ts cs) : OnlyLastCutOff cs ∧ ∀ c ∈ cs, c.AllEndWell := by
  obtain ⟨before, last, rfl, hbefore, hlast⟩ := h
  constructor
  · intro c hc
    -- With or without something cut off at the end, what precedes the last construct is finished.
    have hmem : c ∈ before := by
      cases last with
      | none => exact List.dropLast_subset before (by simpa using hc)
      | some d => simpa using hc
    exact (hbefore c hmem).notCutOff
  · intro c hc
    rcases List.mem_append.mp hc with hc | hc
    · exact (hbefore c hc).all
    · exact hlast c (Option.mem_toList.mp hc)

theorem TreeProperty.OfTemplate.endsWell {t : Template}
    (h : TreeProperty.endings.OfTemplate ts t) : t.EndsWell ∧ ∀ c ∈ t.body, c.AllEndWell :=
  ⟨⟨h.tag.2, h.body.onlyLastCutOff.1⟩, h.body.onlyLastCutOff.2⟩

theorem single?_finished {s : Setting} {f : Field} {k : Keyword} {c : Construct}
    (h : single? s f k = some c) : c.Finished := by
  obtain ⟨tag, htag, hc⟩ := single?_cases h
  rcases hc with ⟨-, _, _, rfl⟩ | ⟨-, _, rfl⟩ | ⟨-, _, _, _, rfl⟩
  all_goals exact Construct.finished_leaf htag.quiet rfl rfl rfl rfl (by simp)

/-- A finished branch of an open conditional. -/
structure Branch.Passed (b : Branch Construct) : Prop where
  closingRuns : b.tag.closingRuns = []
  quiet : b.tag.Quiet
  body : ∀ c ∈ b.body, c.Finished

theorem Branch.Passed.fits {b : Branch Construct} (h : b.Passed) :
    Ending.elseIf.Fits ⟨b, .elseIf⟩ :=
  ⟨rfl, h.closingRuns, h.quiet.endReports⟩

theorem Level.passed (h : TreeProperty.endings.OfLevel ts l) : ∀ b ∈ l.purpose.branches, b.Passed :=
  fun b hb =>
    have hb := h.branches b hb
    ⟨hb.1.1, hb.1.2, hb.2⟩

section OfBranches

variable {last : Branch Construct} {earlier : List (Branch Construct)}
  {otherwise : Option (Section Construct)}

/-- A conditional that its end tag closes. -/
theorem Construct.finished_ofBranches (hearlier : ∀ b ∈ earlier, b.Passed)
    (hlast : last.tag.Quiet ∧ ∀ c ∈ last.body, c.Finished)
    (helse : ∀ sec ∈ otherwise, sec.tag.Quiet ∧ ∀ c ∈ sec.body, c.Finished)
    (hfits : ∃ e : Ending, e.Fits ⟨last, .ofElse otherwise⟩) :
    (ofBranches last earlier otherwise).Finished := by
  apply Finished.of
  · rw [forall_mem_ownTags_ofBranches]
    exact ⟨fun b hb => (hearlier b hb).quiet, hlast.1, fun sec hsec => (helse sec hsec).1⟩
  · rw [forall_mem_innerBodies_ofBranches]
    exact ⟨fun b hb => (hearlier b hb).body, hlast.2, fun sec hsec => (helse sec hsec).2⟩
  · intro tag iterator source body hc
    exact absurd hc ofBranches_ne_loop
  · rw [forall_mem_stages_ofBranches]
    exact ⟨fun b hb => ⟨.elseIf, (hearlier b hb).fits⟩, hfits⟩
  · simp [cells_ofBranches]

/-- A conditional that is cut off: in its last condition, or behind `m:else`. -/
theorem Construct.allEndWell_ofBranches (hearlier : ∀ b ∈ earlier, b.Passed)
    (hcut : last.tag.endReports ≠ 0 ∨ ∃ sec ∈ otherwise, sec.tag.endReports ≠ 0)
    (hlast : OnlyLastCutOff last.body ∧ ∀ c ∈ last.body, c.AllEndWell)
    (helse : ∀ sec ∈ otherwise, sec.tag.openReports = 0 ∧
      OnlyLastCutOff sec.body ∧ ∀ c ∈ sec.body, c.AllEndWell)
    (hfits : ∃ e : Ending, e.Fits ⟨last, .ofElse otherwise⟩)
    (hopen : last.tag.openReports ≠ 0 → Ending.cutOff.Fits ⟨last, .ofElse otherwise⟩) :
    (ofBranches last earlier otherwise).AllEndWell := by
  apply AllEndWell.ofCutOff
  · rw [Tag.cutOff_iff]
    -- If no tag reported the end of the body, neither would the last condition nor `m:else`.
    by_contra hnot
    push Not at hnot
    obtain ⟨-, hlastNot, helseNot⟩ := forall_mem_ownTags_ofBranches.mp hnot
    rcases hcut with hcut | ⟨sec, hsec, hcut⟩
    · exact hcut hlastNot
    · exact hcut (helseNot sec hsec)
  · rw [forall_mem_innerBodies_ofBranches]
    refine ⟨fun b hb => ?_, hlast, fun sec hsec => (helse sec hsec).2⟩
    exact ⟨onlyLastCutOff_of_finished (hearlier b hb).body,
      fun c hc => ((hearlier b hb).body c hc).all⟩
  · intro tag iterator source body hc
    exact absurd hc ofBranches_ne_loop
  · rw [forall_mem_stages_ofBranches]
    exact ⟨fun b hb => ⟨.elseIf, (hearlier b hb).fits⟩, hfits⟩
  · rw [forall_mem_ownTags_ofBranches]
    refine ⟨fun b hb hreports => absurd (hearlier b hb).quiet.openReports hreports, ?_,
      fun sec hsec hreports => absurd (helse sec hsec).1 hreports⟩
    intro hreports
    refine ⟨_, ?_, rfl, hopen hreports⟩
    rw [stages_ofBranches]
    exact List.mem_append_right _ (List.mem_singleton.mpr rfl)
  · exact cells_ofBranches

end OfBranches

/-- An end tag finishes its level. -/
theorem Level.finished_close (h : TreeProperty.endings.OfLevel ts l)
    (hbody : ∀ c ∈ l.body, c.Finished) (f : Field) : (l.close f).Finished := by
  have hpassed := Level.passed h
  obtain ⟨hclosing, hquiet⟩ := h.tag
  have hbody : ∀ c ∈ l.body.reverse, c.Finished := fun c hc => hbody c (List.mem_reverse.mp hc)
  unfold close
  cases hpurpose : l.purpose with
  | loop iterator source =>
    apply Construct.Finished.of
    · simpa [Construct.ownTags] using hquiet.closing f
    · simpa [Construct.innerBodies] using hbody
    · rintro _ _ _ _ ⟨⟩
      exact l.tag.closing_ne_nil f
    · simp [Construct.stages]
    · simp [Construct.cells]
  | branch earlier condition =>
    simp only [hpurpose, Purpose.branches, List.mem_reverse] at hpassed
    apply Construct.finished_ofBranches hpassed ⟨hquiet.closing f, hbody⟩ (by simp)
    exact ⟨.closed, rfl, l.tag.closing_ne_nil f, (hquiet.closing f).endReports⟩
  | otherwise earlier last =>
    -- The closing field belongs to the condition, and what `m:else` opens is left as it is.
    simp only [hpurpose, Purpose.branches, List.forall_mem_append, List.mem_reverse,
      List.forall_mem_singleton] at hpassed
    obtain ⟨hearlier, hlast⟩ := hpassed
    apply Construct.finished_ofBranches hearlier
    · exact ⟨hlast.quiet.closing f, hlast.body⟩
    · rintro _ ⟨⟩
      exact ⟨hquiet, hbody⟩
    · refine ⟨.otherwise, _, rfl, (hlast.quiet.closing f).endReports, ?_⟩
      simp [last.tag.closing_ne_nil f, hquiet.endReports]

/-- A level that the end of the body cuts off says so. -/
theorem Level.allEndWell_closeAtEnd (h : TreeProperty.endings.OfLevel ts l)
    (hbody : TreeProperty.endings.OfBody ts l.body.reverse) : l.closeAtEnd.AllEndWell := by
  have hpassed := Level.passed h
  have hbody := hbody.onlyLastCutOff
  obtain ⟨hclosing, hquiet⟩ := h.tag
  have hend := hquiet.endReports_report
  unfold closeAtEnd
  cases hpurpose : l.purpose with
  | loop iterator source =>
    apply Construct.AllEndWell.ofCutOff
    · exact Tag.cutOff_iff.mpr ⟨_, List.mem_singleton.mpr rfl, by simp [hend]⟩
    · simpa [Construct.innerBodies] using hbody
    · rintro _ _ _ _ ⟨⟩
      exact ⟨hclosing, hend⟩
    · simp [Construct.stages]
    · intro tag htag hreports
      rw [List.mem_singleton.mp htag] at hreports
      exact absurd hquiet.openReports_report hreports
    · rfl
  | branch earlier condition =>
    -- The two reports are the last ones, in this order.
    simp only [hpurpose, Purpose.branches, List.mem_reverse] at hpassed
    have hfits : Ending.cutOff.Fits
        ⟨⟨(l.tag.report (.unexpected .endOfBody) none).report .conditionalLeftOpen
          (l.tag.report (.unexpected .endOfBody) none).anchor?, condition, l.body.reverse⟩,
          .ofElse none⟩ :=
      ⟨rfl, hclosing, l.tag.problems, _, by simp [Tag.report]; rfl⟩
    apply Construct.allEndWell_ofBranches hpassed _ hbody (by simp) ⟨_, hfits⟩ (fun _ => hfits)
    left
    simp [Tag.endReports, Tag.report]
  | otherwise earlier last =>
    simp only [hpurpose, Purpose.branches, List.forall_mem_append, List.mem_reverse,
      List.forall_mem_singleton] at hpassed
    obtain ⟨hearlier, hlast⟩ := hpassed
    -- What `m:else` opens reports the end of the body; the condition before it stays quiet.
    apply Construct.allEndWell_ofBranches hearlier
    · right
      exact ⟨_, rfl, by simp [hend]⟩
    · exact ⟨Construct.onlyLastCutOff_of_finished hlast.body, fun c hc => (hlast.body c hc).all⟩
    · rintro _ ⟨⟩
      exact ⟨hquiet.openReports_report, hbody⟩
    · refine ⟨.otherwise, _, rfl, hlast.quiet.endReports, ?_⟩
      simp [hlast.closingRuns, hend]
    · intro hreports
      exact absurd hlast.quiet.openReports hreports

theorem Construct.finished_text (runs : List RunId) : (Construct.text { runs := runs }).Finished :=
  finished_leaf ⟨rfl, rfl⟩ rfl rfl rfl rfl (by simp)

theorem Construct.finished_table {id : TableId} {us : List (List Template)}
    (h : ∀ row ∈ us, ∀ u ∈ row, u.EndsWell ∧ ∀ c ∈ u.body, c.AllEndWell) :
    (Construct.table id us).Finished := by
  apply Finished.of
  · simp [ownTags]
  · simp [innerBodies]
  · simp
  · simp [stages]
  · intro u hu
    obtain ⟨row, hrow, hu⟩ := List.mem_flatten.mp hu
    exact h row hrow u hu

/-- **Reading keeps to it that constructs end well.** -/
theorem TreeProperty.endings_kept (s : Setting) : TreeProperty.endings.Kept s where
  openTag_mono _ h := h
  construct_mono _ h := h
  fresh := ⟨rfl, rfl, rfl⟩
  text _ runs := Construct.finished_text runs
  single _ h := single?_finished h
  table _ id h := by
    apply Construct.finished_table
    exact forall_cells_right (h.imp fun row us hrow => hrow.imp fun c u hu => hu.endsWell)
  header _ h := ⟨(header?_describes h).closingRuns, (header?_describes h).quiet⟩
  swallow k f h := ⟨h.1, h.2.swallow k f⟩
  close _ f h hbody := Level.finished_close h hbody f
  closeAtEnd h hbody := Level.allEndWell_closeAtEnd h hbody

end Steps

/-! ## Bodies -/

theorem Template.mem_walk_iff {t : Template} {d : Construct} :
    d ∈ t.walk ↔ ∃ c ∈ t.body, d ∈ c.walk := by
  obtain ⟨tag, body⟩ := t
  rw [walk, Construct.walkSection, Construct.walkBody_eq_flatMap, List.mem_flatMap]

namespace Body

/-- **Everything in a template ends well.** Its own tag says nothing about the end of the body, and
neither does the tag of a cell. Every repetition has a closing field or reports the end of the body
once; every condition ends in exactly one of four ways, and only one that is cut off reports that
the conditional is left open. What is cut off is the last construct of its body, and so is each
construct around it, which is cut off as well. -/
theorem parse_endings (s : Setting) (b : Body) {t : Template} (h : (b.parse s).result = .ok t) :
    t.EndsWell ∧ ∀ c ∈ t.walk, c.EndsWell := by
  rw [b.result_parse s] at h
  obtain ⟨hroot, hbody⟩ := ((TreeProperty.endings_kept s).ofTokens h).endsWell
  refine ⟨hroot, ?_⟩
  intro d hd
  obtain ⟨c, hc, hd⟩ := Template.mem_walk_iff.mp hd
  exact hbody c hc d hd

/-- A conditional that is closed, and a repetition around one that is cut off behind `m:else`, with
a condition that is cut off in a cell. -/
def cutOffBehindElse : Body :=
  Draft.build
    [.paragraph [.field ["m:if a"], .field ["m:endif"], .field ["m:for x | xs"], .field ["m:if b"],
      .field ["m:elseif c"], .field ["m:else"]],
      .table [[[.paragraph [.field ["m:if d"]]]]]]

/-- The end of the body is reported by the repetition, by what `m:else` opens and in the cell. -/
theorem parse_endings_cutOffBehindElse :
    ∃ t, (cutOffBehindElse.parse { compile := .fixed [] }).result = .ok t ∧
      t.walk.map (fun c => c.ownTags.map Tag.endReports) = [[0], [1], [0, 0, 1], [], [1]] ∧
      t.EndsWell ∧ ∀ c ∈ t.walk, c.EndsWell := by
  have hok : (cutOffBehindElse.parse { compile := .fixed [] }).result.toOption.map
      (fun t => t.walk.map (fun c => c.ownTags.map Tag.endReports)) =
        some [[0], [1], [0, 0, 1], [], [1]] := by decide +kernel
  obtain ⟨t, ht, hreports⟩ := exists_of_toOption_map hok
  exact ⟨t, ht, hreports, parse_endings { compile := .fixed [] } cutOffBehindElse ht⟩

end Body

end DocTemplate
