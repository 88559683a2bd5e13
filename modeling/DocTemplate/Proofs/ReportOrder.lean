import DocTemplate.Proofs.DenseNumbering
import DocTemplate.Proofs.HeaderAnchors
import DocTemplate.Proofs.OrderedParts
import DocTemplate.Proofs.RunConservation

/-!
# The order of reports

A template reports its problems in pre-order, a node before what it holds. In a numbered body the
runs follow this order as far as they can. While the body is read, all that is open stands in a row,
each level behind its finished branches: what is reported in one of them shows before what is
reported in the next. A construct that is finished leaves the end of this row and becomes the last
part of what is the end then. So every node of the template stands in order at last; only stray tags
are reported earlier than the place where they show.

## Main statements

- `Progress.InOrder`: what holds of every state of a reading
- `TagStep.inOrder`, `Reads.inOrder`, `Runs.inOrder`: reading keeps to it
- `Body.parse_reportOrder`: how the problems of a numbered body are ordered
-/

namespace DocTemplate

open Contents

/-! ## Branches -/

/-- What a conditional holds: the body of its first condition, the other conditions, and what
`m:else` offers. -/
theorem Part.contents_conditional (first : Branch Construct) (links : List (Branch Construct))
    (otherwise : Option (Section Construct)) :
    (Part.construct (.conditional first links otherwise)).contents =
      ⟨(Part.link first).contents.own, (Part.link first).contents.parts ++
        (links.map .link ++ otherwise.toList.map .otherwise)⟩ := by
  rw [← List.append_assoc]
  rfl

theorem Contents.gathers_ofBranches (last : Branch Construct) (earlier : List (Branch Construct))
    (otherwise : Option (Section Construct)) :
    Gathers (.construct (.ofBranches last earlier otherwise))
      (earlier.reverse.map (fun b => (Part.link b).contents) ++
        (Part.link last).contents ::
          otherwise.toList.map fun sec => (Part.otherwise sec).contents) := by
  unfold Construct.ofBranches
  cases earlier.reverse with
  | nil =>
    refine ⟨_, _, ?_, Part.contents_conditional last [] otherwise⟩
    simp [Function.comp_def]
  | cons first links =>
    -- The tag and the body of the first condition are those of the conditional itself.
    refine ⟨_, _, ?_, Part.contents_conditional first (links ++ [last]) otherwise⟩
    simp [Function.comp_def]

/-- A part gathers its own contents. -/
theorem Contents.gathers_self (x : Part) : Gathers x [x.contents] :=
  ⟨x.contents, [], rfl, by rw [List.append_nil]⟩

/-! ## Levels -/

namespace Level

/-- What is reported at a level and what it holds. It counts as reported that the level is left
open, for the end of the body may still add this, behind all that is met in between. -/
def contents (l : Level) : Contents :=
  ⟨⟨.conditionalLeftOpen, l.header.anchor?⟩ :: l.tag.problems, l.body.reverse.map .construct⟩

/-- What is reported at the branches that are finished, and what these hold. -/
def finished (l : Level) : List Contents := l.purpose.branches.map fun b => (Part.link b).contents

/-- The level has its tag from a field. -/
def OfField (l : Level) : Prop := ∃ f : Field, l.header.runs = f.runs

variable {l : Level} {ps : List Problem}

/-- Problems that the end of the level may leave in the place of those in its `contents`. -/
structure MayReport (l : Level) (ps : List Problem) : Prop where
  strays : ps.filterMap Problem.strayRun? = l.tag.problems.filterMap Problem.strayRun?
  runs : ∀ p ∈ ps, p.run ≠ none → p ∈ l.contents.own

theorem mayReport_problems (l : Level) : l.MayReport l.tag.problems where
  strays := rfl
  runs _ hp _ := List.mem_cons_of_mem _ hp

theorem MayReport.concat (h : l.MayReport ps) {p : Problem} (hstray : p.strayRun? = none)
    (hrun : p.run ≠ none → p ∈ l.contents.own) : l.MayReport (ps ++ [p]) where
  strays := by simp [h.strays, hstray]
  runs := by
    rw [List.forall_mem_append, List.forall_mem_singleton]
    exact ⟨h.runs, hrun⟩

/-- The end tag of a level leaves a construct of its branches and of what was read last. -/
theorem gathers_close (l : Level) (f : Field) :
    Gathers (.construct (l.close f))
      (l.finished ++ [⟨l.tag.problems, l.body.reverse.map .construct⟩]) := by
  unfold close finished
  cases l.purpose with
  | loop iterator source => exact gathers_self _
  | branch earlier condition => exact gathers_ofBranches _ earlier none
  | otherwise earlier last =>
    -- The closing field is recorded at the last condition, which reports nothing new.
    rw [Purpose.branches, List.map_append, List.append_assoc]
    exact gathers_ofBranches { last with tag := last.tag.absorb .closing f } earlier (some _)

/-- So does the end of the body, which is reported last, and behind it that a condition is left
open. -/
theorem gathers_closeAtEnd (hheader : l.OfField) :
    ∃ ps, l.MayReport ps ∧
      Gathers (.construct l.closeAtEnd) (l.finished ++ [⟨ps, l.body.reverse.map .construct⟩]) := by
  -- Strays are recorded behind the opening field, so that they do not move the anchor.
  have hanchor : l.tag.anchor? = l.header.anchor? := by
    obtain ⟨f, hf⟩ := hheader
    have hprefix : f.runs <+: l.tag.runs := hf ▸ List.prefix_append _ _
    have hrefl : f.runs <+: l.header.runs := hf ▸ List.prefix_refl _
    rw [Tag.anchor?_of_prefix hprefix, Tag.anchor?_of_prefix hrefl]
  have hend : l.MayReport (l.tag.report (.unexpected .endOfBody) none).problems := by
    apply l.mayReport_problems.concat rfl
    simp
  unfold closeAtEnd finished
  cases l.purpose with
  | loop iterator source => exact ⟨_, hend, gathers_self _⟩
  | branch earlier condition =>
    refine ⟨_, ?_, gathers_ofBranches _ earlier none⟩
    apply hend.concat rfl
    intro _
    rw [Tag.anchor?_report, hanchor]
    exact List.mem_cons_self
  | otherwise earlier last =>
    refine ⟨_, hend, ?_⟩
    rw [Purpose.branches, List.map_append, List.append_assoc]
    exact gathers_ofBranches last earlier (some _)

/-- The problems that a level is left with take the place of its `contents`. -/
theorem MayReport.row (h : l.MayReport ps) {seen : List RunId} {outer : List Contents}
    (hrow : Row seen (outer ++ [l.contents])) :
    Row seen (outer ++ [⟨ps, l.body.reverse.map .construct⟩]) := by
  have hl := List.forall_mem_singleton.mp hrow.right.each
  have hstrays : (ps.filterMap Problem.strayRun?).Sublist
      (l.contents.own.filterMap Problem.strayRun?) := by
    rw [h.strays]
    exact List.Sublist.refl _
  obtain ⟨horder, hanchors⟩ := hl.withOwn hstrays h.runs
  apply hrow.folded horder
  intro r hr
  exact ⟨_, List.mem_singleton_self _, hanchors r hr⟩

/-- Nothing has been read behind the field that has opened the level. -/
structure Begun (l : Level) (f : Field) : Prop where
  describes : l.header.Describes f
  shows : l.header.ShowsAt f f.anchor
  swallowed : l.swallowed = []
  body : l.body = []

/-- All that is reported at such a level shows at the anchor of its field. -/
theorem Begun.row {f : Field} (h : l.Begun f) : Row f.runs [l.contents] := by
  have hcontents :
      l.contents = ⟨⟨.conditionalLeftOpen, l.header.anchor?⟩ :: l.header.problems, []⟩ := by
    rw [contents, tag, h.swallowed, h.body, List.reverse_nil, Tag.swallowAll_nil]
    rfl
  have hrun : ∀ p ∈ l.contents.own, p.run = some f.anchor := by
    rw [hcontents, List.forall_mem_cons]
    exact ⟨h.shows.anchor?, h.shows.problems⟩
  rw [hcontents] at hrun ⊢
  apply Row.leaf _ hrun f.anchor_mem_runs
  rw [List.forall_mem_cons]
  exact ⟨rfl, fun p hp => p.strayRun?_of_not_structural (h.describes.problems p hp)⟩

end Level

/-! ## States -/

namespace Progress

/-- The contents of all that is open, from the outside in, and before those of a level what is
finished of it. -/
def row (p : Progress) : List Contents :=
  (Part.template p.block.toSection).contents ::
    p.levels.reverse.flatMap fun l => l.finished ++ [l.contents]

variable {p : Progress} {seen : List RunId}

theorem row_of_levels {l : Level} {ls : List Level} (hlevels : p.levels = l :: ls) :
    p.row = { p with levels := ls }.row ++ l.finished ++ [l.contents] := by
  simp [row, hlevels]

/-- The innermost body stands at the end of the row, and takes what is read. -/
theorem exists_innermost (p : Progress) :
    ∃ outer own parts, p.row = outer ++ [⟨own, parts⟩] ∧
      (∀ c, (p.push c).row = outer ++ [⟨own, parts ++ [.construct c]⟩]) ∧
      ∀ k f, (p.swallow k f).row = outer ++ [⟨own ++ [Problem.ofStray (k, f)], parts⟩] := by
  cases hlevels : p.levels with
  | nil =>
    refine ⟨[], p.block.tag.problems, p.block.body.reverse.map .construct, ?_, ?_, ?_⟩
    · rw [row, hlevels]
      rfl
    · intro c
      simp [push, row, hlevels, Part.contents, Part.ownProblems, Part.tag?, Part.parts,
        Block.toSection, Block.tag]
    · intro k f
      simp [swallow, row, hlevels, Part.contents, Part.ownProblems, Part.tag?, Part.parts,
        Block.toSection, Block.tag, Tag.swallowAll, Problem.ofStray]
  | cons l ls =>
    refine ⟨{ p with levels := ls }.row ++ l.finished, l.contents.own, l.contents.parts, ?_, ?_, ?_⟩
    · exact row_of_levels hlevels
    · intro c
      rw [push, hlevels]
      simp [row, Level.finished, Level.contents, Level.tag]
    · intro k f
      rw [swallow, hlevels]
      simp [row, Level.finished, Level.contents, Level.tag, Tag.swallowAll, Problem.ofStray]

/-- What is reported so far shows at the runs `seen`, and all that is open stands in a row. -/
structure InOrder (seen : List RunId) (p : Progress) : Prop where
  row : Row seen p.row
  headers : ∀ l ∈ p.levels, l.OfField

namespace InOrder

variable {new : List RunId} {l n : Level} {ls : List Level} {f : Field}

theorem mono (h : p.InOrder seen) (hseen : ∀ r ∈ seen, r ∈ new) : p.InOrder new :=
  ⟨h.row.mono hseen, h.headers⟩

/-- The construct of all that stands behind the row becomes the last part of the innermost body. -/
theorem push {cs : List Contents} (hrow : Row seen (p.row ++ cs))
    (hheaders : ∀ l ∈ p.levels, l.OfField) {c : Construct}
    (hc : Gathers (.construct c) cs) : (p.push c).InOrder seen where
  row := by
    obtain ⟨outer, own, parts, hinnermost, hpush, -⟩ := p.exists_innermost
    rw [hinnermost] at hrow
    obtain ⟨horder, hanchors⟩ := hrow.right.gathered hc
    rw [List.append_assoc] at hrow
    rw [hpush]
    exact hrow.attach horder fun r hr => (hanchors r).mp hr
  headers := by
    unfold Progress.push
    cases hlevels : p.levels with
    | nil => simp
    | cons l ls => exact forall_levels_replace hlevels hheaders (hheaders l (by simp [hlevels]))

/-- A stretch of plain runs is a construct with nothing to report. -/
theorem settle (h : p.InOrder seen) : p.settle.InOrder seen := by
  unfold Progress.settle
  split
  · exact h
  · have hnothing : Row [] [⟨[], []⟩] := .nothing
    have hrow := h.row.append hnothing (by simp)
    rw [List.append_nil] at hrow
    have htext := gathers_self (.construct (.text { runs := p.stretch.reverse }))
    have hpush := push hrow h.headers htext
    exact ⟨hpush.row, hpush.headers⟩

theorem swallow (h : p.InOrder seen) (k : Keyword)
    (hlater : ∀ r ∈ seen, ∀ r' ∈ f.runs, r < r') :
    (p.swallow k f).InOrder (seen ++ f.runs) where
  row := by
    obtain ⟨outer, own, parts, hinnermost, -, hswallow⟩ := p.exists_innermost
    rw [hswallow]
    exact (hinnermost ▸ h.row).concatStray (s := (k, f)) hlater
  headers := by
    unfold Progress.swallow
    cases hlevels : p.levels with
    | nil => simp
    | cons l ls => exact forall_levels_replace hlevels h.headers (h.headers l (by simp [hlevels]))

/-- A level that has just been opened comes behind all that is open already. -/
theorem opens (h : p.InOrder seen) (hn : n.Begun f) (hfinished : n.finished = [])
    (hlater : ∀ r ∈ seen, ∀ r' ∈ f.runs, r < r') :
    { p with levels := n :: p.levels }.InOrder (seen ++ f.runs) where
  row := by
    rw [row_of_levels rfl, hfinished, List.append_nil]
    exact h.row.append hn.row hlater
  headers := List.forall_mem_cons.mpr ⟨⟨f, hn.shows.runs⟩, h.headers⟩

/-- What is left of a level when nothing more is read into it. -/
theorem settled_level (h : p.InOrder seen) (hlevels : p.levels = l :: ls) {ps : List Problem}
    (hps : l.MayReport ps) :
    Row seen ({ p with levels := ls }.row ++
      (l.finished ++ [⟨ps, l.body.reverse.map .construct⟩])) := by
  rw [← List.append_assoc]
  apply hps.row
  rw [← row_of_levels hlevels]
  exact h.row

/-- The next branch of a conditional comes behind the one before, which is finished then. -/
theorem next (h : p.InOrder seen) (hlevels : p.levels = l :: ls) (hn : n.Begun f)
    (hfinished : n.finished = l.finished ++ [⟨l.tag.problems, l.body.reverse.map .construct⟩])
    (hlater : ∀ r ∈ seen, ∀ r' ∈ f.runs, r < r') :
    { p with levels := n :: ls }.InOrder (seen ++ f.runs) where
  row := by
    rw [row_of_levels rfl, hfinished]
    exact (h.settled_level hlevels l.mayReport_problems).append hn.row hlater
  headers := forall_levels_replace hlevels h.headers ⟨f, hn.shows.runs⟩

end InOrder

end Progress

/-! ## Reading -/

/-- The template stands in order and reports only at runs of the tokens, if these follow one
another. -/
def Template.OrderedFrom (ts : List Token) (t : Template) : Prop :=
  (Token.runsOf ts).Pairwise (· < ·) → Row (Token.runsOf ts) [(Part.template t).contents]

namespace Level.Begun

theorem ofLoop (s : Setting) (depth : Nat) (f : Field) : (Level.ofLoop s depth f).Begun f :=
  ⟨readLoop_describes s f, readLoop_showsAt s f, rfl, rfl⟩

theorem ofCondition (s : Setting) (depth : Nat) (earlier : List (Branch Construct)) (f : Field) :
    (Level.ofCondition s depth earlier f).Begun f :=
  ⟨readCondition_describes s f, readCondition_showsAt s f, rfl, rfl⟩

theorem ofOtherwise (depth : Nat) (earlier : List (Branch Construct)) (last : Branch Construct)
    (f : Field) : (Level.ofOtherwise depth earlier last f).Begun f :=
  ⟨.ofField f, .ofField f f.anchor, rfl, rfl⟩

end Level.Begun

section Steps

variable {s : Setting} {p q : Progress} {seen : List RunId}

/-- What is wrong with a tag that is understood by itself shows in its field. -/
theorem single?_row {f : Field} {k : Keyword} {c : Construct} (h : single? s f k = some c) :
    Row f.runs [(Part.construct c).contents] := by
  obtain ⟨tag, r, hr, htag, hshows, hc⟩ := single?_showsAt h
  have hlocal : ∀ p ∈ tag.problems, p.strayRun? = none :=
    fun p hp => p.strayRun?_of_not_structural (htag.problems p hp)
  have hrow : Row f.runs [⟨tag.problems, []⟩] := .leaf hlocal hshows.problems hr
  rcases hc with ⟨-, _, _, rfl⟩ | ⟨-, _, rfl⟩ | ⟨-, _, _, _, rfl⟩
  · exact hrow
  · exact hrow
  · exact hrow

/-- **Every tag keeps the order.** -/
theorem TagStep.inOrder {k : Keyword} {f : Field} (h : TagStep s p k f q) (hp : p.InOrder seen)
    (hlater : ∀ r ∈ seen, ∀ r' ∈ f.runs, r < r') : q.InOrder (seen ++ f.runs) := by
  cases h with
  | single hc =>
    exact .push (hp.row.append (single?_row hc) hlater) hp.headers (gathers_self _)
  | opens hl hlimit =>
    unfold opened? at hl
    split at hl <;> cases hl
    · exact hp.opens (.ofLoop s _ f) rfl hlater
    · exact hp.opens (.ofCondition s _ [] f) rfl hlater
  | @closes _ _ l ls hlevels hends =>
    -- What the row held of the level becomes one construct; the end tag itself has no problems.
    have hrow := hp.settled_level hlevels l.mayReport_problems
    have hheaders := (List.forall_mem_cons.mp (hlevels ▸ hp.headers)).2
    have hpush : ({ p with levels := ls }.push (l.close f)).InOrder seen :=
      .push hrow hheaders (l.gathers_close f)
    exact hpush.mono fun r hr => List.mem_append_left _ hr
  | @elseIf _ l ls earlier condition hlevels hpurpose hlimit =>
    apply hp.next hlevels (.ofCondition s _ _ f) _ hlater
    rw [Level.finished, Level.finished, hpurpose]
    simp only [Level.ofCondition, Purpose.branches, List.reverse_cons, List.map_append]
    rfl
  | @otherwise _ l ls earlier condition hlevels hpurpose =>
    apply hp.next hlevels (.ofOtherwise _ _ _ f) _ hlater
    rw [Level.finished, Level.finished, hpurpose]
    simp only [Level.ofOtherwise, Purpose.branches, List.map_append]
    rfl
  | strays hterminator hnone => exact hp.swallow k hlater

/-- The cells of a table stand in a row. -/
theorem Contents.row_cells {cells : List (List Token)} {ts : List Template}
    (h : List.Forall₂ Template.OrderedFrom cells ts)
    (hsorted : (cells.flatMap Token.runsOf).Pairwise (· < ·)) :
    Row (cells.flatMap Token.runsOf) (ts.map fun t => (Part.cell t).contents) := by
  induction h with
  | nil => exact ⟨by simp, .nil, by simp⟩
  | cons hcell hrest ih =>
    rw [List.flatMap_cons] at hsorted ⊢
    obtain ⟨hfirst, hmore, hlater⟩ := List.pairwise_append.mp hsorted
    exact (hcell hfirst).append (ih hmore) hlater

theorem Reads.inOrder {t : Token} (h : Reads s t p q) (hp : p.InOrder seen)
    (hsorted : (seen ++ Token.runsOf [t]).Pairwise (· < ·))
    (hcells : ∀ id rows, t = .table id rows → ∀ row ∈ rows, ∀ c ∈ row, ∀ depth u,
      Template.ofTokens s depth c = .ok u → Template.OrderedFrom c u) :
    q.InOrder (seen ++ Token.runsOf [t]) := by
  obtain ⟨-, hnew, hlater⟩ := List.pairwise_append.mp hsorted
  cases h with
  | text r p =>
    have hmono := hp.mono fun r' hr' => List.mem_append_left [r] hr'
    exact ⟨hmono.row, hmono.headers⟩
  | @tag k f p q hstep =>
    have hruns : Token.runsOf [.tag k f] = f.runs := List.append_nil _
    rw [hruns] at hlater ⊢
    exact hstep.inOrder hp.settle hlater
  | @table id rows p us hread =>
    have hruns : Token.runsOf [.table id rows] = rows.flatten.flatMap Token.runsOf := by
      rw [Token.runsOf_table, Token.runsOf_nil, List.append_nil, ← List.flatMap_id,
        List.flatMap_assoc]
      rfl
    rw [hruns] at hnew hlater ⊢
    have hordered := forall₂_cells_imp (cellTemplates_eq_ok_iff.mp hread)
      fun row hrow c hc u hu => hcells id rows rfl row hrow c hc p.depth u hu
    have hrow := row_cells (List.rel_flatten hordered) hnew
    -- A table has no tag, so that it holds its cells and reports nothing.
    have hgathers : Gathers (.construct (.table id us))
        (⟨[], []⟩ :: us.flatten.map fun u => (Part.cell u).contents) :=
      ⟨⟨[], []⟩, us.flatten.map .cell, by rw [List.map_map]; rfl, rfl⟩
    have hnothing : Row [] [⟨[], []⟩] := .nothing
    have htable := hnothing.append hrow (by simp)
    have hpush := Progress.InOrder.push (hp.settle.row.append htable hlater) hp.settle.headers
      hgathers
    exact ⟨hpush.row, hpush.headers⟩

/-- **Reading keeps the order,** as long as the runs of the tokens follow one another. -/
theorem Runs.inOrder {ts : List Token} (h : Runs s ts p q) (hp : p.InOrder seen)
    (hsorted : (seen ++ Token.runsOf ts).Pairwise (· < ·))
    (hcells : ∀ id rows, Token.table id rows ∈ ts → ∀ row ∈ rows, ∀ c ∈ row, ∀ depth u,
      Template.ofTokens s depth c = .ok u → Template.OrderedFrom c u) :
    q.InOrder (seen ++ Token.runsOf ts) := by
  induction h generalizing seen with
  | nil p => rwa [Token.runsOf_nil, List.append_nil]
  | @cons t ts p q r hstep hrest ih =>
    rw [Token.runsOf_cons, ← List.append_assoc] at hsorted ⊢
    apply ih _ hsorted
    · intro id rows hmem
      exact hcells id rows (List.mem_cons_of_mem _ hmem)
    · apply hstep.inOrder hp (List.pairwise_append.mp hsorted).1
      intro id rows ht
      exact hcells id rows (ht ▸ List.mem_cons_self)

/-! ## The end of the body -/

namespace Progress

/-- What is handed out to the next body might as well have been added to it. -/
theorem closeLevels_push (p : Progress) (c : Construct) :
    closeLevels p.block (some c) p.levels =
      closeLevels (p.push c).block none (p.push c).levels := by
  unfold push
  cases p.levels <;> rfl

/-- Closing what is open, from the inside out, leaves the template alone in the row. -/
theorem InOrder.closeLevels (h : p.InOrder seen) :
    Row seen [(Part.template (closeLevels p.block none p.levels).toSection).contents] := by
  -- Induction on the frames, since the levels change: the next one takes in the construct of the
  -- one before, but keeps its frame.
  induction hframes : p.frames generalizing p with
  | nil =>
    have hlevels : p.levels = [] := List.map_eq_nil_iff.mp hframes
    have hrow := h.row
    rw [Progress.row, hlevels] at hrow
    rw [hlevels]
    exact hrow
  | cons frame frames ih =>
    obtain ⟨l, ls, hlevels, -, hrest⟩ := List.map_eq_cons_iff.mp hframes
    obtain ⟨hheader, hheaders⟩ := List.forall_mem_cons.mp (hlevels ▸ h.headers)
    obtain ⟨ps, hps, hgathers⟩ := l.gathers_closeAtEnd hheader
    have hpush : ({ p with levels := ls }.push l.closeAtEnd).InOrder seen :=
      .push (h.settled_level hlevels hps) hheaders hgathers
    have hclose : Progress.closeLevels p.block none p.levels =
        Progress.closeLevels { p with levels := ls }.block (some l.closeAtEnd) ls := by
      rw [hlevels]
      rfl
    rw [hclose, closeLevels_push { p with levels := ls }]
    apply ih hpush
    rw [frames_push]
    exact hrest

end Progress

/-- **Every template stands in order** if the runs that it is read from follow one another. -/
theorem Template.orderedFrom {depth : Nat} {ts : List Token} {t : Template}
    (h : Template.ofTokens s depth ts = .ok t) : Template.OrderedFrom ts t := by
  refine Template.ofTokens_induction h ?_
  intro depth ts q hruns hcells hsorted
  have hfresh : (Progress.fresh depth).InOrder [] :=
    ⟨Row.nothing, by simp [Progress.fresh, Progress.start]⟩
  have hq := hruns.inOrder hfresh hsorted hcells
  rw [Progress.block_finish hruns.stops]
  exact hq.settle.closeLevels

end Steps

/-! ## Numbered bodies -/

namespace Body

theorem pairwise_runs_numbered (b : Body) : (b.numbered.runs.map Run.id).Pairwise (· < ·) := by
  have hcounts := b.spans_number.runs
  rw [CountsFrom] at hcounts
  rw [hcounts]
  exact List.pairwise_lt_range'

/-- **Problems are reported parents before children.** The problems of a template are those of its
parts, in pre-order. In each part the stray tags that it has swallowed are reported in document
order, no other problem of the part shows behind anything that is reported in it, and what is
reported in one of the things that it holds shows before what is reported in the next. So only the
report of a stray tag can stand before that of an earlier run, and without these reports the runs
never go back. -/
theorem parse_reportOrder (s : Setting) (b : Body) {t : Template}
    (h : (b.numbered.parse s).result = .ok t) :
    Part.hierarchy.InPreorder (.template t) t.parts ∧
      t.problems = t.parts.flatMap Part.ownProblems ∧
      (∀ x ∈ t.parts, x.contents.InOrder) ∧
      t.problems.Pairwise Problem.NotBehind ∧
      ((t.problems.filter (fun p => !p.isStrayReport)).filterMap Problem.run).Pairwise (· ≤ ·) := by
  rw [b.numbered.result_parse s] at h
  have hsorted := b.pairwise_runs_numbered
  rw [← runsOf_linearTokens] at hsorted
  have hrow := Template.orderedFrom h hsorted
  have horder : (Part.template t).AllInOrder :=
    Part.allInOrder_iff.mpr (List.forall_mem_singleton.mp hrow.each)
  have hpairwise := horder.pairwise_problems
  exact ⟨t.inPreorder_parts, t.problems_eq_flatMap, horder, hpairwise,
    Problem.sorted_runs hpairwise⟩

/-- A repetition without a source, an image without a file in it, and a stray tag behind it. -/
def strayBehindLoop : Body :=
  Draft.build
    [.paragraph [.field ["m:for x"], .field ["m:image"], .field ["m:endfor"], .field ["m:endif"]]]

/-- The stray tag is reported by the template, which comes first. -/
theorem parse_reportOrder_strayBehindLoop :
    ∃ t, (strayBehindLoop.numbered.parse { compile := .fixed [] }).result = .ok t ∧
      t.problems.map (fun p => (p.isStrayReport, p.run)) =
        [(true, some 9), (false, some 1), (false, some 4)] ∧
      (∀ x ∈ t.parts, x.contents.InOrder) ∧ t.problems.Pairwise Problem.NotBehind := by
  have hok : (strayBehindLoop.numbered.parse { compile := .fixed [] }).result.toOption.map
      (fun t => t.problems.map (fun p => (p.isStrayReport, p.run))) =
      some [(true, some 9), (false, some 1), (false, some 4)] := by decide +kernel
  obtain ⟨t, ht, hproblems⟩ := exists_of_toOption_map hok
  obtain ⟨-, -, horder, hpairwise, -⟩ := parse_reportOrder _ strayBehindLoop ht
  exact ⟨t, ht, hproblems, horder, hpairwise⟩

/-- The runs of all problems together may go back. -/
theorem not_forall_parse_sorted_runs :
    ¬ ∀ (s : Setting) (b : Body) (t : Template), (b.numbered.parse s).result = .ok t →
      (t.problems.filterMap Problem.run).Pairwise (· ≤ ·) := by
  intro hall
  have hok : (strayBehindLoop.numbered.parse { compile := .fixed [] }).result.toOption.map
      (fun t => t.problems.filterMap Problem.run) = some [9, 1, 4] := by decide +kernel
  obtain ⟨t, ht, hruns⟩ := exists_of_toOption_map hok
  have hsorted := hall _ strayBehindLoop t ht
  rw [hruns] at hsorted
  exact absurd hsorted (by decide)

end Body

end DocTemplate
