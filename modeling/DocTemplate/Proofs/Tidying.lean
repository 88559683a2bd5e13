import DocTemplate.Proofs.Strays

/-!
# Templates without the traces of stray tags

Tidying takes out of a template what stray tags have left in it: the problems that report them and
the runs of their fields. Texts that only a stray tag kept apart become one. The same is done to the
states of a reading, and closing a level commutes with it.

## Main statements

- `Template.tidy`: a template without the traces of stray tags
- `Level.close_tidy`, `Level.closeAtEnd_tidy`: closing commutes with tidying
-/

namespace DocTemplate

/-! ## Tags and texts -/

/-- The tag without the problems that report stray tags and without the runs that are gone. -/
def Tag.tidy (gone : RunId → Bool) (t : Tag) : Tag :=
  { t with
    runs := t.runs.filter (fun r => !gone r)
    closingRuns := t.closingRuns.filter (fun r => !gone r)
    problems := t.problems.filter (fun p => p.strayRun?.isNone) }

/-- One tag for two texts that stand side by side. -/
def Tag.join (t u : Tag) : Tag where
  runs := t.runs ++ u.runs
  closingRuns := t.closingRuns ++ u.closingRuns
  styleRun := t.styleRun <|> u.styleRun
  problems := t.problems ++ u.problems

namespace Construct

/-- Add a construct to others, given last first; a text joins a text before it. -/
def attach (done : List Construct) (c : Construct) : List Construct :=
  match c, done with
  | .text u, .text t :: done => .text (t.join u) :: done
  | c, done => c :: done

/-- The constructs with texts that stand side by side made one. -/
def joinTexts (cs : List Construct) : List Construct := (cs.foldl attach []).reverse

/-! ## Templates -/

mutual

/-- The construct without the traces of stray tags. -/
def tidy (gone : RunId → Bool) : Construct → Construct
  | .text tag => .text (tag.tidy gone)
  | .query tag expression display => .query (tag.tidy gone) expression display
  | .image tag options => .image (tag.tidy gone) options
  | .diagram tag options provider extras => .diagram (tag.tidy gone) options provider extras
  | .loop tag iterator source body =>
    .loop (tag.tidy gone) iterator source (joinTexts (tidyEach gone body))
  | .conditional first links otherwise =>
    .conditional (tidyBranch gone first) (tidyBranches gone links) (tidyElse gone otherwise)
  | .table id rows => .table id (tidyRows gone rows)

/-- The same for each construct of a list. -/
def tidyEach (gone : RunId → Bool) : List Construct → List Construct
  | [] => []
  | c :: cs => tidy gone c :: tidyEach gone cs

/-- The same for a branch. -/
def tidyBranch (gone : RunId → Bool) : Branch Construct → Branch Construct
  | ⟨tag, condition, body⟩ => ⟨tag.tidy gone, condition, joinTexts (tidyEach gone body)⟩

/-- The same for several branches. -/
def tidyBranches (gone : RunId → Bool) : List (Branch Construct) → List (Branch Construct)
  | [] => []
  | b :: bs => tidyBranch gone b :: tidyBranches gone bs

/-- The same for what follows `m:else`. -/
def tidyElse (gone : RunId → Bool) : Option (Section Construct) → Option (Section Construct)
  | none => none
  | some ⟨tag, body⟩ => some ⟨tag.tidy gone, joinTexts (tidyEach gone body)⟩

/-- The same for the rows of a table. -/
def tidyRows (gone : RunId → Bool) :
    List (List (Section Construct)) → List (List (Section Construct))
  | [] => []
  | r :: rs => tidyCells gone r :: tidyRows gone rs

/-- The same for the cells of a row. -/
def tidyCells (gone : RunId → Bool) : List (Section Construct) → List (Section Construct)
  | [] => []
  | c :: cs => tidyTemplate gone c :: tidyCells gone cs

/-- The same for a whole template or a cell, whose style run only a stray tag can have given. -/
def tidyTemplate (gone : RunId → Bool) : Section Construct → Section Construct
  | ⟨tag, body⟩ => ⟨{ tag.tidy gone with styleRun := none }, joinTexts (tidyEach gone body)⟩

end

end Construct

/-- The template without the problems that report stray tags and the runs that are gone; texts that
become neighbours are joined, and no style run is left at the tags of the template and its cells. -/
def Template.tidy (gone : RunId → Bool) (t : Template) : Template := Construct.tidyTemplate gone t

namespace Construct

variable (gone : RunId → Bool)

theorem tidyEach_eq_map (cs : List Construct) : tidyEach gone cs = cs.map (tidy gone) := by
  induction cs with
  | nil => rfl
  | cons c cs ih => rw [tidyEach, ih, List.map_cons]

theorem tidyBranches_eq_map (bs : List (Branch Construct)) :
    tidyBranches gone bs = bs.map (tidyBranch gone) := by
  induction bs with
  | nil => rfl
  | cons b bs ih => rw [tidyBranches, ih, List.map_cons]

theorem tidyCells_eq_map (cells : List (Section Construct)) :
    tidyCells gone cells = cells.map (Template.tidy gone) := by
  induction cells with
  | nil => rfl
  | cons c cs ih => rw [tidyCells, ih, List.map_cons, Template.tidy]

theorem tidyRows_eq_map (rows : List (List (Section Construct))) :
    tidyRows gone rows = rows.map (fun r => r.map (Template.tidy gone)) := by
  induction rows with
  | nil => rfl
  | cons r rs ih => rw [tidyRows, ih, List.map_cons, tidyCells_eq_map]

/-! ## Bodies that are given last first -/

/-- Tidied constructs, those given last first and the result as well. -/
def tidyLast : List Construct → List Construct
  | [] => []
  | c :: cs => attach (tidyLast cs) (c.tidy gone)

theorem joinTexts_reverse (cs : List Construct) :
    joinTexts (tidyEach gone cs.reverse) = (tidyLast gone cs).reverse := by
  have hfold : ∀ cs : List Construct, cs.reverse.foldl (fun done c => attach done (c.tidy gone)) [] =
      tidyLast gone cs := by
    intro cs
    rw [List.foldl_reverse]
    induction cs with
    | nil => rfl
    | cons c cs ih => rw [List.foldr_cons, ih, tidyLast]
  rw [joinTexts, tidyEach_eq_map, List.foldl_map, hfold]

/-- The construct is a text. -/
def isText : Construct → Bool
  | .text _ => true
  | _ => false

theorem isText_tidy (c : Construct) : (c.tidy gone).isText = c.isText := by
  cases c <;> simp [tidy, isText]

theorem attach_of_not_isText (done : List Construct) {c : Construct} (h : c.isText = false) :
    attach done c = c :: done := by
  cases c <;> first | rfl | cases h

/-- Where no text stands before, nothing is joined. -/
theorem attach_of_head {done : List Construct} (c : Construct)
    (h : ∀ d ∈ done.head?, d.isText = false) : attach done c = c :: done := by
  cases done with
  | nil => cases c <;> rfl
  | cons d done =>
    have hd := h d rfl
    cases c <;> cases d <;> first | rfl | cases hd

theorem attach_text_text (done : List Construct) (xs ys : List RunId) :
    attach (attach done (.text { runs := xs })) (.text { runs := ys }) =
      attach done (.text { runs := xs ++ ys }) := by
  cases done with
  | nil => rfl
  | cons d done => cases d <;> simp [attach, Tag.join]

/-- What follows `m:else` or ends a level never is a text. -/
theorem isText_ofBranches (last : Branch Construct) (earlier : List (Branch Construct))
    (otherwise : Option (Section Construct)) :
    (Construct.ofBranches last earlier otherwise).isText = false := by
  unfold Construct.ofBranches
  split <;> rfl

theorem tidy_ofBranches (last : Branch Construct) (earlier : List (Branch Construct))
    (otherwise : Option (Section Construct)) :
    (Construct.ofBranches last earlier otherwise).tidy gone =
      Construct.ofBranches (tidyBranch gone last) (earlier.map (tidyBranch gone))
        (tidyElse gone otherwise) := by
  unfold Construct.ofBranches
  rw [← List.map_reverse]
  cases earlier.reverse with
  | nil => simp [tidy, tidyBranches]
  | cons first links => simp [tidy, tidyBranches_eq_map]

end Construct

/-! ## Tags along a reading -/

namespace Tag

variable {gone : RunId → Bool}

theorem tidy_text {rs : List RunId} (h : ∀ r ∈ rs, gone r = false) :
    Tag.tidy gone { runs := rs } = { runs := rs } := by
  have hruns : rs.filter (fun r => !gone r) = rs := by simpa using h
  simp [tidy, hruns]

/-- The tag of a field that is kept has nothing to tidy up. -/
theorem tidy_of_describes {t : Tag} {f : Field} (h : t.Describes f)
    (hkept : ∀ r ∈ f.runs, gone r = false) : t.tidy gone = t := by
  have hruns : t.runs.filter (fun r => !gone r) = t.runs := by
    rw [h.runs]
    simpa using hkept
  have hproblems : t.problems.filter (fun p => p.strayRun?.isNone) = t.problems := by
    apply List.filter_eq_self.mpr
    intro p hp
    rw [p.strayRun?_of_not_structural (h.problems p hp)]
    rfl
  have hclosing : t.closingRuns.filter (fun r => !gone r) = t.closingRuns := by
    rw [h.closingRuns]
    rfl
  rw [tidy, hruns, hproblems, hclosing]

theorem tidy_closing {t : Tag} {f : Field} (hkept : ∀ r ∈ f.runs, gone r = false) :
    (t.absorb .closing f).tidy gone = (t.tidy gone).absorb .closing f := by
  have hruns : f.runs.filter (fun r => !gone r) = f.runs := by simpa using hkept
  simp [tidy, absorb, hruns]

theorem tidy_report {t : Tag} {cause : Cause} {run : Option RunId}
    (h : Problem.strayRun? ⟨cause, run⟩ = none) :
    (t.report cause run).tidy gone = (t.tidy gone).report cause run := by
  simp [tidy, report, h]

/-- Fields that are gone leave nothing behind, except perhaps a style run. -/
theorem tidy_swallowAll {t : Tag} {strays : List (Keyword × Field)}
    (h : ∀ s ∈ strays, ∀ r ∈ s.2.runs, gone r = true) :
    (t.swallowAll strays).tidy gone =
      { t.tidy gone with styleRun := (t.swallowAll strays).styleRun } := by
  have hruns : (strays.flatMap (fun s => s.2.runs)).filter (fun r => !gone r) = [] := by
    apply List.filter_eq_nil_iff.mpr
    intro r hr
    obtain ⟨s, hs, hr⟩ := List.mem_flatMap.mp hr
    simp [h s hs r hr]
  have hproblems : (strays.map (fun s =>
      (⟨.unexpected (.tag s.1), some s.2.opening.id⟩ : Problem))).filter
        (fun p => p.strayRun?.isNone) = [] := by
    apply List.filter_eq_nil_iff.mpr
    intro p hp
    obtain ⟨s, hs, rfl⟩ := List.mem_map.mp hp
    simp [Problem.strayRun?]
  simp [tidy, swallowAll, hruns, hproblems]

end Tag

/-! ## Levels and blocks -/

/-- What a level builds, tidied. -/
def Purpose.tidy (gone : RunId → Bool) : Purpose → Purpose
  | .loop iterator source => .loop iterator source
  | .branch earlier condition => .branch (earlier.map (Construct.tidyBranch gone)) condition
  | .otherwise earlier last =>
    .otherwise (earlier.map (Construct.tidyBranch gone)) (Construct.tidyBranch gone last)

/-- The level as it is without the stray tags in it. -/
def Level.tidy (gone : RunId → Bool) (l : Level) : Level :=
  { l with
    purpose := l.purpose.tidy gone
    header := l.header.tidy gone
    swallowed := []
    body := Construct.tidyLast gone l.body }

/-- The block as it is without the stray tags in it. -/
def Block.tidy (gone : RunId → Bool) (b : Block) : Block :=
  { b with
    header := { b.header.tidy gone with styleRun := none }
    swallowed := []
    body := Construct.tidyLast gone b.body }

/-- The level was opened by a field that is kept and has a style run, and it has swallowed only
fields that are gone. -/
structure Level.Genuine (gone : RunId → Bool) (l : Level) : Prop where
  runs : ∃ f : Field, l.header.runs = f.runs ∧ ∀ r ∈ f.runs, gone r = false
  styled : l.header.styleRun.isSome = true
  swallowed : ∀ s ∈ l.swallowed, ∀ r ∈ s.2.runs, gone r = true

namespace Level

variable {gone : RunId → Bool} {l : Level}

theorem frame_tidy (gone : RunId → Bool) (l : Level) : (l.tidy gone).frame = l.frame := by
  unfold frame tidy
  cases l.purpose <;> rfl

theorem tag_tidy (h : l.Genuine gone) : (l.tidy gone).tag = l.tag.tidy gone := by
  have hswallowed : ∀ s ∈ l.swallowed.reverse, ∀ r ∈ s.2.runs, gone r = true := by
    simpa using h.swallowed
  -- The opening field has given a style run already, so no stray can.
  have hstyle : (l.header.swallowAll l.swallowed.reverse).styleRun = l.header.styleRun := by
    obtain ⟨r, hr⟩ := Option.isSome_iff_exists.mp h.styled
    simp [Tag.swallowAll, hr]
  show (l.header.tidy gone).swallowAll [] = _
  rw [tag, Tag.tidy_swallowAll hswallowed, hstyle, Tag.swallowAll_nil]
  rfl

/-- Problems are reported at a run of the opening field, which is kept. -/
theorem anchor?_tidy (h : l.Genuine gone) : (l.tag.tidy gone).anchor? = l.tag.anchor? := by
  obtain ⟨f, hruns, hkept⟩ := h.runs
  have hfilter : f.runs.filter (fun r => !gone r) = f.runs := by simpa using hkept
  -- The anchor is the second run of the tag, and a field has two marks at least.
  have hlength : 1 < f.runs.length := by simp [Field.runs]
  have hanchor : ∀ more, (f.runs ++ more)[1]? = f.runs[1]? :=
    fun more => List.getElem?_append_left hlength
  obtain ⟨r, hr⟩ : ∃ r, f.runs[1]? = some r := ⟨_, List.getElem?_eq_getElem hlength⟩
  simp only [Tag.anchor?, Tag.tidy, tag, Tag.swallowAll, hruns, List.filter_append, hfilter,
    hanchor, hr]
  rfl

theorem toBranch_tidy (h : l.Genuine gone) (condition : Option Expression) :
    (l.tidy gone).toBranch condition = Construct.tidyBranch gone (l.toBranch condition) := by
  rw [toBranch, toBranch, tag_tidy h, Construct.tidyBranch, Construct.joinTexts_reverse]
  rfl

theorem isText_close (l : Level) (f : Field) : (l.close f).isText = false := by
  unfold close
  split
  · rfl
  · exact Construct.isText_ofBranches ..
  · exact Construct.isText_ofBranches ..

theorem isText_closeAtEnd (l : Level) : l.closeAtEnd.isText = false := by
  unfold closeAtEnd
  dsimp only
  split
  · rfl
  · exact Construct.isText_ofBranches ..
  · exact Construct.isText_ofBranches ..

/-- Closing a level commutes with tidying. -/
theorem close_tidy (h : l.Genuine gone) {f : Field} (hkept : ∀ r ∈ f.runs, gone r = false) :
    (l.tidy gone).close f = (l.close f).tidy gone := by
  have htag := tag_tidy h
  unfold close
  simp only [htag]
  cases hpurpose : l.purpose with
  | loop iterator source =>
    simp only [tidy, hpurpose, Purpose.tidy, Construct.tidy, Tag.tidy_closing hkept,
      Construct.joinTexts_reverse]
  | branch earlier condition =>
    simp only [tidy, hpurpose, Purpose.tidy, Construct.tidy_ofBranches, Construct.tidyBranch,
      Construct.tidyElse, Tag.tidy_closing hkept, Construct.joinTexts_reverse]
  | otherwise earlier last =>
    obtain ⟨tag, condition, body⟩ := last
    simp only [tidy, hpurpose, Purpose.tidy, Construct.tidy_ofBranches, Construct.tidyBranch,
      Construct.tidyElse, Tag.tidy_closing hkept, Construct.joinTexts_reverse]

/-- So does the end of the body. -/
theorem closeAtEnd_tidy (h : l.Genuine gone) :
    (l.tidy gone).closeAtEnd = l.closeAtEnd.tidy gone := by
  have htag := tag_tidy h
  have hend : ((l.tag.report (.unexpected .endOfBody) none).tidy gone) =
      (l.tag.tidy gone).report (.unexpected .endOfBody) none := Tag.tidy_report rfl
  have hopen : ∀ r, ((l.tag.report (.unexpected .endOfBody) none).report .conditionalLeftOpen r).tidy
      gone = ((l.tag.tidy gone).report (.unexpected .endOfBody) none).report .conditionalLeftOpen
        r := by
    intro r
    rw [Tag.tidy_report rfl, hend]
  unfold closeAtEnd
  simp only [htag, Tag.anchor?_report, anchor?_tidy h]
  cases hpurpose : l.purpose with
  | loop iterator source =>
    simp only [tidy, hpurpose, Purpose.tidy, Construct.tidy, hend, Construct.joinTexts_reverse]
  | branch earlier condition =>
    simp only [tidy, hpurpose, Purpose.tidy, Construct.tidy_ofBranches, Construct.tidyBranch,
      Construct.tidyElse, hopen, Construct.joinTexts_reverse]
  | otherwise earlier last =>
    simp only [tidy, hpurpose, Purpose.tidy, Construct.tidy_ofBranches, Construct.tidyElse, hend,
      Construct.joinTexts_reverse]

end Level

namespace Block

variable {gone : RunId → Bool} {b : Block}

theorem toSection_tidy (h : ∀ s ∈ b.swallowed, ∀ r ∈ s.2.runs, gone r = true) :
    (b.tidy gone).toSection = Template.tidy gone b.toSection := by
  have hswallowed : ∀ s ∈ b.swallowed.reverse, ∀ r ∈ s.2.runs, gone r = true := by simpa using h
  have htag : (b.tidy gone).tag = { b.tag.tidy gone with styleRun := none } := by
    rw [tag, tag, Tag.tidy_swallowAll hswallowed]
    exact Tag.swallowAll_nil _
  rw [toSection, toSection, htag, Template.tidy, Construct.tidyTemplate,
    Construct.joinTexts_reverse]
  rfl

end Block

/-- Closing what is open at the end of the body commutes with tidying. -/
theorem Progress.closeLevels_tidy {gone : RunId → Bool} (b : Block) (inner : Option Construct)
    (hinner : ∀ c ∈ inner, c.isText = false) {ls : List Level} (h : ∀ l ∈ ls, l.Genuine gone) :
    closeLevels (b.tidy gone) (inner.map (Construct.tidy gone)) (ls.map (Level.tidy gone)) =
      (closeLevels b inner ls).tidy gone := by
  -- A level that was closed is no text, so that it is not joined with what stands before it.
  have hbody : ∀ {inner : Option Construct}, (∀ c ∈ inner, c.isText = false) → ∀ body,
      Construct.tidyLast gone (inner.toList ++ body) =
        (inner.map (Construct.tidy gone)).toList ++ Construct.tidyLast gone body := by
    intro inner hinner body
    cases inner with
    | none => rfl
    | some c =>
      have hc : (c.tidy gone).isText = false := by
        rw [Construct.isText_tidy]
        exact hinner c rfl
      exact Construct.attach_of_not_isText _ hc
  induction ls generalizing inner with
  | nil =>
    simp only [List.map_nil, closeLevels, Block.tidy, hbody hinner]
  | cons l ls ih =>
    have hl : l.Genuine gone := h l List.mem_cons_self
    have hclosed : { l with body := inner.toList ++ l.body }.Genuine gone :=
      ⟨hl.runs, hl.styled, hl.swallowed⟩
    have hsame : { l.tidy gone with
        body := (inner.map (Construct.tidy gone)).toList ++ (l.tidy gone).body } =
        { l with body := inner.toList ++ l.body }.tidy gone := by
      simp only [Level.tidy, hbody hinner]
    have hrest := ih (some ({ l with body := inner.toList ++ l.body }.closeAtEnd))
      (by simp [Level.isText_closeAtEnd]) (fun l' hl' => h l' (List.mem_cons_of_mem _ hl'))
    rw [List.map_cons, closeLevels, hsame, Level.closeAtEnd_tidy hclosed]
    exact hrest

end DocTemplate
