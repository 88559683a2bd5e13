import DocTemplate.Proofs.DocumentOrder
import DocTemplate.Proofs.Gathering

/-!
# Stray tags and the problems that report them

Whether a tag has a place is decided by the tags before it in its own body, through the frames that
they leave open. So the stray fields of a list of tokens can be listed without reading anything, and
the list is the one that the problems of the template report.

## Main statements

- `Template.gather_reports`: the problems of a template, gathered tag by tag
- `Token.straysOf`: the fields that have no place
- `Template.strays_perm`: the stray problems of a template are the reports of its stray fields
-/

namespace DocTemplate

/-! ## Gathering problems -/

/-- What `g` takes from the problems of a tag. -/
def TagView.reports {β : Type} (g : Problem → Option β) : TagView β where
  front t := t.problems.filterMap g
  back _ := []
  ofRun _ := []
  ofStray s := (g ⟨.unexpected (.tag s.1), some s.2.opening.id⟩).toList
  ofClosing _ := []
  ofProblem p := (g p).toList
  front_text rs := by simp
  front_swallowAll t strays := by
    simp only [Tag.swallowAll, List.filterMap_append, List.append_cancel_left_eq]
    induction strays with
    | nil => rfl
    | cons s strays ih => cases h : g ⟨.unexpected (.tag s.1), some s.2.opening.id⟩ <;> simp [h, ih]
  front_closing t f := rfl
  front_report t c r := by
    cases h : g ⟨c, r⟩ <;> simp [Tag.report, h]
  back_eq_nil _ _ := rfl
  back_closing _ _ _ := rfl

namespace Construct

variable {β : Type} (g : Problem → Option β)

mutual

theorem gather_reports : ∀ c : Construct, c.gather (.reports g) = c.problems.filterMap g
  | .text tag | .query tag _ _ | .image tag _ | .diagram tag _ _ _ => by
    simp [gather, problems, TagView.reports]
  | .loop tag _ _ body => by
    rw [gather, gatherBody_reports body]
    simp [problems, TagView.reports]
  | .conditional first links otherwise => by
    rw [gather, gatherBranch_reports first, gatherLinks_reports links, gatherElse_reports otherwise]
    simp [problems]
  | .table _ rows => by rw [gather, gatherRows_reports rows, problems]

theorem gatherBody_reports :
    ∀ cs : List Construct, gatherBody (.reports g) cs = (problemsOfBody cs).filterMap g
  | [] => rfl
  | c :: cs => by
    rw [gatherBody, gather_reports c, gatherBody_reports cs, problemsOfBody, List.filterMap_append]

theorem gatherBranch_reports :
    ∀ (b : Branch Construct) (alternative : List β), gatherBranch (.reports g) b alternative =
      (problemsOfBranch b).filterMap g ++ alternative
  | ⟨tag, _, body⟩, alternative => by
    rw [gatherBranch, gatherBody_reports body]
    simp [problemsOfBranch, TagView.reports]

theorem gatherLinks_reports :
    ∀ (bs : List (Branch Construct)) (alternative : List β),
      gatherLinks (.reports g) bs alternative = (problemsOfBranches bs).filterMap g ++ alternative
  | [], alternative => rfl
  | b :: bs, alternative => by
    rw [gatherLinks, gatherBranch_reports b, gatherLinks_reports bs]
    simp [problemsOfBranches]

theorem gatherElse_reports :
    ∀ o : Option (Section Construct), gatherElse (.reports g) o = (problemsOfElse o).filterMap g
  | none => rfl
  | some sec => by rw [gatherElse, gatherSection_reports sec, problemsOfElse]

theorem gatherSection_reports :
    ∀ sec : Section Construct, gatherSection (.reports g) sec = (problemsOfSection sec).filterMap g
  | ⟨tag, body⟩ => by
    rw [gatherSection, gatherBody_reports body]
    simp [problemsOfSection, TagView.reports]

theorem gatherRows_reports :
    ∀ rows : List (List (Section Construct)),
      gatherRows (.reports g) rows = (problemsOfRows rows).filterMap g
  | [] => rfl
  | r :: rs => by
    rw [gatherRows, gatherCells_reports r, gatherRows_reports rs, problemsOfRows,
      List.filterMap_append]

theorem gatherCells_reports :
    ∀ cells : List (Section Construct),
      gatherCells (.reports g) cells = (problemsOfCells cells).filterMap g
  | [] => rfl
  | c :: cs => by
    rw [gatherCells, gatherSection_reports c, gatherCells_reports cs, problemsOfCells,
      List.filterMap_append]

end

end Construct

/-- What is gathered from the problems tag by tag is taken from the list of all problems. -/
theorem Template.gather_reports {β : Type} (g : Problem → Option β) (t : Template) :
    t.gather (.reports g) = t.problems.filterMap g := Construct.gatherSection_reports g t

/-- A tag that is in its place reports nothing about how tags are nested. -/
theorem TagView.ofTag_reports {β : Type} {g : Problem → Option β}
    (hg : ∀ p, p.isStructural = false → g p = none) (s : Setting) (f : Field) (k : Keyword) :
    (TagView.reports g).ofTag s f k = [] := by
  have hfront : ∀ t : Tag, t.Describes f → (TagView.reports g).front t = [] := by
    intro t ht
    exact List.filterMap_eq_nil_iff.mpr fun p hp => hg p (ht.problems p hp)
  cases k with
  | element | binding | endBinding => rfl
  | _ => exact (TagView.reports g).ofTag_of_front s hfront rfl (by decide)

/-! ## Stray fields -/

namespace Token

mutual

/-- The stray fields of a list of tokens that is read where the frames `fs` are open, in document
order. -/
def straysOf (fs : List Frame) : List Token → List (Keyword × Field)
  | [] => []
  | t :: ts => straysAt fs t ++ straysOf ((advance t.kind fs).getD fs) ts

/-- The stray fields of a token. -/
def straysAt (fs : List Frame) : Token → List (Keyword × Field)
  | .text _ => []
  | .tag k f => if advance (.tag k) fs = none then [(k, f)] else []
  | .table _ rows => straysOfRows rows

/-- The stray fields of the rows of a table. -/
def straysOfRows : List (List (List Token)) → List (Keyword × Field)
  | [] => []
  | r :: rs => straysOfCells r ++ straysOfRows rs

/-- The stray fields of the cells of a row; nothing is open where a cell begins. -/
def straysOfCells : List (List Token) → List (Keyword × Field)
  | [] => []
  | c :: cs => straysOf [] c ++ straysOfCells cs

end

theorem straysOfCells_eq_flatMap (cells : List (List Token)) :
    straysOfCells cells = cells.flatMap (straysOf []) := by
  induction cells with
  | nil => rfl
  | cons c cs ih => simp [straysOfCells, ih]

theorem straysOfRows_eq_flatMap (rows : List (List (List Token))) :
    straysOfRows rows = rows.flatMap (fun r => r.flatMap (straysOf [])) := by
  induction rows with
  | nil => rfl
  | cons r rs ih => simp [straysOfRows, ih, straysOfCells_eq_flatMap]

end Token

/-! ## Reports of stray tags -/

/-- What reports a stray field. -/
def Problem.ofStray (s : Keyword × Field) : Problem :=
  ⟨.unexpected (.tag s.1), some s.2.opening.id⟩

/-- What `g` takes from problems, it takes from reports of stray tags. -/
structure Problem.SeesStrays {β : Type} (g : Problem → Option β) : Prop where
  inField : ∀ p, p.isStructural = false → g p = none
  endOfBody : g ⟨.unexpected .endOfBody, none⟩ = none
  leftOpen : ∀ r, g ⟨.conditionalLeftOpen, r⟩ = none

/-- What is taken from the reports of stray fields. -/
def Token.reportsOf {β : Type} (g : Problem → Option β) (strays : List (Keyword × Field)) :
    List β :=
  strays.filterMap fun s => g (Problem.ofStray s)

section Reports

variable {β : Type} {g : Problem → Option β} {s : Setting}

/-- The end of the body is none of them. -/
theorem Problem.SeesStrays.ofEnd (hg : SeesStrays g) (l : Level) :
    (TagView.reports g).ofEnd l = [] := by
  have hproblem : ∀ p, g p = none → (TagView.reports g).ofProblem p = [] :=
    fun _ hp => congrArg Option.toList hp
  rw [TagView.ofEnd, hproblem _ hg.endOfBody]
  split
  · exact hproblem _ (hg.leftOpen _)
  · rfl
  · rfl

theorem Token.reportsOf_append (strays more : List (Keyword × Field)) :
    reportsOf g (strays ++ more) = reportsOf g strays ++ reportsOf g more :=
  List.filterMap_append

/-- The state reports, after a token that it reads, also the stray fields of the token. -/
theorem Reads.gather_strays {t : Token} {p q : Progress} (h : Reads s t p q)
    (hg : Problem.SeesStrays g) (hp : p.Unclosed)
    (hcells : ∀ id rows, t = .table id rows → ∀ row ∈ rows, ∀ c ∈ row, ∀ depth u,
      Template.ofTokens s depth c = .ok u →
        (Token.reportsOf g (Token.straysOf [] c)).Perm (u.problems.filterMap g)) :
    (q.gather (.reports g)).Perm
      (p.gather (.reports g) ++ Token.reportsOf g (Token.straysAt p.frames t)) := by
  cases h with
  | text r p =>
    rw [Progress.gather_text]
    exact .refl _
  | @tag k f p q hstep =>
    rw [Token.straysAt]
    split
    next hnone =>
      have hstray := hstep.gather_of_stray (.reports g) hnone
      have hreport : Token.reportsOf g [(k, f)] = (TagView.reports g).ofStray (k, f) := by
        show [(k, f)].filterMap _ = (g (Problem.ofStray (k, f))).toList
        cases hseen : g (Problem.ofStray (k, f)) <;> simp [hseen]
      rwa [hreport]
    next hplace =>
      -- A tag in its place reports only what is wrong inside its field.
      rw [hstep.gather_of_place (.reports g) hplace hp, TagView.ofTag_reports hg.inField s f k]
      exact .refl _
  | @table id rows p ts hread =>
    rw [Progress.gather_table, Token.straysAt, Token.straysOfRows_eq_flatMap, Token.reportsOf]
    simp only [List.filterMap_flatMap]
    apply List.Perm.append_left
    have hside := forall₂_cells_imp (cellTemplates_eq_ok_iff.mp hread)
      (S := fun c u =>
        (Token.reportsOf g (Token.straysOf [] c)).Perm (u.gather (.reports g)))
      (fun row hrow c hc u hu => by
        rw [Template.gather_reports]
        exact hcells id rows rfl row hrow c hc p.depth u hu)
    exact (forall₂_flatMap_cells .nil List.Perm.append hside).symm

theorem Runs.gather_strays {ts : List Token} {p q : Progress} (h : Runs s ts p q)
    (hg : Problem.SeesStrays g) (hp : p.Unclosed)
    (hcells : ∀ id rows, Token.table id rows ∈ ts → ∀ row ∈ rows, ∀ c ∈ row, ∀ depth u,
      Template.ofTokens s depth c = .ok u →
        (Token.reportsOf g (Token.straysOf [] c)).Perm (u.problems.filterMap g)) :
    (q.gather (.reports g)).Perm
      (p.gather (.reports g) ++ Token.reportsOf g (Token.straysOf p.frames ts)) := by
  induction h with
  | nil p => simp [Token.straysOf, Token.reportsOf]
  | @cons t ts p q r hstep hrest ih =>
    have hfirst := hstep.gather_strays hg hp fun id rows ht =>
      hcells id rows (ht ▸ List.mem_cons_self)
    have hnext := ih (hstep.unclosed hp) fun id rows hmem =>
      hcells id rows (List.mem_cons_of_mem _ hmem)
    rw [Token.straysOf, Token.reportsOf_append, ← List.append_assoc, ← hstep.frames]
    exact hnext.trans (hfirst.append_right _)

/-- **A template reports just its stray fields** as tags that are out of place. -/
theorem Template.strays_perm {depth : Nat} {ts : List Token} {t : Template}
    (h : Template.ofTokens s depth ts = .ok t) (hg : Problem.SeesStrays g) :
    (Token.reportsOf g (Token.straysOf [] ts)).Perm (t.problems.filterMap g) := by
  refine Template.ofTokens_induction h ?_
  intro depth ts q hruns hcells
  have hfresh := Progress.fresh_unclosed depth
  have hgather := hruns.gather_strays hg hfresh hcells
  have hfinish := Progress.gather_finish_of_quiet (.reports g) (hruns.unclosed hfresh) hruns.stops
    hg.ofEnd
  rw [Template.gather_reports] at hfinish
  rw [hfinish]
  exact hgather.symm

end Reports

/-- The problem is that a tag closes nothing; that the body ends has no run. -/
def Problem.isStrayReport (p : Problem) : Bool :=
  match p.cause with
  | .unexpected _ => p.run.isSome
  | _ => false

theorem Problem.isStrayReport_of_not_structural (p : Problem) (h : p.isStructural = false) :
    p.isStrayReport = false := by
  obtain ⟨cause, run⟩ := p
  cases cause <;> first | rfl | cases h

/-- The reports of a template about stray tags are those of its stray fields. -/
theorem Template.strayReports_perm {s : Setting} {depth : Nat} {ts : List Token} {t : Template}
    (h : Template.ofTokens s depth ts = .ok t) :
    ((Token.straysOf [] ts).map Problem.ofStray).Perm (t.problems.filter Problem.isStrayReport) := by
  have hsees : Problem.SeesStrays (Option.guard Problem.isStrayReport) := by
    refine ⟨fun p hp => ?_, rfl, fun _ => rfl⟩
    rw [Option.guard, p.isStrayReport_of_not_structural hp]
    rfl
  have hperm := Template.strays_perm h hsees
  have hall : Token.reportsOf (Option.guard Problem.isStrayReport) (Token.straysOf [] ts) =
      (Token.straysOf [] ts).map Problem.ofStray :=
    congrFun List.filterMap_eq_map' _
  rwa [hall, List.filterMap_eq_filter] at hperm

/-! ### The runs of stray tags -/

/-- The run of the stray tag that a problem reports. -/
def Problem.strayRun? (p : Problem) : Option RunId :=
  match p.cause with
  | .unexpected _ => p.run
  | _ => none

/-- The runs at which a template reports stray tags. -/
def Template.strayRuns (t : Template) : List RunId := t.problems.filterMap Problem.strayRun?

theorem Problem.strayRun?_of_not_structural (p : Problem) (h : p.isStructural = false) :
    p.strayRun? = none := by
  obtain ⟨cause, run⟩ := p
  cases cause <;> first | rfl | cases h

/-- The stray tags that a template reports are at its stray fields. -/
theorem Template.strayRuns_perm {s : Setting} {depth : Nat} {ts : List Token} {t : Template}
    (h : Template.ofTokens s depth ts = .ok t) :
    ((Token.straysOf [] ts).map (·.2.opening.id)).Perm t.strayRuns := by
  have hperm := Template.strays_perm h
    ⟨Problem.strayRun?_of_not_structural, rfl, fun _ => rfl⟩
  have hruns : Token.reportsOf Problem.strayRun? (Token.straysOf [] ts) =
      (Token.straysOf [] ts).map (·.2.opening.id) :=
    congrFun List.filterMap_eq_map' _
  rwa [hruns] at hperm

end DocTemplate
