import DocTemplate.Document.Draft
import DocTemplate.Proofs.Strays

/-!
# Runs are conserved

Each run of a body is recorded once in its template: in the text that it belongs to, in the tag whose
opening or closing field it is part of, or in the tag that swallowed its field as a stray. A stray is
taken out of its place, into the tag of the body around it; apart from strays, reading the template
from front to back gives the runs in document order.

## Main statements

- `Runs.records`: what a reading adds to the runs of its state
- `Body.parse_runs_conserved`: the runs of a template are the runs of its body
-/

namespace DocTemplate

/-- The view of the runs that tags record. -/
def TagView.runs : TagView RunId where
  front := Tag.runs
  back := Tag.closingRuns
  ofRun r := [r]
  ofStray s := s.2.runs
  ofClosing := Field.runs
  ofProblem _ := []
  front_text rs := by simp
  front_swallowAll t strays := rfl
  front_closing t f := rfl
  front_report t c r := by simp [Tag.report]
  back_eq_nil t h := h
  back_closing t f h := by simp [Tag.absorb, h]

/-- The runs that a template records, from front to back: the runs of an opening field, the body, the
alternative and the runs of the closing field; the cells of a table row by row. -/
def Template.runs (t : Template) : List RunId := t.gather .runs

theorem TagView.ofEnd_runs (l : Level) : TagView.runs.ofEnd l = [] := by
  unfold ofEnd
  split <;> rfl

/-- A tag that is in its place records the runs of its field. -/
theorem TagView.ofTag_runs (s : Setting) (f : Field) {k : Keyword} {fs : List Frame}
    (hplace : advance (.tag k) fs ≠ none) : TagView.runs.ofTag s f k = f.runs := by
  apply TagView.runs.ofTag_of_front s (fun t ht => ht.runs) rfl
  intro hmem
  simp only [List.mem_cons, List.not_mem_nil, or_false] at hmem
  rcases hmem with rfl | rfl | rfl <;> exact hplace (by cases fs <;> rfl)

/-! ## What a reading records -/

/-- Reading tokens where the frames `fs` are open adds their runs to those recorded before: all of
them, and at the end if no field among them is stray. -/
def Records (fs : List Frame) (ts : List Token) (before after : List RunId) : Prop :=
  after.Perm (before ++ Token.runsOf ts) ∧
    (Token.straysOf fs ts = [] → after = before ++ Token.runsOf ts)

theorem Token.runsOf_cons (t : Token) (ts : List Token) :
    Token.runsOf (t :: ts) = Token.runsOf [t] ++ Token.runsOf ts := by
  simp [Token.runsOf, Token.leavesOf]

theorem Token.straysOf_singleton (fs : List Frame) (t : Token) :
    Token.straysOf fs [t] = Token.straysAt fs t := by
  simp [Token.straysOf]

/-- Readings one after another record one after another. -/
theorem Records.cons {fs : List Frame} {t : Token} {ts : List Token} {before here after : List RunId}
    (hfirst : Records fs [t] before here)
    (hrest : Records ((advance t.kind fs).getD fs) ts here after) :
    Records fs (t :: ts) before after := by
  rw [Records, Token.runsOf_cons, ← List.append_assoc, Token.straysOf]
  refine ⟨hrest.1.trans (hfirst.1.append_right _), ?_⟩
  intro hstrays
  obtain ⟨hhere, hlater⟩ := List.append_eq_nil_iff.mp hstrays
  rw [hrest.2 hlater, hfirst.2 (by rwa [Token.straysOf_singleton])]

/-- The cells of a table record what each of them records, row by row. -/
theorem Records.table {s : Setting} {depth : Nat} {fs : List Frame} {id : TableId}
    {rows : List (List (List Token))} {ts : List (List Template)}
    (hread : cellTemplates s depth rows = .ok ts)
    (hcells : ∀ row ∈ rows, ∀ c ∈ row, ∀ u, Template.ofTokens s depth c = .ok u →
      Records [] c [] u.runs) (before : List RunId) :
    Records fs [.table id rows] before
      (before ++ ts.flatMap (fun row => row.flatMap Template.runs)) := by
  have hside := forall₂_cells_imp (cellTemplates_eq_ok_iff.mp hread) hcells
  rw [Records, Token.runsOf_table, Token.runsOf_nil, List.append_nil, Token.straysOf_singleton,
    Token.straysAt, Token.straysOfRows_eq_flatMap]
  constructor
  · have hperm := hside.imp fun _ _ hrow => hrow.imp fun _ _ hc => hc.1.symm
    exact List.Perm.append_left _ (forall₂_flatMap_cells .nil List.Perm.append hperm).symm
  · intro hstrays
    have hnone : ∀ row ∈ rows, ∀ c ∈ row, Token.straysOf [] c = [] := by
      intro row hrow c hc
      have hrowNone := List.flatMap_eq_nil_iff.mp hstrays row hrow
      exact List.flatMap_eq_nil_iff.mp hrowNone c hc
    have heq := forall₂_cells_imp hside fun row hrow c hc u hu => (hu.2 (hnone row hrow c hc)).symm
    rw [← forall₂_flatMap_cells rfl (fun h h' => by rw [h, h']) heq]
    rfl

section Readings

variable {s : Setting} {p q : Progress}

/-- A token that is read records its runs. -/
theorem Reads.records {t : Token} (h : Reads s t p q) (hp : p.Unclosed)
    (hcells : ∀ id rows, t = .table id rows → ∀ row ∈ rows, ∀ c ∈ row, ∀ depth u,
      Template.ofTokens s depth c = .ok u → Records [] c [] u.runs) :
    Records p.frames [t] (p.gather .runs) (q.gather .runs) := by
  cases h with
  | text r p =>
    rw [Progress.gather_text]
    exact ⟨.refl _, fun _ => rfl⟩
  | @tag k f p q hstep =>
    rw [Records, Token.straysOf_singleton, Token.straysAt, Token.runsOf_tag, Token.runsOf_nil,
      List.append_nil]
    split
    -- A stray moves to the tag of the body around it, which changes the order and nothing else.
    next hnone => exact ⟨hstep.gather_of_stray .runs hnone, fun hstray => by cases hstray⟩
    next hplace =>
      rw [hstep.gather_of_place .runs hplace hp, TagView.ofTag_runs s f hplace]
      exact ⟨.refl _, fun _ => rfl⟩
  | @table id rows p ts hread =>
    rw [Progress.gather_table]
    exact Records.table hread (fun row hrow c hc => hcells id rows rfl row hrow c hc p.depth) _

theorem Runs.records {ts : List Token} (h : Runs s ts p q) (hp : p.Unclosed)
    (hcells : ∀ id rows, Token.table id rows ∈ ts → ∀ row ∈ rows, ∀ c ∈ row, ∀ depth u,
      Template.ofTokens s depth c = .ok u → Records [] c [] u.runs) :
    Records p.frames ts (p.gather .runs) (q.gather .runs) := by
  induction h with
  | nil p => simp [Records, Token.runsOf_nil]
  | @cons t ts p q r hstep hrest ih =>
    apply Records.cons
    · exact hstep.records hp fun id rows ht => hcells id rows (ht ▸ List.mem_cons_self)
    · rw [← hstep.frames]
      exact ih (hstep.unclosed hp) fun id rows hmem => hcells id rows (List.mem_cons_of_mem _ hmem)

/-- A template records the runs of its tokens. -/
theorem Template.records {depth : Nat} {ts : List Token} {t : Template}
    (h : Template.ofTokens s depth ts = .ok t) : Records [] ts [] t.runs := by
  refine Template.ofTokens_induction h ?_
  intro depth ts q hruns hcells
  have hfresh := Progress.fresh_unclosed depth
  have hfinish := Progress.gather_finish_of_quiet .runs (hruns.unclosed hfresh) hruns.stops
    TagView.ofEnd_runs
  rw [Template.runs, hfinish]
  exact hruns.records hfresh hcells

/-- Where nothing is reported, the runs stand in document order. -/
theorem Template.runs_of_problems_eq_nil {depth : Nat} {ts : List Token} {t : Template}
    (h : Template.ofTokens s depth ts = .ok t) (hnone : t.problems = []) :
    t.runs = Token.runsOf ts := by
  have hstrays := Template.strayRuns_perm h
  rw [Template.strayRuns, hnone, List.filterMap_nil] at hstrays
  exact (Template.records h).2 (List.map_eq_nil_iff.mp hstrays.eq_nil)

end Readings

/-- **No run is lost or recorded twice.** The runs of a template are those of its body, each as
often; and if the template reports no stray tag, they stand in document order. -/
theorem Body.parse_runs_conserved (s : Setting) (b : Body) {t : Template}
    (h : (b.parse s).result = .ok t) :
    t.runs.Perm (b.runs.map Run.id) ∧
      ((∀ p ∈ t.problems, p.strayRun? = none) → t.runs = b.runs.map Run.id) := by
  rw [b.result_parse s] at h
  obtain ⟨hperm, heq⟩ := Template.records h
  rw [b.runsOf_linearTokens, List.nil_append] at hperm heq
  refine ⟨hperm, ?_⟩
  intro hnone
  -- All strays are reported, so without reports there are none.
  have hreported := Template.strayRuns_perm h
  rw [Template.strayRuns, List.filterMap_eq_nil_iff.mpr hnone] at hreported
  exact heq (List.map_eq_nil_iff.mp hreported.eq_nil)

/-- A repetition around a table, with a tag in one cell and a stray end tag in another. -/
def Body.tableInLoop : Body :=
  Draft.build
    [.paragraph [.field ["m:for x ", "| xs"], .text "a"],
      .table [[[.paragraph [.field ["m:x"]]], [.paragraph [.text "b", .field ["m:endif"]]]]],
      .paragraph [.field ["m:endfor"]]]

/-- The stray tag is recorded before the text that stands in front of it, so the order changes while
no run is lost. -/
theorem Body.parse_runs_conserved_tableInLoop :
    ∃ t, (Body.tableInLoop.parse { compile := .fixed [] }).result = .ok t ∧
      t.runs = [0, 1, 2, 3, 4, 5, 6, 7, 9, 10, 11, 8, 12, 13, 14] ∧
      t.runs.Perm (List.range 15) := by
  have hok : (Body.tableInLoop.parse { compile := .fixed [] }).result.toOption.map Template.runs =
      some [0, 1, 2, 3, 4, 5, 6, 7, 9, 10, 11, 8, 12, 13, 14] := by decide +kernel
  obtain ⟨t, hresult, hruns⟩ := exists_of_toOption_map hok
  exact ⟨t, hresult, hruns, (Body.parse_runs_conserved _ _ hresult).1⟩

end DocTemplate
