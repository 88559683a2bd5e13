import DocTemplate.Document.Draft
import DocTemplate.Proofs.Blocks
import DocTemplate.Proofs.BodyLayout
import DocTemplate.Proofs.FieldErasure
import Mathlib.Data.List.Chain
import Mathlib.Data.List.Infix

/-!
# Maximal texts

What belongs to no tag is kept as texts. A text has at least one run, its runs follow one another in
the body, and nothing is recorded of it besides. Texts are as long as they can be: what stands
between two of them is a construct of the same body, or it is made of stray tags, which the body's
own tag has swallowed. So a body without tables and tags has one text.

A body is laid out over pieces of its tokens. Here the pieces are followed down to the positions
that they take, for every body of a template, and in a cell to the positions of the cell.

## Main statements

- `Section.LaidOver.strays_between`: what lies between two texts next to each other
- `Section.LaidIn.textsIn`: the texts of a body among the positions
- `Body.parse_texts`: the texts of a template
-/

namespace DocTemplate

/-! ## Positions of runs and tags -/

/-- The positions are those of the tags, one right behind the other. -/
inductive TagsAt : List (Keyword × Field) → List Position → Prop where
  | nil : TagsAt [] []
  | cons {k : Keyword} {f : Field} {gs : List (Keyword × Field)} {ps rest : List Position}
      (hfield : f.StandsAt ps rest) (hkeyword : Keyword.match? f.instruction = some k)
      (h : TagsAt gs rest) : TagsAt ((k, f) :: gs) ps

/-- Positions that are read as plain runs are as many runs. -/
theorem exists_runs_of_linear {ps : List Position} {runs : List RunId}
    (h : linear ps = runs.map .text) : ∃ rs : List Run, ps = rs.map .run ∧ runs = rs.map Run.id := by
  induction ps using linear_induction generalizing runs with
  | nil =>
    rw [linear_nil] at h
    exact ⟨[], rfl, List.map_eq_nil_iff.mp h.symm⟩
  | table id rows ps ih =>
    rw [linear_table] at h
    cases runs <;> cases h
  | tag ps f rest k hf hk ih =>
    rw [linear_tag hf hk] at h
    cases runs <;> cases h
  | text r ps htext ih =>
    rw [linear_text htext] at h
    cases runs with
    | nil => cases h
    | cons x runs =>
      obtain ⟨hx, hrest⟩ := List.cons.inj h
      cases hx
      obtain ⟨rs, rfl, rfl⟩ := ih hrest
      exact ⟨r :: rs, rfl, rfl⟩

/-- Positions that are read as tags are those of the tags. -/
theorem tagsAt_of_linear {ps : List Position} {gs : List (Keyword × Field)}
    (h : linear ps = gs.map Token.ofStray) : TagsAt gs ps := by
  induction ps using linear_induction generalizing gs with
  | nil =>
    rw [linear_nil] at h
    rw [List.map_eq_nil_iff.mp h.symm]
    exact .nil
  | table id rows ps ih =>
    rw [linear_table] at h
    cases gs <;> cases h
  | tag ps f rest k hf hk ih =>
    rw [linear_tag hf hk] at h
    cases gs with
    | nil => cases h
    | cons g gs =>
      obtain ⟨hg, hrest⟩ := List.cons.inj h
      cases hg
      exact .cons (Field.standsAt_of_readField hf) hk (ih hrest)
  | text r ps htext ih =>
    rw [linear_text htext] at h
    cases gs <;> cases h

/-- What stands among the tokens of positions stands among the positions. -/
theorem exists_infix_of_linear {ps : List Position} {us : List Token} (h : us <:+: linear ps) :
    ∃ qs, qs <:+: ps ∧ linear qs = us := by
  obtain ⟨before, after, heq⟩ := h
  rw [List.append_assoc] at heq
  obtain ⟨front, others, rfl, -, hothers⟩ := linear_eq_append heq.symm
  obtain ⟨qs, behind, rfl, hqs, -⟩ := linear_eq_append hothers
  exact ⟨qs, List.infix_append' front qs behind, hqs⟩

/-! ## Texts among pieces -/

namespace Piece

/-- A text comes from a piece of plain runs. -/
theorem eq_text_of_construct? {p : Piece} {tag : Tag} (hfits : p.Fits)
    (h : p.construct? = some (.text tag)) :
    ∃ runs, runs ≠ [] ∧ p = .text runs ∧ tag = { runs := runs } := by
  cases p with
  | text runs =>
    cases h
    exact ⟨runs, hfits, rfl, rfl⟩
  | construct c taken =>
    cases h
    cases hfits
  | stray k f => cases h

/-- Pieces that become no construct are stray tags. -/
theorem exists_strays {pieces : List Piece} (h : ∀ p ∈ pieces, p.construct? = none) :
    ∃ strays : List (Keyword × Field), pieces.length = strays.length ∧
      pieces.flatMap tokens = strays.map Token.ofStray ∧ pieces.filterMap stray? = strays := by
  induction pieces with
  | nil => exact ⟨[], rfl, rfl, rfl⟩
  | cons p pieces ih =>
    obtain ⟨hp, hpieces⟩ := List.forall_mem_cons.mp h
    obtain ⟨strays, hlength, htokens, hstrays⟩ := ih hpieces
    cases p with
    | text | construct => cases hp
    | stray k f =>
      refine ⟨(k, f) :: strays, congrArg _ hlength, ?_, congrArg _ hstrays⟩
      exact congrArg _ htokens

end Piece

namespace Section

variable {sec : Section Construct} {pieces : List Piece}

theorem LaidOver.exists_text {tag : Tag} (h : sec.LaidOver pieces) (htag : .text tag ∈ sec.body) :
    ∃ runs, runs ≠ [] ∧ tag = { runs := runs } ∧
      runs.map .text <:+: pieces.flatMap Piece.tokens := by
  rw [h.body] at htag
  obtain ⟨p, hp, hpc⟩ := List.mem_filterMap.mp htag
  obtain ⟨runs, hne, rfl, rfl⟩ := Piece.eq_text_of_construct? (h.fits p hp) hpc
  exact ⟨runs, hne, rfl, List.infix_of_mem_flatten (List.mem_map_of_mem hp)⟩

/-- **What lies between two texts next to each other** are strays that the tag has swallowed. -/
theorem LaidOver.strays_between {tag tag' : Tag} (h : sec.LaidOver pieces)
    (hnext : [.text tag, .text tag'] <:+: sec.body) :
    ∃ runs strays runs', tag = { runs := runs } ∧ tag' = { runs := runs' } ∧ strays ≠ [] ∧
      runs.map .text ++ (strays.map Token.ofStray ++ runs'.map .text) <:+:
        pieces.flatMap Piece.tokens ∧
      strays <:+: pieces.filterMap Piece.stray? := by
  obtain ⟨front, back, hbody⟩ := hnext
  rw [h.body, List.append_assoc] at hbody
  -- Two neighbours among the constructs are two pieces with nothing but strays between them.
  obtain ⟨before, others, rfl, -, hothers⟩ := List.filterMap_eq_append_iff.mp hbody.symm
  obtain ⟨skipped, p, behind, rfl, -, hp, hbehind⟩ := List.filterMap_eq_cons_iff.mp hothers
  obtain ⟨between, q, after, rfl, hbetween, hq, -⟩ := List.filterMap_eq_cons_iff.mp hbehind
  have hsub : p :: (between ++ [q]) <:+: before ++ (skipped ++ p :: (between ++ q :: after)) :=
    ⟨before ++ skipped, after, by simp⟩
  obtain ⟨runs, -, rfl, rfl⟩ :=
    Piece.eq_text_of_construct? (h.fits p (hsub.subset (by simp))) hp
  obtain ⟨runs', -, rfl, rfl⟩ :=
    Piece.eq_text_of_construct? (h.fits q (hsub.subset (by simp))) hq
  obtain ⟨strays, hlength, htokens, hstrays⟩ := Piece.exists_strays hbetween
  refine ⟨runs, strays, runs', rfl, rfl, ?_, ?_, ?_⟩
  · -- Without a piece in between, one text would stand right behind the other.
    rintro rfl
    obtain rfl : between = [] := List.eq_nil_of_length_eq_zero hlength
    have happart := h.apart.infix hsub
    cases happart with
    | cons_cons htexts _ => cases htexts rfl
  · have htaken := hsub.flatMap Piece.tokens
    simpa [Piece.tokens, htokens] using htaken
  · have hswallowed := hsub.filterMap Piece.stray?
    rw [List.filterMap_cons_none rfl, List.filterMap_append, hstrays] at hswallowed
    exact (List.prefix_append strays _).isInfix.trans hswallowed

end Section

/-! ## Texts among positions -/

/-- The tag has swallowed the strays, one right after the other: it has their runs, and it reports
each of them. -/
structure Tag.Swallowed (t : Tag) (strays : List (Keyword × Field)) : Prop where
  runs : strays.flatMap (·.2.runs) <:+: t.runs
  reports : strays.map Problem.ofStray <:+: t.problems.filter Problem.isStrayReport

/-- The texts of a body among the positions that it is read from. -/
structure Section.TextsIn (sec : Section Construct) (ps : List Position) : Prop where
  /-- A text has runs, which follow one another, and nothing besides. -/
  text : ∀ tag, .text tag ∈ sec.body →
    ∃ rs : List Run, rs ≠ [] ∧ rs.map .run <:+: ps ∧ tag.runs = rs.map Run.id ∧
      tag.closingRuns = [] ∧ tag.styleRun = none ∧ tag.problems = []
  /-- Where two texts stand next to each other, some stray tags lie between them and nothing else,
  and the tag of the body has swallowed these. -/
  apart : ∀ tag tag', [.text tag, .text tag'] <:+: sec.body →
    ∃ (rs rs' : List Run) (between : List Position) (strays : List (Keyword × Field)),
      tag.runs = rs.map Run.id ∧ tag'.runs = rs'.map Run.id ∧
      rs.map .run ++ (between ++ rs'.map .run) <:+: ps ∧
      strays ≠ [] ∧ TagsAt strays between ∧ sec.tag.Swallowed strays

theorem Tag.HasSwallowed.swallowed {t : Tag} {all strays : List (Keyword × Field)}
    (h : t.HasSwallowed all) (hstrays : strays <:+: all) : t.Swallowed strays where
  runs := (hstrays.flatMap _).trans h.runs.isInfix
  reports := by
    rw [h.reports]
    exact hstrays.map _

/-- **The texts of a body** that is laid out among the tokens of some positions. -/
theorem Section.LaidIn.textsIn {sec : Section Construct} {ps : List Position}
    (h : sec.LaidIn (linear ps)) : sec.TextsIn ps := by
  obtain ⟨pieces, hover, hpieces⟩ := h
  constructor
  · intro tag htag
    obtain ⟨runs, hne, rfl, hruns⟩ := hover.exists_text htag
    obtain ⟨qs, hqs, hlinear⟩ := exists_infix_of_linear (hruns.trans hpieces)
    obtain ⟨rs, rfl, rfl⟩ := exists_runs_of_linear hlinear
    have hrs : rs ≠ [] := fun hnil => hne (congrArg _ hnil)
    exact ⟨rs, hrs, hqs, rfl, rfl, rfl, rfl⟩
  · intro tag tag' hnext
    obtain ⟨runs, strays, runs', rfl, rfl, hne, htokens, hstrays⟩ := hover.strays_between hnext
    obtain ⟨qs, hqs, hlinear⟩ := exists_infix_of_linear (htokens.trans hpieces)
    -- The positions are cut where the tokens are.
    obtain ⟨front, others, rfl, hfront, hothers⟩ := linear_eq_append hlinear
    obtain ⟨between, back, rfl, hbetween, hback⟩ := linear_eq_append hothers
    obtain ⟨rs, rfl, rfl⟩ := exists_runs_of_linear hfront
    obtain ⟨rs', rfl, rfl⟩ := exists_runs_of_linear hback
    exact ⟨rs, rs', between, strays, rfl, rfl, hqs, hne, tagsAt_of_linear hbetween,
      hover.swallowed.swallowed hstrays⟩

/-! ## Templates -/

namespace Body

/-- The texts of a template, in all its bodies, and those of each cell in the body of that cell. -/
inductive Texts : Body → Template → Prop where
  | intro {b : Body} {t : Template} (hbodies : ∀ sec, t.Holds sec → sec.TextsIn b.positions)
      (hcells : List.Forall₂ (Grid.Mirrors Texts) b.tables t.tables) : Texts b t

theorem texts_of_parse {s : Setting} {b : Body} {t : Template} (h : (b.parse s).result = .ok t) :
    b.Texts t := by
  induction b using cellInduction generalizing t with
  | h b cells =>
    refine .intro ?_ (mirrors_of_cells h ?_)
    · intro sec hsec
      rw [b.result_parse s] at h
      have hlaid : sec.LaidIn (linear (linearPositions b)) := Template.allLaidIn h sec hsec
      rw [b.positions_eq_linearPositions]
      exact hlaid.textsIn
    · -- A cell is parsed like a body, and its texts stand in that body.
      intro id rows hmem row hrow cell hcell u hu
      exact cells id rows hmem row hrow cell hcell hu

end Body

/-! ## Bodies without tags -/

/-- All tags are in one namespace. -/
theorem Keyword.namespace_prefix_spelling (k : Keyword) : "m:".toList <+: k.spelling.toList := by
  cases k <;> decide +kernel

/-- No complete field among the positions says something in the namespace of the tags. -/
def NoTagsIn (ps : List Position) : Prop :=
  ∀ (f : Field) (qs rest : List Position), qs <:+ ps → f.StandsAt qs rest →
    ¬ "m:".toList <+: f.instruction

theorem noTagsIn_iff {ps : List Position} :
    NoTagsIn ps ↔
      ∀ qs ∈ ps.tails, ∀ f ∈ (readField qs).1.toOption, ¬ "m:".toList <+: f.instruction := by
  constructor
  · intro h qs hqs f hf
    cases hread : readField qs with
    | mk answer rest =>
      rw [hread] at hf
      cases answer with
      | error e => cases hf
      | ok f' =>
        cases hf
        exact h f qs rest ((List.mem_tails qs ps).mp hqs) (Field.standsAt_of_readField hread)
  · intro h f qs rest hqs hfield
    apply h qs ((List.mem_tails qs ps).mpr hqs)
    rw [hfield.readField]
    rfl

instance (ps : List Position) : Decidable (NoTagsIn ps) := decidable_of_iff' _ noTagsIn_iff

theorem NoTagsIn.not_mem_linear {ps : List Position} (h : NoTagsIn ps) (k : Keyword) (f : Field) :
    Token.tag k f ∉ linear ps := by
  intro hmem
  obtain ⟨us, vs, hlinear⟩ := List.append_of_mem hmem
  obtain ⟨front, qs, rfl, -, hqs⟩ := linear_eq_append hlinear
  -- The tag is the first token of what stands behind the cut.
  have hkind : classify qs = .tag k := by
    rw [classify_eq_head, hqs]
    rfl
  obtain ⟨f', rest, hread, hkeyword⟩ := classify_eq_tag_iff.mp hkind
  apply h f' qs rest (List.suffix_append front qs) (Field.standsAt_of_readField hread)
  exact k.namespace_prefix_spelling.trans (Keyword.prefix_of_match? hkeyword)

namespace Body

variable {s : Setting} {b : Body}

/-- Without tables and tags every token is a plain run. -/
theorem linearTokens_of_noTags (htables : b.tables = []) (htags : NoTagsIn b.positions) :
    b.linearTokens = (b.runs.map Run.id).map .text := by
  have htable : Token.tablesOf b.linearTokens = [] := by
    rw [b.tablesOf_linearTokens, htables, List.map_nil]
  rw [b.positions_eq_linearPositions] at htags
  obtain ⟨xs, rest, htokens, hbehind, -⟩ := Token.exists_leading_texts b.linearTokens
  -- The first token behind the plain runs could only be a tag or a table.
  obtain rfl : rest = [] := by
    cases rest with
    | nil => rfl
    | cons t rest =>
      have hmem : t ∈ b.linearTokens := htokens ▸ List.mem_append_right _ List.mem_cons_self
      cases t with
      | text x => exact absurd rfl hbehind
      | tag k f => exact absurd hmem (htags.not_mem_linear k f)
      | table id rows => cases List.filterMap_eq_nil_iff.mp htable _ hmem
  have hruns := b.runsOf_linearTokens
  rw [htokens, List.append_nil] at hruns ⊢
  rw [← hruns, Token.runsOf_texts]

/-- Plain runs become one text. -/
theorem result_of_texts {xs : List RunId} (hlimit : 0 < s.limit)
    (htokens : b.linearTokens = xs.map .text) (hne : xs ≠ []) :
    (b.parse s).result = .ok ⟨{}, [.text { runs := xs }]⟩ := by
  -- The runs are pending until the body ends, and then they become a text.
  have hstretch : xs.reverse ++ (Progress.fresh 0).stretch = xs.reverse := List.append_nil _
  rw [b.result_parse, Template.ofTokens_eq_fresh hlimit, htokens,
    ← List.append_nil (xs.map Token.text), Progress.templateAfter_text rfl,
    Progress.templateAfter_nil, hstretch, Progress.finish,
    Progress.settle_of_ne_nil (List.reverse_ne_nil_iff.mpr hne), List.reverse_reverse]
  rfl

/-- **The texts of a template.** A text has at least one run, its runs are consecutive positions of
the body, and it has no closing runs, no style run and no problems. Two texts stand next to each
other in a body only if stray tags that the tag of this body has swallowed lie right between them.
This holds of the template, of every body inside of it, and in the same way of every cell. A body
with runs, but without tables and tags, has one text, in which all its runs are in order, and no
problems. -/
theorem parse_texts (s : Setting) (b : Body) :
    (∀ t, (b.parse s).result = .ok t → b.Texts t) ∧
      (0 < s.limit → b.tables = [] → NoTagsIn b.positions → b.runs ≠ [] →
        (b.parse s).result = .ok ⟨{}, [.text { runs := b.runs.map Run.id }]⟩) := by
  constructor
  · intro t ht
    exact texts_of_parse ht
  · intro hlimit htables htags hruns
    apply result_of_texts hlimit (linearTokens_of_noTags htables htags)
    exact fun hnil => hruns (List.map_eq_nil_iff.mp hnil)

/-- Strays between texts: two of them in the template, one in the repetition, and one in a cell. -/
def straysBetween : Body :=
  Draft.build
    [.paragraph [.text "a", .field ["PAGE"], .field ["m:endif"], .field ["m:else"], .text "b",
        .field ["m:for x | xs"], .text "c", .field ["m:endif"], .text "d"],
      .table [[[.paragraph [.field ["m:endfor"], .text "e", .field ["m:elseif"], .text "f"]]]],
      .paragraph [.field ["m:endfor"]]]

/-- Text around a field of another namespace, and a field that nothing closes. -/
def plainFields : Body :=
  Draft.build [.paragraph [.text "a", .field ["PA", "GE"], .text "b"], .paragraph [.opening]]

theorem parse_texts_straysBetween :
    (∃ t, (straysBetween.parse { compile := .fixed [] }).result = .ok t ∧
      t.tag.runs = [4, 5, 6, 7, 8, 9] ∧ t.body.length = 3 ∧ straysBetween.Texts t) ∧
    (plainFields.tables = [] ∧ NoTagsIn plainFields.positions ∧ plainFields.runs ≠ [] ∧
      (plainFields.parse { compile := .fixed [] }).result =
        .ok ⟨{}, [.text { runs := [0, 1, 2, 3, 4, 5, 6] }]⟩) := by
  constructor
  · have hok : (straysBetween.parse { compile := .fixed [] }).result.toOption.map
        (fun t => (t.tag.runs, t.body.length)) = some ([4, 5, 6, 7, 8, 9], 3) := by decide +kernel
    obtain ⟨t, ht, hcomputed⟩ := exists_of_toOption_map hok
    obtain ⟨hruns, hlength⟩ := Prod.mk.inj hcomputed
    exact ⟨t, ht, hruns, hlength, (parse_texts { compile := .fixed [] } straysBetween).1 t ht⟩
  · have htables : plainFields.tables = [] := by rfl
    have htags : NoTagsIn plainFields.positions := by decide +kernel
    have hruns : plainFields.runs ≠ [] := by decide +kernel
    refine ⟨htables, htags, hruns, ?_⟩
    exact (parse_texts { compile := .fixed [] } plainFields).2 (by decide) htables htags hruns

end Body

end DocTemplate
