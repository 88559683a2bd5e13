import DocTemplate.Proofs.DiagramOptions
import DocTemplate.Proofs.ImageValidity
import DocTemplate.Proofs.MaximalTexts

/-!
# The keyword of a tag and what stands behind it

Which kind of tag a field is, is told by looking ahead; what the tag says is read later, from the
text of the field, by a reader for tags of this kind that takes off the keyword it expects. Which
reader that is, is settled by the kind alone. All three agree. The keyword that is found first among
those that fit is the longest one that fits, so nothing of a longer keyword is ever taken for the
text behind a shorter one.

## Main statements

- `Keyword.match?_eq_some_iff`: the first keyword that fits is the longest that fits
- `Field.readTag_eq_iff`: a tag is given to the reader for its kind
- `Field.readsFor`: this reader takes off the keyword that the field was told by
- `Body.tags_readFor`: so it is for all tags, wherever the reading of a body starts
-/

namespace DocTemplate

namespace Keyword

/-! ## Longest keywords -/

/-- The longest keyword that a text starts with. -/
structure Longest (k : Keyword) (cs : List Char) : Prop where
  starts : k.spelling.toList <+: cs
  longest : ∀ k' : Keyword, k'.spelling.toList <+: cs →
    k'.spelling.toList.length ≤ k.spelling.toList.length

theorem mem_order (k : Keyword) : k ∈ order := by cases k <;> decide

/-- A keyword is tried before all that it goes on from. -/
theorem pairwise_order :
    order.Pairwise fun k k' => ¬ k.spelling.toList <+: k'.spelling.toList := by
  decide +kernel

theorem spelling_injective {k k' : Keyword} (h : k.spelling.toList = k'.spelling.toList) :
    k = k' := by
  have hall : ∀ k ∈ order, ∀ k' ∈ order, k.spelling.toList = k'.spelling.toList → k = k' := by
    decide +kernel
  exact hall k k.mem_order k' k'.mem_order h

variable {k : Keyword} {cs : List Char}

theorem Longest.eq {k' : Keyword} (h : k.Longest cs) (h' : k'.Longest cs) : k = k' := by
  have hlength := Nat.le_antisymm (h'.longest k h.starts) (h.longest k' h'.starts)
  apply spelling_injective
  exact (List.prefix_of_prefix_length_le h.starts h'.starts hlength.le).eq_of_length hlength

/-- What fits and is tried later is no longer. -/
theorem longest_of_match? (h : match? cs = some k) : k.Longest cs := by
  have hstarts := prefix_of_match? h
  refine ⟨hstarts, ?_⟩
  intro k' hk'
  obtain ⟨-, earlier, later, horder, hearlier⟩ := List.find?_eq_some_iff_append.mp h
  rcases List.prefix_or_prefix_of_prefix hk' hstarts with hle | hge
  · exact hle.length_le
  · have hmem : k' ∈ earlier ++ k :: later := horder ▸ k'.mem_order
    rcases List.mem_append.mp hmem with hbefore | hbehind
    · -- It would have been taken.
      have hnot := hearlier k' hbefore
      rw [Bool.not_eq_true', ← Bool.not_eq_true, List.isPrefixOf_iff_prefix] at hnot
      exact absurd hk' hnot
    · rcases List.mem_cons.mp hbehind with rfl | hlater
      · exact Nat.le_refl _
      · have hpairwise := horder ▸ pairwise_order
        have hnot := (List.pairwise_cons.mp (List.pairwise_append.mp hpairwise).2.1).1 k' hlater
        exact absurd hge hnot

theorem match?_eq_none_iff : match? cs = none ↔ ¬ "m:".toList <+: cs := by
  rw [match?, List.find?_eq_none]
  simp only [List.isPrefixOf_iff_prefix]
  constructor
  · intro h
    exact h .query (mem_order _)
  · intro h k _ hk
    exact h (k.namespace_prefix_spelling.trans hk)

/-- **The first keyword that fits is the longest one that fits.** -/
theorem match?_eq_some_iff : match? cs = some k ↔ k.Longest cs := by
  constructor
  · exact longest_of_match?
  · intro h
    cases hmatch : match? cs with
    | none =>
      exact absurd (k.namespace_prefix_spelling.trans h.starts) (match?_eq_none_iff.mp hmatch)
    | some k' => rw [h.eq (longest_of_match? hmatch)]

theorem strip_append (k : Keyword) (said : List Char) :
    k.strip (k.spelling.toList ++ said) = said := by
  have hbehind : k.spelling.toList.isPrefixOf? (k.spelling.toList ++ said) = some said :=
    List.isPrefixOf?_eq_some_iff_append_eq.mpr rfl
  rw [strip, hbehind, Option.getD_some]

end Keyword

/-! ## Dispatch -/

/-- What becomes of a tag in a reading, by the kind that the tag is told by. A construct or a level
has what the reader for this kind makes of the field; no other rule asks for the text of the
field. -/
inductive Field.Dispatched (s : Setting) (f : Field) (p : Progress) : Keyword → Step → Prop where
  | query : Dispatched s f p .query (.next (p.push (readQuery s f)))
  | image : Dispatched s f p .image (.next (p.push (readImage f)))
  | diagram : Dispatched s f p .diagram (.next (p.push (readDiagram s f)))
  | forEach {h : LoopHeader} (hread : readLoop s f = h) (hlimit : p.depth < s.limit) :
      Dispatched s f p .forEach (.next { p with levels :=
        { purpose := .loop h.iterator h.source, depth := p.depth + 1, header := h.tag } ::
          p.levels })
  | ifThen {condition : Option Expression} {tag : Tag}
      (hread : readCondition s f = (condition, tag)) (hlimit : p.depth < s.limit) :
      Dispatched s f p .ifThen (.next { p with levels :=
        { purpose := .branch [] condition, depth := p.depth + 1, header := tag } :: p.levels })
  /-- A further condition takes the place of the one before. -/
  | elseIf {condition last : Option Expression} {tag : Tag} {l : Level} {ls : List Level}
      {earlier : List (Branch Construct)} (hread : readCondition s f = (condition, tag))
      (hlevels : p.levels = l :: ls) (hpurpose : l.purpose = .branch earlier last)
      (hlimit : l.depth < s.limit) :
      Dispatched s f p .elseIf (.next { p with levels :=
        { purpose := .branch (l.toBranch last :: earlier) condition, depth := l.depth + 1,
          header := tag } :: ls })
  /-- What `m:else` opens has no header but the tag. -/
  | otherwise {last : Option Expression} {l : Level} {ls : List Level}
      {earlier : List (Branch Construct)} (hlevels : p.levels = l :: ls)
      (hpurpose : l.purpose = .branch earlier last) :
      Dispatched s f p .otherwise (.next { p with levels :=
        { purpose := .otherwise earlier (l.toBranch last), depth := l.depth,
          header := Tag.ofField f } :: ls })
  | closes {k : Keyword} {l : Level} {ls : List Level} (hlevels : p.levels = l :: ls)
      (hends : l.endsAt k) : Dispatched s f p k (.next (p.closeLevel ls (l.close f)))
  /-- An end tag that has no place is swallowed. -/
  | strays {k : Keyword} (hterminator : k.isTerminator = true)
      (hnone : advance (.tag k) p.frames = none) : Dispatched s f p k (.next (p.swallow k f))
  /-- What has a place is not opened if the innermost body is as deep as the limit. -/
  | tooDeep {k : Keyword} (hk : k = .forEach ∨ k = .ifThen ∨ k = .elseIf)
      (hplace : advance (.tag k) p.frames ≠ none) (hlimit : s.limit ≤ p.depth) :
      Dispatched s f p k (.fail (.nestingTooDeep s.limit) true p)
  | reserved {k : Keyword} (hk : k = .element ∨ k = .binding) :
      Dispatched s f p k (.fail (.unsupportedTag k f.opening.id) false p)

namespace Field

variable {s : Setting} {f : Field} {p : Progress} {k : Keyword}

theorem dispatched_of_tagStep {q : Progress} (h : TagStep s p k f q) :
    f.Dispatched s p k (.next q) := by
  cases h with
  | single hc =>
    -- Three kinds are read by themselves, and `single?` names their readers.
    cases k <;> cases hc <;> constructor
  | opens hl hlimit =>
    -- The level is written out in the rule: all that it has of the field is what the reader gives.
    cases k <;> cases hl
    · exact .forEach rfl hlimit
    · exact .ifThen rfl hlimit
  | closes hlevels hends => exact .closes hlevels hends
  | elseIf hlevels hpurpose hlimit => exact .elseIf rfl hlevels hpurpose hlimit
  | otherwise hlevels hpurpose => exact .otherwise hlevels hpurpose
  | strays hterminator hnone => exact .strays hterminator hnone

theorem dispatched_of_fail {e : ParseError} {taken : Bool} {q : Progress}
    (h : p.readTag s k f = .fail e taken q) : f.Dispatched s p k (.fail e taken q) := by
  obtain ⟨rfl, ⟨hk, hplace, hlimit, rfl, rfl⟩ | ⟨hk, rfl, rfl⟩⟩ := readTag_eq_fail h
  · exact .tooDeep hk hplace hlimit
  · exact .reserved hk

theorem readTag_of_tooDeep (hk : k = .forEach ∨ k = .ifThen ∨ k = .elseIf)
    (hplace : advance (.tag k) p.frames ≠ none) (hlimit : s.limit ≤ p.depth) :
    p.readTag s k f = .fail (.nestingTooDeep s.limit) true p := by
  rcases hk with rfl | rfl | rfl
  · exact if_pos hlimit
  · exact if_pos hlimit
  · -- A further condition has a place only in a branch, and the branch is the innermost level.
    obtain ⟨l, ls, hlevels, hends | ⟨-, earlier, condition, hpurpose⟩⟩ :=
      exists_level_of_advance rfl hplace
    · rw [Level.endsAt] at hends
      split at hends <;> cases hends
    · have hdepth : p.depth = l.depth := by rw [Progress.depth, hlevels]
      simp only [Progress.readTag, hlevels, hpurpose, if_pos (hdepth ▸ hlimit)]

/-- What a rule says happens. -/
theorem readTag_of_dispatched {step : Step} (h : f.Dispatched s p k step) :
    p.readTag s k f = step := by
  cases h with
  | query | image | diagram => rfl
  | forEach hread hlimit =>
    -- There is room, so that the level is opened.
    subst hread
    exact if_neg (Nat.not_le_of_lt hlimit)
  | ifThen hread hlimit =>
    rw [Progress.readTag, Progress.openLevel, if_neg (Nat.not_le_of_lt hlimit), Level.ofCondition,
      hread]
  | elseIf hread hlevels hpurpose hlimit =>
    rw [readTag_of_tagStep (.elseIf hlevels hpurpose hlimit), Level.ofCondition, hread]
  | otherwise hlevels hpurpose => exact readTag_of_tagStep (.otherwise hlevels hpurpose)
  | closes hlevels hends => exact readTag_of_tagStep (.closes hlevels hends)
  | strays hterminator hnone => exact readTag_of_tagStep (.strays hterminator hnone)
  | tooDeep hk hplace hlimit => exact readTag_of_tooDeep hk hplace hlimit
  | reserved hk => rcases hk with rfl | rfl <;> rfl

/-- **A tag is given to the reader for its kind:** what the rules say is all that can happen. -/
theorem readTag_eq_iff {step : Step} : p.readTag s k f = step ↔ f.Dispatched s p k step := by
  constructor
  · intro hstep
    subst hstep
    cases h : p.readTag s k f with
    | next q => exact dispatched_of_tagStep (readTag_eq_next_iff.mp h)
    | fail e taken q => exact dispatched_of_fail h
  · exact readTag_of_dispatched

end Field

/-! ## Readers -/

/-- A field that says `said` behind the keyword `k`, and what becomes of it: wherever it is read, it
is given to the reader for fields of this kind, and this reader starts from `said`. -/
structure Field.ReadsFor (s : Setting) (f : Field) (k : Keyword) (said : List Char) : Prop where
  instruction : f.instruction = k.spelling.toList ++ said
  longest : k.Longest f.instruction
  strip : k.strip f.instruction = said
  /-- The tag ends the stretch of plain text. -/
  token : ∀ p : Progress, readToken s (.tag k f) p = p.settle.readTag s k f
  /-- Then its kind settles which reader is asked. -/
  dispatch : ∀ (p : Progress) (step : Step), p.readTag s k f = step ↔ f.Dispatched s p k step
  /-- The word at the end of a query and the expression before it. -/
  query : k = .query → ∃ expression tag,
    s.compileFor (Tag.ofField f) ((Tag.ofField f).styleRun <|> (Tag.ofField f).anchor?)
      (String.ofList (Text.trim (splitDisplay said).1)) = (expression, tag) ∧
    readQuery s f = .query tag expression (splitDisplay said).2
  /-- A repetition without a bar. -/
  noBar : k = .forEach → splitBar? said = none →
    readLoop s f = { tag := (Tag.ofField f).report .loopWithoutSeparator (Tag.ofField f).anchor? }
  /-- The variable and the source of a repetition, before and behind the bar. -/
  loop : k = .forEach → ∀ name source, splitBar? said = some (name, source) →
    (readLoop s f).iterator =
      (if (Text.trim name).isEmpty then none else some (String.ofList (Text.trim name))) ∧
    (readLoop s f).source =
      if (Text.trim source).isEmpty then none
      else (s.compileFor (Tag.ofField f) (Tag.ofField f).anchor?
        (String.ofList (Text.trim source))).1
  /-- The condition, for either of the two keywords. -/
  condition : k = .ifThen ∨ k = .elseIf → readCondition s f =
    s.compileFor (Tag.ofField f) (Tag.ofField f).anchor? (String.ofList (Text.trim said))
  /-- The options of an image or a diagram. -/
  options : readOptions k.spelling.toList f.instruction = readOptionList (Text.trim said)
  /-- What an image reports and what it takes over, of these options. -/
  image : k = .image → ∃ options causes, readOptionList (Text.trim said) = (options, causes) ∧
    readImage f = .image ((Tag.ofField f).reportAll (causes ++ imageCauses options))
      (imageOptions options)
  /-- The same for a diagram, without a provider that draws it or with one. -/
  diagram : k = .diagram → ∃ options causes, readOptionList (Text.trim said) = (options, causes) ∧
    ((∃ cause, s.providers.CannotDraw options cause ∧
        readDiagram s f =
          .diagram ((Tag.ofField f).reportAll (causes ++ [cause])) {} none {}) ∨
      ∃ p, s.providers.Draws options p ∧
        readDiagram s f =
          .diagram ((Tag.ofField f).reportAll (causes ++ diagramCauses s p options))
            (applyImageOptions options {}).1 (some p.name) (s.extrasFor p options))

theorem Setting.compileFor_fst (s : Setting) (tag tag' : Tag) (anchor : Option RunId)
    (source : String) :
    (s.compileFor tag anchor source).1 = (s.compileFor tag' anchor source).1 := by
  simp only [compileFor]
  split <;> rfl

section Readers

variable {s : Setting} {f : Field} {said : List Char}

theorem readQuery_of_strip (h : Keyword.query.strip f.instruction = said) :
    ∃ expression tag,
      s.compileFor (Tag.ofField f) ((Tag.ofField f).styleRun <|> (Tag.ofField f).anchor?)
        (String.ofList (Text.trim (splitDisplay said).1)) = (expression, tag) ∧
      readQuery s f = .query tag expression (splitDisplay said).2 := by
  refine ⟨_, _, Prod.mk.eta.symm, ?_⟩
  rw [readQuery, h]

theorem readLoop_of_noBar (h : Keyword.forEach.strip f.instruction = said)
    (hbar : splitBar? said = none) :
    readLoop s f =
      { tag := (Tag.ofField f).report .loopWithoutSeparator (Tag.ofField f).anchor? } := by
  rw [readLoop, h, hbar]

theorem readLoop_of_bar (h : Keyword.forEach.strip f.instruction = said) {name source : List Char}
    (hbar : splitBar? said = some (name, source)) :
    (readLoop s f).iterator =
      (if (Text.trim name).isEmpty then none else some (String.ofList (Text.trim name))) ∧
    (readLoop s f).source =
      if (Text.trim source).isEmpty then none
      else (s.compileFor (Tag.ofField f) (Tag.ofField f).anchor?
        (String.ofList (Text.trim source))).1 := by
  rw [readLoop, h, hbar]
  dsimp only
  constructor
  · split <;> rfl
  · -- Whether the variable is missing changes the tag, but not the source.
    split <;> split
    · rfl
    · rfl
    · exact s.compileFor_fst _ _ _ _
    · exact s.compileFor_fst _ _ _ _

/-- The keyword that a condition is read with is the one of its field, since `m:elseif` does not
start with `m:if`. -/
theorem readCondition_of_append {k : Keyword} (hk : k = .ifThen ∨ k = .elseIf)
    (h : f.instruction = k.spelling.toList ++ said) :
    readCondition s f =
      s.compileFor (Tag.ofField f) (Tag.ofField f).anchor? (String.ofList (Text.trim said)) := by
  have hkeyword : (if Keyword.ifThen.spelling.toList.isPrefixOf f.instruction then Keyword.ifThen
      else .elseIf) = k := by
    rw [h]
    rcases hk with rfl | rfl <;> simp [Keyword.spelling]
  rw [readCondition, hkeyword, h, k.strip_append]

theorem readOptions_of_append {keyword : List Char} (h : f.instruction = keyword ++ said) :
    readOptions keyword f.instruction = readOptionList (Text.trim said) := by
  have hbehind : keyword.isPrefixOf? f.instruction = some said :=
    List.isPrefixOf?_eq_some_iff_append_eq.mpr h.symm
  rw [readOptions, f.trim_instruction, hbehind]

/-- What stands behind a keyword is the spelling of one list of options, and read as this list. -/
theorem exists_optionList {keyword : List Char} (h : f.instruction = keyword ++ said) :
    ∃ l : OptionList, l.spelling = Text.trim said ∧
      readOptionList (Text.trim said) = (l.options, l.causes) := by
  obtain ⟨l, hl, -⟩ := OptionList.exists_unique_spelling (Text.trim said)
  refine ⟨l, hl, ?_⟩
  rw [← readOptions_of_append h, f.readOptions_eq h hl]

theorem readImage_of_append (h : f.instruction = Keyword.image.spelling.toList ++ said) :
    ∃ options causes, readOptionList (Text.trim said) = (options, causes) ∧
      readImage f = .image ((Tag.ofField f).reportAll (causes ++ imageCauses options))
        (imageOptions options) := by
  obtain ⟨l, hl, hread⟩ := exists_optionList h
  exact ⟨l.options, l.causes, hread, readImage_eq h hl⟩

theorem readDiagram_of_append (s : Setting)
    (h : f.instruction = Keyword.diagram.spelling.toList ++ said) :
    ∃ options causes, readOptionList (Text.trim said) = (options, causes) ∧
      ((∃ cause, s.providers.CannotDraw options cause ∧
          readDiagram s f =
            .diagram ((Tag.ofField f).reportAll (causes ++ [cause])) {} none {}) ∨
        ∃ p, s.providers.Draws options p ∧
          readDiagram s f =
            .diagram ((Tag.ofField f).reportAll (causes ++ diagramCauses s p options))
              (applyImageOptions options {}).1 (some p.name) (s.extrasFor p options)) := by
  obtain ⟨l, hl, hread⟩ := exists_optionList h
  refine ⟨l.options, l.causes, hread, ?_⟩
  rcases cannotDraw_or_draws s.providers l.options with ⟨cause, hcause⟩ | ⟨p, hp⟩
  · exact .inl ⟨cause, hcause, readDiagram_of_cannotDraw h hl hcause⟩
  · exact .inr ⟨p, hp, readDiagram_of_draws h hl hp⟩

/-- **A reader takes off the keyword that the field was told by.** -/
theorem Field.readsFor {k : Keyword} (s : Setting) (h : Keyword.match? f.instruction = some k) :
    ∃ said, f.ReadsFor s k said := by
  have hlongest := Keyword.longest_of_match? h
  obtain ⟨said, hsaid⟩ := hlongest.starts
  have hstrip : k.strip f.instruction = said := by rw [← hsaid, k.strip_append]
  refine ⟨said, ?_⟩
  constructor
  case instruction => exact hsaid.symm
  case longest => exact hlongest
  case strip => exact hstrip
  case token =>
    intro p
    rw [readToken]
  case dispatch =>
    intro p step
    exact readTag_eq_iff
  case query =>
    rintro rfl
    exact readQuery_of_strip hstrip
  case noBar =>
    rintro rfl
    exact readLoop_of_noBar hstrip
  case loop =>
    rintro rfl name source
    exact readLoop_of_bar hstrip
  case condition =>
    intro hk
    exact readCondition_of_append hk hsaid.symm
  case options => exact readOptions_of_append hsaid.symm
  case image =>
    rintro rfl
    exact readImage_of_append hsaid.symm
  case diagram =>
    rintro rfl
    exact readDiagram_of_append s hsaid.symm

end Readers

/-! ## All tags -/

/-- What a tag of a body says is told by its own text, and so it is from any place on. -/
theorem match?_of_mem_leavesOf {k : Keyword} {f : Field} (b : Body) (i : Nat)
    (h : Token.tag k f ∈ Token.leavesOf (linear (b.positions.drop i))) :
    Keyword.match? f.instruction = some k := by
  induction b using Body.cellInduction generalizing i with
  | h b cells =>
    rw [Token.leavesOf_eq_flatMap] at h
    obtain ⟨t, ht, hleaf⟩ := List.mem_flatMap.mp h
    cases t with
    | text r => simp [Token.leaves] at hleaf
    | tag k' f' =>
      rw [Token.leaves, List.mem_singleton] at hleaf
      cases hleaf
      exact match?_of_mem_linear ht
    | table id rows =>
      have hposition := (List.drop_sublist ..).subset (mem_linear_table.mp ht)
      rw [b.positions_eq_linearPositions] at hposition
      obtain ⟨bodies, htable, rfl⟩ := Body.mem_linearPositions_table.mp hposition
      rw [Token.leaves, Token.leavesOfRows_eq_flatMap, Body.linearRows_eq_map] at hleaf
      obtain ⟨row, hrow, hleaf⟩ := List.mem_flatMap.mp hleaf
      obtain ⟨c, hc, hleaf⟩ := List.mem_flatMap.mp hleaf
      obtain ⟨bodyRow, hbodyRow, rfl⟩ := List.mem_map.mp hrow
      obtain ⟨cell, hcell, rfl⟩ := List.mem_map.mp hc
      apply cells id bodies htable bodyRow hbodyRow cell hcell 0
      rwa [List.drop_zero, cell.positions_eq_linearPositions]

/-- **The keyword that a tag is told by is the one that its reader takes off.** Of any text the
first keyword that fits is the longest that fits, and none fits just where it does not start with
`m:`. At any place where looking ahead tells a tag, a whole field stands, and it is the next token.
Wherever the reading of a body starts, every tag that it comes to, at that place or later or in a
cell, says something behind the keyword that it is told by. Whatever is open then, it is the reader
for its kind that gets the tag, and this reader starts from what is said. -/
theorem Body.tags_readFor (s : Setting) (b : Body) :
    (∀ cs, (Keyword.match? cs = none ↔ ¬ "m:".toList <+: cs) ∧
      ∀ k, Keyword.match? cs = some k ↔ k.Longest cs) ∧
    (∀ ps k, classify ps = .tag k → ∃ f after said, readField ps = (.ok f, after) ∧
      scan ps = .tag k f :: scan after ∧ f.ReadsFor s k said) ∧
    ∀ i k f, Token.tag k f ∈ Token.leavesOf (scan (b.positions.drop i)) →
      ∃ said, f.ReadsFor s k said := by
  refine ⟨fun cs => ⟨Keyword.match?_eq_none_iff, fun k => Keyword.match?_eq_some_iff⟩, ?_, ?_⟩
  · intro ps k hkind
    obtain ⟨f, after, hread, hkeyword⟩ := classify_eq_tag_iff.mp hkind
    obtain ⟨said, hsaid⟩ := Field.readsFor s hkeyword
    refine ⟨f, after, said, hread, ?_, hsaid⟩
    rw [scan_eq_linear, scan_eq_linear, linear_tag hread hkeyword]
  · intro i k f hmem
    rw [scan_eq_linear] at hmem
    exact Field.readsFor s (match?_of_mem_leavesOf b i hmem)

/-- A field that is cut inside its keyword, behind a shorter one. -/
def cutElseIf : Field where
  opening := { id := 0, mark := some .opening }
  inner := [{ id := 1, fragments := [" m:else"] }, { id := 2, fragments := ["if x "] }]
  closing := { id := 3, mark := some .closing }

/-- A body of this field alone. -/
def Body.ofCutElseIf : Body :=
  [.paragraph (cutElseIf.opening :: cutElseIf.inner ++ [cutElseIf.closing])]

/-- The longer keyword is told and taken off. -/
theorem Body.tags_readFor_cutElseIf :
    classify ofCutElseIf.positions = .tag .elseIf ∧
      Token.tag .elseIf cutElseIf ∈ Token.leavesOf (scan (ofCutElseIf.positions.drop 0)) ∧
      ∀ s : Setting, readCondition s cutElseIf =
        s.compileFor (Tag.ofField cutElseIf) (Tag.ofField cutElseIf).anchor? "x" := by
  have hkind : classify ofCutElseIf.positions = .tag .elseIf := by decide +kernel
  have hmem : Token.tag .elseIf cutElseIf ∈
      Token.leavesOf (scan (ofCutElseIf.positions.drop 0)) := by
    obtain ⟨f, after, said, hread, hscan, -⟩ :=
      (tags_readFor { compile := .fixed [] } ofCutElseIf).2.1 _ _ hkind
    have hfield : readField ofCutElseIf.positions = (.ok cutElseIf, []) := rfl
    rw [hfield] at hread
    cases hread
    rw [List.drop_zero, hscan]
    exact List.mem_cons_self
  refine ⟨hkind, hmem, fun s => ?_⟩
  obtain ⟨said, hsaid⟩ := (tags_readFor s ofCutElseIf).2.2 0 .elseIf cutElseIf hmem
  have htext : cutElseIf.instruction = Keyword.elseIf.spelling.toList ++ " x".toList := by
    decide +kernel
  have hsame : said = " x".toList :=
    List.append_cancel_left (hsaid.instruction.symm.trans htext)
  rw [hsaid.condition (.inr rfl), hsame]
  rfl

end DocTemplate
