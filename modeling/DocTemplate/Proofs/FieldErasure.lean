import DocTemplate.Document.Draft
import DocTemplate.Proofs.Recovery

/-!
# Bodies without the stray fields

Deleting the runs of the stray fields from a body deletes just the stray tags from its tokens. For
this no field may open inside another: the first closing mark after an opening mark may otherwise be
the end of a stray field inside, and with that field deleted the outer one would end elsewhere. Then
recovery from stray tags is seen to be what its name says: the template is the one of the body in
which they never stood.

## Main statements

- `linear_erase`: deleting the stray fields from positions deletes the stray tags from their tokens
- `styleRun?_isSome`: a tag with a body has a style run
- `Body.parse_withoutStrays`: recovery from stray tags is deletion
-/

namespace DocTemplate

/-! ## Deleting runs -/

namespace Body

mutual

/-- The body without the runs that are gone. -/
def erase (gone : RunId → Bool) : List Element → List Element
  | [] => []
  | e :: es => eraseElement gone e :: erase gone es

/-- The same for a paragraph or a table. -/
def eraseElement (gone : RunId → Bool) : Element → Element
  | .paragraph runs => .paragraph (runs.filter (fun r => !gone r.id))
  | .table id rows => .table id (eraseRows gone rows)

/-- The same for the rows of a table. -/
def eraseRows (gone : RunId → Bool) : List (List (List Element)) → List (List (List Element))
  | [] => []
  | r :: rs => eraseCells gone r :: eraseRows gone rs

/-- The same for the cells of a row. -/
def eraseCells (gone : RunId → Bool) : List (List Element) → List (List Element)
  | [] => []
  | c :: cs => erase gone c :: eraseCells gone cs

end

theorem eraseCells_eq_map (gone : RunId → Bool) (cells : List (List Element)) :
    eraseCells gone cells = cells.map (erase gone) := by
  induction cells with
  | nil => rfl
  | cons c cs ih => rw [eraseCells, ih, List.map_cons]

theorem eraseRows_eq_map (gone : RunId → Bool) (rows : List (List (List Element))) :
    eraseRows gone rows = rows.map (fun r => r.map (erase gone)) := by
  induction rows with
  | nil => rfl
  | cons r rs ih => rw [eraseRows, ih, List.map_cons, eraseCells_eq_map]

end Body

/-- What is left of a position: nothing of a run that is gone, and of a table what is left of its
cells. -/
def Position.erase (gone : RunId → Bool) : Position → List Position
  | .run r => if gone r.id then [] else [.run r]
  | .table id rows => [.table id (Token.pruneRows rows)]

/-! ## Fields do not overlap -/

/-- No field opens inside another: where a run opens a field and the next closing mark comes before
any table, no run in between opens a field. -/
def FlatFields (ps : List Position) : Prop :=
  ∀ (before : List Position) (opening : Run) (inner : List Run) (closing : Run)
    (after : List Position),
    ps = before ++ .run opening :: (inner.map Position.run ++ .run closing :: after) →
    opening.isOpening = true → (∀ r ∈ inner, r.isClosing = false) → closing.isClosing = true →
    ∀ r ∈ inner, r.isOpening = false

theorem FlatFields.of_append (before : List Position) {ps : List Position}
    (h : FlatFields (before ++ ps)) : FlatFields ps := by
  rintro before' opening inner closing after rfl
  exact h (before ++ before') opening inner closing after (List.append_assoc ..).symm

theorem FlatFields.tail {p : Position} {ps : List Position} (h : FlatFields (p :: ps)) :
    FlatFields ps := FlatFields.of_append [p] h

/-! ## Looking ahead -/

/-- The runs that tell whether a field ends: up to the next closing mark, or up to a table or the
end. -/
def runsAhead : List Position → List Run
  | .run r :: ps => if r.isClosing then [r] else r :: runsAhead ps
  | _ => []

theorem exists_of_peekInstruction {ps : List Position} {cs : List Char}
    (h : peekInstruction ps = some cs) :
    ∃ inner closing after, ps = inner.map Position.run ++ .run closing :: after ∧
      (∀ r ∈ inner, r.isClosing = false) ∧ closing.isClosing = true ∧
      runsAhead ps = inner ++ [closing] := by
  induction ps generalizing cs with
  | nil => cases h
  | cons p ps ih =>
    cases p with
    | table id rows => cases h
    | run r =>
      rw [peekInstruction] at h
      cases hr : r.isClosing with
      | true => exact ⟨[], r, ps, rfl, by simp, hr, by simp [runsAhead, hr]⟩
      | false =>
        rw [hr, if_neg (by simp)] at h
        obtain ⟨cs', hcs', -⟩ := Option.map_eq_some_iff.mp h
        obtain ⟨inner, closing, after, rfl, hinner, hclosing, hahead⟩ := ih hcs'
        refine ⟨r :: inner, closing, after, rfl, ?_, hclosing, ?_⟩
        · exact List.forall_mem_cons.mpr ⟨hr, hinner⟩
        · simp [runsAhead, hr, hahead]

theorem Run.not_isClosing_of_isOpening {r : Run} (h : r.isOpening = true) : r.isClosing = false := by
  simp only [isOpening, decide_eq_true_eq] at h
  simp [isClosing, h]

/-- After an opening mark, no field opens before the next closing mark, or there is none to come. -/
theorem FlatFields.runsAhead {r : Run} {ps : List Position} (h : FlatFields (.run r :: ps))
    (hr : r.isOpening = true) :
    peekInstruction ps = none ∨ ∀ x ∈ DocTemplate.runsAhead ps, x.isOpening = false := by
  cases hpeek : peekInstruction ps with
  | none => exact .inl rfl
  | some cs =>
    right
    obtain ⟨inner, closing, after, rfl, hinner, hclosing, hahead⟩ := exists_of_peekInstruction hpeek
    intro x hx
    rw [hahead] at hx
    rcases List.mem_append.mp hx with hx | hx
    · exact h [] r inner closing after rfl hr hinner hclosing x hx
    · rw [List.mem_singleton.mp hx]
      cases hopening : closing.isOpening with
      | false => rfl
      | true => rw [Run.not_isClosing_of_isOpening hopening] at hclosing; cases hclosing

theorem runsAhead_field {inner : List Run} {closing : Run} (hinner : ∀ r ∈ inner, r.isClosing = false)
    (hclosing : closing.isClosing = true) (after : List Position) :
    runsAhead (inner.map Position.run ++ .run closing :: after) = inner ++ [closing] ∧
      (peekInstruction (inner.map Position.run ++ .run closing :: after)).isSome = true := by
  induction inner with
  | nil => simp [runsAhead, peekInstruction, hclosing]
  | cons r rs ih =>
    obtain ⟨hr, hrs⟩ := List.forall_mem_cons.mp hinner
    obtain ⟨hahead, hpeek⟩ := ih hrs
    simp [runsAhead, peekInstruction, hr, hahead, hpeek]

/-- The test whether no field opens inside another. -/
def isFlat : List Position → Bool
  | [] => true
  | .table .. :: ps => isFlat ps
  | .run r :: ps =>
    (!r.isOpening || (peekInstruction ps).isNone || (runsAhead ps).all (fun x => !x.isOpening)) &&
      isFlat ps

theorem flatFields_iff {ps : List Position} : FlatFields ps ↔ isFlat ps = true := by
  constructor
  · intro h
    induction ps with
    | nil => rfl
    | cons p ps ih =>
      have htail := ih h.tail
      cases p with
      | table id rows => exact htail
      | run r =>
        rw [isFlat, htail, Bool.and_true]
        cases hr : r.isOpening with
        | false => rfl
        | true => rcases h.runsAhead hr with hnone | hflat <;> simp_all
  · intro h before opening inner closing after hps hopening hinner hclosing x hx
    induction before generalizing ps with
    | nil =>
      obtain ⟨hahead, hpeek⟩ := runsAhead_field hinner hclosing after
      subst hps
      rw [List.nil_append, isFlat, hahead, hopening, Bool.and_eq_true] at h
      have hnone : (peekInstruction (inner.map Position.run ++ .run closing :: after)).isNone =
          false := by rw [Option.isNone_eq_false_iff, hpeek]
      rw [hnone] at h
      have hall : (∀ y ∈ inner, y.isOpening = false) ∧ closing.isOpening = false := by
        simpa using h.1
      exact hall.1 x hx
    | cons p before ih =>
      subst hps
      cases p with
      | table id rows =>
        rw [List.cons_append, isFlat] at h
        exact ih h rfl
      | run r =>
        rw [List.cons_append, isFlat, Bool.and_eq_true] at h
        exact ih h.2 rfl

instance (ps : List Position) : Decidable (FlatFields ps) := decidable_of_iff _ flatFields_iff.symm

/-- Deleting runs that are not ahead does not change what is seen ahead. -/
theorem peekInstruction_erase {gone : RunId → Bool} {ps : List Position}
    (h : ∀ x ∈ runsAhead ps, gone x.id = false) :
    peekInstruction (ps.flatMap (Position.erase gone)) = peekInstruction ps := by
  induction ps with
  | nil => rfl
  | cons p ps ih =>
    cases p with
    | table id rows => rfl
    | run r =>
      have hr : gone r.id = false := h r (by rw [runsAhead]; split <;> simp)
      rw [List.flatMap_cons, Position.erase, hr, if_neg (by simp), List.singleton_append,
        peekInstruction, peekInstruction]
      split
      · rfl
      next hnot =>
        rw [ih]
        intro x hx
        apply h
        rw [runsAhead, if_neg hnot]
        exact List.mem_cons_of_mem _ hx

/-! ## Tokens of what is left -/

section Tokens

variable {gone : RunId → Bool} {fs : List Frame}

/-- A run of plain text is kept. -/
theorem Separates.text {r : Run} {ps : List Position} (htext : classify (.run r :: ps) = .text)
    (h : Separates gone fs (linear (.run r :: ps))) :
    gone r.id = false ∧ Separates gone fs (linear ps) := by
  rw [linear_text htext] at h
  refine ⟨h.head.2 r.id ?_, h.tail⟩
  rw [Token.pruneAt, Token.runsOf_text]
  exact List.mem_cons_self

/-- The runs ahead are plain text, and so none of them is gone. -/
theorem Separates.runsAhead {ps : List Position}
    (hopen : peekInstruction ps = none ∨ ∀ x ∈ runsAhead ps, x.isOpening = false)
    (h : Separates gone fs (linear ps)) : ∀ x ∈ DocTemplate.runsAhead ps, gone x.id = false := by
  induction ps with
  | nil => simp [DocTemplate.runsAhead]
  | cons p ps ih =>
    cases p with
    | table id rows => simp [DocTemplate.runsAhead]
    | run r =>
      cases hclosing : r.isClosing with
      | true =>
        have hnot : r.isOpening = false := by
          cases hopening : r.isOpening with
          | false => rfl
          | true => rw [Run.not_isClosing_of_isOpening hopening] at hclosing; cases hclosing
        have hr := (h.text (classify_of_not_isOpening hnot ps)).1
        simpa [DocTemplate.runsAhead, hclosing] using hr
      | false =>
        have hahead : DocTemplate.runsAhead (.run r :: ps) = r :: DocTemplate.runsAhead ps := by
          simp [DocTemplate.runsAhead, hclosing]
        rw [hahead] at hopen ⊢
        rw [peekInstruction, hclosing, if_neg (by simp), Option.map_eq_none_iff] at hopen
        -- Either no field that opens here ends, or none opens.
        have htext : classify (.run r :: ps) = .text := by
          rcases hopen with hnone | hflat
          · exact classify_of_peekInstruction_eq_none hnone
          · exact classify_of_not_isOpening (hflat r List.mem_cons_self) ps
        obtain ⟨hr, hrest⟩ := h.text htext
        have hopen' := hopen.imp_right fun hflat x hx => hflat x (List.mem_cons_of_mem _ hx)
        exact List.forall_mem_cons.mpr ⟨hr, ih hopen' hrest⟩

/-- A run that is plain text stays so when stray fields behind it are deleted. -/
theorem classify_erase {r : Run} {ps : List Position} (hflat : FlatFields (.run r :: ps))
    (htext : classify (.run r :: ps) = .text) (h : Separates gone fs (linear ps)) :
    classify (.run r :: ps.flatMap (Position.erase gone)) = .text := by
  cases hr : r.isOpening with
  | false => exact classify_of_not_isOpening hr _
  | true =>
    -- All that decides about the field lies ahead of it, and nothing of that is deleted.
    have hkept := Separates.runsAhead (hflat.runsAhead hr) h
    rw [classify] at htext ⊢
    rwa [peekInstruction_erase hkept]

theorem flatMap_erase_runs (gone : RunId → Bool) (rs : List Run) :
    (rs.map Position.run).flatMap (Position.erase gone) =
      (rs.filter (fun r => !gone r.id)).map Position.run := by
  induction rs with
  | nil => rfl
  | cons r rs ih => cases hr : gone r.id <;> simp [Position.erase, hr, ih]

/-- The positions of a field, with what is left of it. -/
theorem erase_field (f : Field) (rest : List Position) :
    (Position.run f.opening :: (f.inner.map Position.run ++ .run f.closing :: rest)).flatMap
        (Position.erase gone) =
      (((f.opening :: f.inner) ++ [f.closing]).filter (fun r => !gone r.id)).map Position.run ++
        rest.flatMap (Position.erase gone) := by
  have hsplit : Position.run f.opening :: (f.inner.map Position.run ++ .run f.closing :: rest) =
      (((f.opening :: f.inner) ++ [f.closing]).map Position.run) ++ rest := by simp
  rw [hsplit, List.flatMap_append, flatMap_erase_runs]

/-- **Deleting the stray fields from positions deletes the stray tags from their tokens.** -/
theorem linear_erase (ps : List Position) (hflat : FlatFields ps)
    (h : Separates gone fs (linear ps)) :
    linear (ps.flatMap (Position.erase gone)) = Token.prune fs (linear ps) := by
  induction ps using linear_induction generalizing fs with
  | nil => simp [linear_nil, Token.prune]
  | table id rows ps ih =>
    rw [linear_table] at h
    rw [List.flatMap_cons, Position.erase, List.singleton_append, linear_table, linear_table,
      Token.prune, Token.pruneAt, List.singleton_append]
    congr 1
    exact ih hflat.tail h.tail
  | tag ps f rest k hf hk ih =>
    obtain ⟨hps, hopening, hinner, hclosing⟩ := readField_eq_ok hf
    rw [linear_tag hf hk] at h ⊢
    have hrest : FlatFields rest := by
      apply FlatFields.of_append
        (.run f.opening :: (f.inner.map Position.run ++ [.run f.closing]))
      simpa [hps] using hflat
    obtain ⟨hstrays, hkept⟩ := h.head
    rw [Token.prune, Token.pruneAt]
    -- All runs of a field are gone or none is.
    have hall : ∀ (b : Bool), (∀ r ∈ f.runs, gone r = b) →
        ∀ r ∈ (f.opening :: f.inner) ++ [f.closing], gone r.id = b := by
      intro b hb r hr
      apply hb
      rw [Field.runs, ← List.map_cons, ← List.map_singleton (f := Run.id), ← List.map_append]
      exact List.mem_map_of_mem hr
    by_cases hnone : advance (.tag k) fs = none
    · have hgone := hall true (hstrays (k, f) (by simp [Token.straysAt, hnone]))
      have hempty : ((f.opening :: f.inner) ++ [f.closing]).filter (fun r => !gone r.id) = [] := by
        apply List.filter_eq_nil_iff.mpr
        intro r hr
        simp [hgone r hr]
      rw [if_pos hnone, List.nil_append, hps, erase_field, hempty]
      exact ih hrest h.tail
    · rw [Token.pruneAt, if_neg hnone] at hkept
      have hstay := hall false (by simpa [Token.runsOf_tag, Token.runsOf_nil] using hkept)
      have hsame : ((f.opening :: f.inner) ++ [f.closing]).filter (fun r => !gone r.id) =
          (f.opening :: f.inner) ++ [f.closing] := by
        apply List.filter_eq_self.mpr
        intro r hr
        simp [hstay r hr]
      -- The field is left whole, so it is read again in front of what is left behind it.
      have hread := readField_field hopening hinner hclosing (rest.flatMap (Position.erase gone))
      rw [if_neg hnone, hps, erase_field, hsame, List.singleton_append, ← ih hrest h.tail,
        ← linear_tag hread hk]
      simp
  | text r ps htext ih =>
    obtain ⟨hr, hrest⟩ := h.text htext
    have hstay := classify_erase hflat htext hrest
    rw [List.flatMap_cons, Position.erase, hr, if_neg (by simp), List.singleton_append,
      linear_text htext, linear_text hstay, ih hflat.tail hrest]
    rfl

end Tokens

/-! ## Bodies -/

namespace Body

variable {gone : RunId → Bool}

/-- The positions of what is left of a body are what is left of its positions. -/
theorem linearPositions_erase {b : Body}
    (hcells : ∀ id rows, Element.table id rows ∈ b → ∀ row ∈ rows, ∀ c ∈ row,
      linearTokens (erase gone c) = Token.prune [] (linearTokens c)) :
    linearPositions (erase gone b) = (linearPositions b).flatMap (Position.erase gone) := by
  induction b with
  | nil => rfl
  | cons e es ih =>
    have hrest := ih fun id rows hmem => hcells id rows (List.mem_cons_of_mem _ hmem)
    rw [erase, linearPositions, linearPositions, List.flatMap_append, hrest]
    congr 1
    cases e with
    | paragraph runs =>
      rw [eraseElement, elementPositions, elementPositions, flatMap_erase_runs]
    | table id rows =>
      -- A table is one position with the tokens of its cells, which are pruned by assumption.
      have hrows : (rows.map (fun r => r.map (erase gone))).map (fun r => r.map linearTokens) =
          (rows.map (fun r => r.map linearTokens)).map (fun r => r.map (Token.prune [])) := by
        rw [List.map_map, List.map_map]
        apply List.map_congr_left
        intro row hrow
        simp only [Function.comp_apply, List.map_map]
        exact List.map_congr_left fun c hc => hcells id rows List.mem_cons_self row hrow c hc
      rw [eraseElement, elementPositions, elementPositions, linearRows_eq_map, linearRows_eq_map,
        eraseRows_eq_map, hrows, ← Token.pruneRows_eq_map]
      rfl

/-- Deleting the runs of the stray fields deletes the stray tags. -/
theorem linearTokens_erase {b : Body} (hflat : b.Everywhere (fun c => FlatFields c.positions))
    (h : Separates gone [] b.linearTokens) :
    linearTokens (erase gone b) = Token.prune [] b.linearTokens := by
  induction b using cellInduction with
  | h b cells =>
    obtain ⟨hown, hinner⟩ := hflat
    rw [positions_eq_linearPositions] at hown
    rw [linearTokens, linearPositions_erase, linear_erase _ hown h]
    · rfl
    · intro id rows htable row hrow c hc
      apply cells id rows htable row hrow c hc (hinner id rows htable row hrow c hc)
      exact h.cell (mem_linearTokens_table.mpr ⟨rows, htable, rfl⟩) _ (List.mem_map_of_mem hrow) _
        (List.mem_map_of_mem hc)

end Body

/-! ## Style runs -/

theorem afterColon?_cons (c : Char) (cs : List Char) :
    afterColon? (c :: cs) = if c = ':' then some cs else afterColon? cs := by
  by_cases hc : c = ':'
  · simp [afterColon?, hc]
  · simp [afterColon?, hc]

theorem afterColon?_append (cs ds : List Char) :
    afterColon? (cs ++ ds) = ((afterColon? cs).map (· ++ ds)).or (afterColon? ds) := by
  induction cs with
  | nil => rfl
  | cons c cs ih =>
    rw [List.cons_append, afterColon?_cons, afterColon?_cons]
    split
    · rfl
    · exact ih

theorem afterColon?_of_not_mem {cs : List Char} (h : ':' ∉ cs) : afterColon? cs = none := by
  induction cs with
  | nil => rfl
  | cons c cs ih =>
    rw [List.mem_cons, not_or] at h
    rw [afterColon?_cons, if_neg (Ne.symm h.1), ih h.2]

/-- Without a style run, nothing follows the first colon. -/
theorem afterColon?_of_styleRun?_eq_none {rs : List Run} (h : styleRun? rs = none)
    {rest : List Char} (hrest : afterColon? (rs.flatMap Run.instruction) = some rest) :
    rest = [] := by
  induction rs with
  | nil => cases hrest
  | cons r rs ih =>
    rw [List.flatMap_cons, afterColon?_append] at hrest
    rw [styleRun?] at h
    split at h
    next hcolon =>
      rw [hcolon] at hrest
      exact ih h hrest
    next hcolon =>
      -- The colon ends the run, so that the next run with an instruction would be the style run.
      have hblank : ∀ x ∈ rs, x.instruction = [] := by simpa using h
      have hnil : rs.flatMap Run.instruction = [] := List.flatMap_eq_nil_iff.mpr hblank
      rw [hcolon, hnil] at hrest
      exact (Option.some.inj hrest).symm
    next => cases h

theorem Keyword.prefix_of_match? {cs : List Char} {k : Keyword} (h : Keyword.match? cs = some k) :
    k.spelling.toList <+: cs := by
  have hfound := List.find?_some h
  exact List.isPrefixOf_iff_prefix.mp hfound

/-- After the colon of a keyword with a name comes the name. -/
theorem Keyword.exists_spelling {k : Keyword} (h : k ≠ .query) :
    ∃ c cs, k.spelling.toList = 'm' :: ':' :: c :: cs := by
  cases k <;> first | exact ⟨_, _, rfl⟩ | exact absurd rfl h

/-- **A tag with a name has a style run of its own.** A query has none if nothing is asked for. -/
theorem styleRun?_isSome {f : Field} {k : Keyword} (hk : Keyword.match? f.instruction = some k)
    (hnamed : k ≠ .query) : (styleRun? f.inner).isSome = true := by
  obtain ⟨c, cs, hspelling⟩ := Keyword.exists_spelling hnamed
  obtain ⟨more, hmore⟩ := Keyword.prefix_of_match? hk
  rw [hspelling] at hmore
  generalize hflat : f.inner.flatMap Run.instruction = flat at *
  have hinstruction : Text.trimRight (Text.trimLeft flat) = 'm' :: ':' :: c :: (cs ++ more) := by
    rw [← hflat]
    exact hmore.symm
  -- The first colon is that of the keyword, since only blanks stand before the keyword.
  obtain ⟨blanks, hblanks, -⟩ := Text.exists_eq_trimRight_append (Text.trimLeft flat)
  have hsplit : flat = flat.takeWhile Text.isBlank ++
      ('m' :: ':' :: c :: (cs ++ more ++ blanks)) := by
    conv_lhs => rw [← List.takeWhile_append_dropWhile (p := Text.isBlank) (l := flat)]
    congr 1
    rw [hinstruction] at hblanks
    simpa [Text.trimLeft] using hblanks
  have hnone : afterColon? (flat.takeWhile Text.isBlank) = none := by
    apply afterColon?_of_not_mem
    intro hmem
    have hblank := List.all_eq_true.mp (List.all_takeWhile (p := Text.isBlank)) _ hmem
    exact absurd hblank (by decide)
  have hcolon : afterColon? flat = some (c :: (cs ++ more ++ blanks)) := by
    rw [hsplit, afterColon?_append, hnone]
    rfl
  cases hstyle : styleRun? f.inner with
  | some r => rfl
  | none =>
    rw [← hflat] at hcolon
    exact absurd (afterColon?_of_styleRun?_eq_none hstyle hcolon) (by simp)

/-- The field of a tag says its keyword. -/
theorem match?_of_mem_linear {ps : List Position} {k : Keyword} {f : Field}
    (h : Token.tag k f ∈ linear ps) : Keyword.match? f.instruction = some k := by
  induction ps using linear_induction with
  | nil => simp [linear_nil] at h
  | table id rows ps ih =>
    rw [linear_table] at h
    rcases List.mem_cons.mp h with heq | h
    · cases heq
    · exact ih h
  | tag ps f' rest k' hf hk ih =>
    rw [linear_tag hf hk] at h
    rcases List.mem_cons.mp h with heq | h
    · cases heq
      exact hk
    · exact ih h
  | text r ps htext ih =>
    rw [linear_text htext] at h
    rcases List.mem_cons.mp h with heq | h
    · cases heq
    · exact ih h

theorem Body.styled_linearTokens (b : Body) : Styled b.linearTokens := by
  induction b using Body.cellInduction with
  | h b cells =>
    intro k f hmem hopens
    rw [Token.leavesOf_eq_flatMap] at hmem
    obtain ⟨t, ht, hleaf⟩ := List.mem_flatMap.mp hmem
    cases t with
    | text r => simp [Token.leaves] at hleaf
    | tag k' f' =>
      rw [Token.leaves, List.mem_singleton] at hleaf
      cases hleaf
      exact styleRun?_isSome (match?_of_mem_linear ht) (by rintro rfl; cases hopens)
    | table id rows =>
      obtain ⟨bodies, htable, rfl⟩ := Body.mem_linearTokens_table.mp ht
      rw [Token.leaves, Token.leavesOfRows_eq_flatMap] at hleaf
      obtain ⟨row, hrow, hleaf⟩ := List.mem_flatMap.mp hleaf
      obtain ⟨c, hc, hleaf⟩ := List.mem_flatMap.mp hleaf
      obtain ⟨bodyRow, hbodyRow, rfl⟩ := List.mem_map.mp hrow
      obtain ⟨cell, hcell, rfl⟩ := List.mem_map.mp hc
      exact cells id bodies htable bodyRow hbodyRow cell hcell k f hleaf hopens

/-! ## Recovery is deletion -/

namespace Body

/-- The fields of the tags of a body, in document order. -/
def fields (b : Body) : List Field := Token.fieldsOf b.linearTokens

/-- The runs of the fields that a template reports as stray. -/
def strayFieldRuns (b : Body) (t : Template) : List RunId :=
  (b.fields.filter (fun f => f.opening.id ∈ t.strayRuns)).flatMap Field.runs

/-- The body without the fields that a template reports as stray. -/
def withoutStrays (b : Body) (t : Template) : Body :=
  erase (· ∈ b.strayFieldRuns t) b

/-- **Recovery from stray tags is deletion.** Let no field of a body open inside another, and let its
runs have distinct numbers. If the body has a template, then the body without the fields that are
reported as stray has one too: the same, without these reports and the runs of these fields, with
texts joined that become neighbours, and without style runs at the tags of the template and of the
cells. -/
theorem parse_withoutStrays (s : Setting) (b : Body) {t : Template}
    (hnumbers : (b.runs.map Run.id).Nodup)
    (hflat : b.Everywhere (fun c => FlatFields c.positions)) (h : (b.parse s).result = .ok t) :
    ((b.withoutStrays t).parse s).result = .ok (t.tidy (· ∈ b.strayFieldRuns t)) := by
  rw [b.result_parse s] at h
  have hseparates : Separates (· ∈ b.strayFieldRuns t) [] b.linearTokens := by
    rw [← b.runsOf_linearTokens] at hnumbers
    exact Separates.of_nodup hnumbers (Template.strayRuns_perm h)
  have htokens : (b.withoutStrays t).linearTokens = Token.prune [] b.linearTokens :=
    linearTokens_erase hflat hseparates
  rw [(b.withoutStrays t).result_parse s, htokens]
  exact Template.ofTokens_prune hseparates b.styled_linearTokens h

/-- A repetition around a table, with stray tags in it, in a cell and behind it. -/
def loopWithStrays : Body :=
  Draft.build
    [.paragraph [.field ["m:for x | xs"], .text "a", .field ["m:endif"], .text "b"],
      .table [[[.paragraph [.field ["m:else"], .text "c"]]]],
      .paragraph [.field ["m:endfor"], .field ["m:endlet"]]]

/-- The texts around the stray tag in the repetition become one. -/
theorem parse_withoutStrays_loopWithStrays :
    ∃ t, (loopWithStrays.parse { compile := .fixed [] }).result = .ok t ∧
      t.strayRuns = [15, 4, 8] ∧
      ((loopWithStrays.withoutStrays t).parse { compile := .fixed [] }).result =
        .ok (t.tidy (· ∈ loopWithStrays.strayFieldRuns t)) := by
  have hstrays : (loopWithStrays.parse { compile := .fixed [] }).result.toOption.map
      Template.strayRuns = some [15, 4, 8] := by decide +kernel
  have hflat : loopWithStrays.Everywhere (fun c => FlatFields c.positions) := by
    refine .intro (by decide +kernel) ?_
    intro id rows htable row hrow c hc
    obtain ⟨-, rfl⟩ : id = 0 ∧ rows = [[[.paragraph
        (DraftItem.buildAll 8 [] [.field ["m:else"], .text "c"])]]] := by
      simpa [loopWithStrays, Draft.build, Draft.buildElements, Draft.buildElement, Draft.buildRows,
        Draft.buildCells, DraftItem.size] using htable
    rw [List.mem_singleton.mp hrow] at hc
    rw [List.mem_singleton.mp hc]
    exact .intro (by decide +kernel) (by simp)
  obtain ⟨t, hresult, hruns⟩ := exists_of_toOption_map hstrays
  exact ⟨t, hresult, hruns, parse_withoutStrays _ _ (by decide +kernel) hflat hresult⟩

end Body

end DocTemplate
