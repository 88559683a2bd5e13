import DocTemplate.Parse.Session
import DocTemplate.Proofs.FieldErasure

/-!
# Reading a field under control

A session looks at the place it has reached in two ways. Its kind is told by peeking, and a field is
read by taking positions one after the other. Both go as far as the first closing mark after the
opening one, and a table or the end of the body stops both; so the kind tells before anything is
taken what reading will find. A reading that stops early leaves the session after what it has taken
and its tag as it was.

The first field of a tag that says something after a colon also settles the tag's style run. The run
is found piece by piece, while the character that decides is a place in the text as a whole.

## Main statements

- `Session.readTag_agrees`: peeking and reading agree, and a failed reading leaves the tag intact
- `Session.readTag_styleRun`: the style run holds the character after the first colon
-/

namespace DocTemplate

/-! ## Places -/

namespace Cursor

/-- The place lies before a position or at the end. -/
def InBody (c : Cursor) : Prop := c.index ≤ c.positions.length

/-- Go on by some positions. -/
def forward (c : Cursor) (n : Nat) : Cursor := { c with index := c.index + n }

variable {c : Cursor} {passed rest : List Position}

theorem rest_forward (h : c.rest = passed ++ rest) : (c.forward passed.length).rest = rest := by
  show c.positions.drop (c.index + passed.length) = rest
  rw [← List.drop_drop, show c.positions.drop c.index = passed ++ rest from h, List.drop_left]

/-- A place that something stands behind lies in the body. -/
theorem inBody_of_rest (h : c.rest ≠ []) : c.InBody := by
  by_contra hnot
  exact h (List.drop_eq_nil_of_le (Nat.le_of_not_le hnot))

/-- To leave what stands behind some positions is to go on by those positions. -/
theorem leaving_length (hc : c.InBody) (h : c.rest = passed ++ rest) :
    c.leaving rest.length = c.forward passed.length := by
  have hlength : c.positions.length - c.index = passed.length + rest.length := by
    have hrest := congrArg List.length h
    simpa [Cursor.rest] using hrest
  have hplace : c.index ≤ c.positions.length := hc
  simp only [leaving, forward]
  congr 1
  omega

end Cursor

/-! ## What stands at a place -/

/-- A complete field stands in front of `rest`. -/
structure Field.StandsAt (f : Field) (ps rest : List Position) : Prop where
  positions : ps = .run f.opening :: (f.inner.map Position.run ++ .run f.closing :: rest)
  opening : f.opening.isOpening = true
  inner : ∀ r ∈ f.inner, r.isClosing = false
  closing : f.closing.isClosing = true

/-- Some run closes a field before any table comes. -/
def ClosesBeforeTable (ps : List Position) : Prop :=
  ∃ before closing after, ps = before ++ .run closing :: after ∧ closing.isClosing = true ∧
    ∀ p ∈ before, p.tableId? = none

/-- Why no field can be read from some positions, and how many of them are taken before that is
known. -/
inductive Unreadable : List Position → ParseError → Nat → Prop where
  | atEnd : Unreadable [] (.notAtField "end of body") 0
  | atTable (id : TableId) (rows : List (List (List Token))) (ps : List Position) :
      Unreadable (.table id rows :: ps) (.notAtField (tableLabel id)) 0
  | atRun {r : Run} (hr : r.isOpening = false) (ps : List Position) :
      Unreadable (.run r :: ps) (.notAtField (runLabel r.id)) 0
  /-- A table comes before the closing mark; it is the last position that is taken. -/
  | tableInside {opening : Run} {inner : List Run} (hopening : opening.isOpening = true)
      (hinner : ∀ r ∈ inner, r.isClosing = false) (id : TableId) (rows : List (List (List Token)))
      (ps : List Position) :
      Unreadable (.run opening :: (inner.map Position.run ++ .table id rows :: ps))
        (.tableInsideField opening.id id) (inner.length + 2)
  /-- There is no closing mark up to the end; everything is taken. -/
  | unterminated {opening : Run} {inner : List Run} (hopening : opening.isOpening = true)
      (hinner : ∀ r ∈ inner, r.isClosing = false) :
      Unreadable (.run opening :: inner.map Position.run) (.unterminatedField opening.id)
        (inner.length + 1)

theorem Field.StandsAt.readField {f : Field} {ps rest : List Position} (h : f.StandsAt ps rest) :
    readField ps = (.ok f, rest) := by
  rw [h.positions]
  exact readField_field h.opening h.inner h.closing rest

theorem Field.standsAt_of_readField {f : Field} {ps rest : List Position}
    (h : DocTemplate.readField ps = (.ok f, rest)) : f.StandsAt ps rest := by
  obtain ⟨hps, hopening, hinner, hclosing⟩ := readField_eq_ok h
  exact ⟨hps, hopening, hinner, hclosing⟩

/-- The positions of a field, split from those behind it. -/
theorem Field.StandsAt.split {f : Field} {ps rest : List Position} (h : f.StandsAt ps rest) :
    ∃ passed, ps = passed ++ rest ∧ passed.length = f.inner.length + 2 :=
  ⟨.run f.opening :: (f.inner.map Position.run ++ [.run f.closing]), by simp [h.positions], by simp⟩

/-- Where a closing mark comes before any table, the rest of a field is read. -/
theorem ClosesBeforeTable.readFieldRest {ps : List Position} (h : ClosesBeforeTable ps)
    (opening : Run) (inner : List Run) :
    ∃ f rest, readFieldRest opening inner ps = (.ok f, rest) := by
  obtain ⟨before, closing, after, rfl, hclosing, hbefore⟩ := h
  -- The mark that ends the reading may be an earlier one.
  induction before generalizing inner with
  | nil => exact ⟨_, _, by rw [List.nil_append, DocTemplate.readFieldRest, if_pos hclosing]⟩
  | cons p before ih =>
    obtain ⟨hp, hrest⟩ := List.forall_mem_cons.mp hbefore
    cases p with
    | table id rows => cases hp
    | run r =>
      rw [List.cons_append, DocTemplate.readFieldRest]
      split
      · exact ⟨_, _, rfl⟩
      · exact ih (r :: inner) hrest

/-- **A field is read exactly where one opens and is closed before any table.** -/
theorem readField_eq_ok_iff {ps : List Position} :
    (∃ f rest, readField ps = (.ok f, rest)) ↔
      ∃ opening ahead, ps = .run opening :: ahead ∧ opening.isOpening = true ∧
        ClosesBeforeTable ahead := by
  constructor
  · rintro ⟨f, rest, h⟩
    obtain ⟨hps, hopening, hinner, hclosing⟩ := readField_eq_ok h
    refine ⟨f.opening, _, hps, hopening, f.inner.map .run, f.closing, rest, rfl, hclosing, ?_⟩
    simp [Position.tableId?]
  · rintro ⟨opening, ahead, rfl, hopening, hcloses⟩
    rw [readField, if_pos hopening]
    exact hcloses.readFieldRest opening []

/-- What stops the rest of a field from being read. -/
theorem readFieldRest_eq_error {opening : Run} {inner : List Run} {ps rest : List Position}
    {e : ParseError} (h : readFieldRest opening inner ps = (.error e, rest)) :
    ∃ runs : List Run, (∀ r ∈ runs, r.isClosing = false) ∧
      ((ps = runs.map Position.run ∧ rest = [] ∧ e = .unterminatedField opening.id) ∨
        ∃ id rows, ps = runs.map Position.run ++ .table id rows :: rest ∧
          e = .tableInsideField opening.id id) := by
  induction ps generalizing inner with
  | nil =>
    simp only [readFieldRest, Prod.mk.injEq, Except.error.injEq] at h
    exact ⟨[], by simp, .inl ⟨rfl, h.2.symm, h.1.symm⟩⟩
  | cons p ps ih =>
    cases p with
    | table id rows =>
      simp only [readFieldRest, Prod.mk.injEq, Except.error.injEq] at h
      exact ⟨[], by simp, .inr ⟨id, rows, by simp [h.2], h.1.symm⟩⟩
    | run r =>
      rw [readFieldRest] at h
      split at h
      next => simp at h
      next hr =>
        obtain ⟨runs, hruns, hwhy⟩ := ih h
        refine ⟨r :: runs, List.forall_mem_cons.mpr ⟨by simpa using hr, hruns⟩, ?_⟩
        rcases hwhy with ⟨rfl, hrest, he⟩ | ⟨id, rows, rfl, he⟩
        · exact .inl ⟨rfl, hrest, he⟩
        · exact .inr ⟨id, rows, rfl, he⟩

/-- A reading that fails has taken what is needed to know that. -/
theorem readField_eq_error {ps rest : List Position} {e : ParseError}
    (h : readField ps = (.error e, rest)) :
    ∃ passed, ps = passed ++ rest ∧ Unreadable ps e passed.length := by
  match ps with
  | [] =>
    cases h
    exact ⟨[], rfl, .atEnd⟩
  | .table id rows :: ps =>
    cases h
    exact ⟨[], rfl, .atTable id rows ps⟩
  | .run r :: ps =>
    rw [readField] at h
    split at h
    next hr =>
      obtain ⟨runs, hruns, ⟨rfl, rfl, rfl⟩ | ⟨id, rows, rfl, rfl⟩⟩ := readFieldRest_eq_error h
      · exact ⟨.run r :: runs.map .run, by simp, by simpa using .unterminated hr hruns⟩
      · refine ⟨.run r :: (runs.map .run ++ [.table id rows]), by simp, ?_⟩
        simpa using Unreadable.tableInside hr hruns id rows rest
    next hr =>
      cases h
      exact ⟨[], rfl, .atRun (by simpa using hr) ps⟩

/-! ## The kind and the field -/

/-- Where a field stands, the kind is that of the keyword it starts with. -/
theorem Field.StandsAt.classify {f : Field} {ps rest : List Position} (h : f.StandsAt ps rest) :
    classify ps = ((Keyword.match? f.instruction).map TokenKind.tag).getD .text := by
  cases hk : Keyword.match? f.instruction with
  | some k => exact classify_eq_tag_iff.mpr ⟨f, rest, h.readField, hk⟩
  | none =>
    have hps := h.positions
    subst hps
    rcases classify_run f.opening (f.inner.map .run ++ .run f.closing :: rest) with htext | ⟨k, htag⟩
    · exact htext
    · -- A keyword would be the keyword of this very field.
      obtain ⟨f', rest', hread, hk'⟩ := classify_eq_tag_iff.mp htag
      rw [h.readField] at hread
      cases hread
      rw [hk] at hk'
      cases hk'

/-- Where no field can be read, there is no tag. -/
theorem classify_of_readField_eq_error {ps rest : List Position} {e : ParseError}
    (h : readField ps = (.error e, rest)) :
    classify ps = .text ∨ classify ps = .table ∨ classify ps = .endOfBody := by
  cases hkind : classify ps with
  | text => exact .inl rfl
  | table => exact .inr (.inl rfl)
  | endOfBody => exact .inr (.inr rfl)
  | tag k =>
    obtain ⟨f, rest', hread, -⟩ := classify_eq_tag_iff.mp hkind
    rw [h] at hread
    cases hread

/-! ## Reading into the tag -/

namespace Session

variable {s : Session} {rest : List Position}

theorem readTag_of_standsAt {f : Field} (h : f.StandsAt s.cursor.rest rest) (role : FieldRole) :
    s.readTag role =
      (.ok f.instruction,
        { s with cursor := s.cursor.forward (f.inner.length + 2), tag := s.tag.absorb role f }) := by
  obtain ⟨passed, hpassed, hlength⟩ := h.split
  have hplace : s.cursor.InBody := Cursor.inBody_of_rest (by rw [h.positions]; simp)
  simp only [readTag, takeField, h.readField, Session.leaving, ← hlength,
    Cursor.leaving_length hplace hpassed]

theorem readTag_of_error {e : ParseError} (h : readField s.cursor.rest = (.error e, rest))
    (role : FieldRole) :
    s.readTag role = (.error e, { s with cursor := s.cursor.leaving rest.length }) := by
  simp only [readTag, takeField, h, Session.leaving]

/-- **Peeking and reading agree.** A field is read exactly where one opens and is closed before any
table; then its runs go to the tag, the session stands behind its closing mark, and the kind was that
of its keyword. Otherwise no tag stood there, the tag is as before, and the session stands where it
was, behind the table that came too early or at the end of the body. -/
theorem readTag_agrees (s : Session) (role : FieldRole) (hplace : s.cursor.InBody) :
    ((∃ text, (s.readTag role).1 = .ok text) ↔
      ∃ opening ahead, s.cursor.rest = .run opening :: ahead ∧ opening.isOpening = true ∧
        ClosesBeforeTable ahead) ∧
    (∀ text, (s.readTag role).1 = .ok text →
      ∃ f rest styleRun, Field.StandsAt f s.cursor.rest rest ∧
        text = Text.trim (f.inner.flatMap Run.instruction) ∧
        (s.tag.styleRun ≠ none → styleRun = s.tag.styleRun) ∧
        (s.readTag role).2 =
          { s with
            cursor := s.cursor.forward (f.inner.length + 2)
            tag :=
              match role with
              | .opening =>
                { s.tag with
                  runs := s.tag.runs ++ (f.opening :: f.inner ++ [f.closing]).map Run.id
                  styleRun := styleRun }
              | .closing =>
                { s.tag with
                  closingRuns := s.tag.closingRuns ++
                    (f.opening :: f.inner ++ [f.closing]).map Run.id
                  styleRun := styleRun } } ∧
        (s.readTag role).2.cursor.rest = rest ∧
        s.kind = ((Keyword.match? text).map TokenKind.tag).getD .text) ∧
    ∀ e, (s.readTag role).1 = .error e →
      (s.kind = .text ∨ s.kind = .table ∨ s.kind = .endOfBody) ∧
        ∃ n, Unreadable s.cursor.rest e n ∧
          (s.readTag role).2 = { s with cursor := s.cursor.forward n } := by
  match hread : readField s.cursor.rest with
  | (.ok f, rest) =>
    have hf : f.StandsAt s.cursor.rest rest := Field.standsAt_of_readField hread
    obtain ⟨passed, hpassed, hlength⟩ := hf.split
    -- What the kind was and where the session goes are both told by the field.
    rw [readTag_of_standsAt hf role]
    refine ⟨?_, ?_, ?_⟩
    · exact iff_of_true ⟨_, rfl⟩ (readField_eq_ok_iff.mp ⟨f, rest, hread⟩)
    · rintro text ⟨⟩
      refine ⟨f, rest, s.tag.styleRun <|> styleRun? f.inner, hf, rfl, ?_, ?_, ?_, hf.classify⟩
      · intro hset
        obtain ⟨r, hr⟩ := Option.ne_none_iff_exists'.mp hset
        rw [hr]
        rfl
      · cases role <;> simp [Tag.absorb, Field.runs]
      · rw [← hlength]
        exact Cursor.rest_forward hpassed
    · rintro e ⟨⟩
  | (.error e, rest) =>
    obtain ⟨passed, hpassed, hwhy⟩ := readField_eq_error hread
    -- The positions that were taken are those that tell why there is no field.
    rw [readTag_of_error hread role, Cursor.leaving_length hplace hpassed]
    refine ⟨?_, ?_, ?_⟩
    · refine iff_of_false (by rintro ⟨text, ⟨⟩⟩) ?_
      rw [← readField_eq_ok_iff, hread]
      rintro ⟨f, rest, ⟨⟩⟩
    · rintro text ⟨⟩
    · rintro e ⟨⟩
      exact ⟨classify_of_readField_eq_error hread, passed.length, hwhy, rfl⟩

/-- A session before a field that another opening mark stands in, with a table behind the field. -/
def beforeField : Session where
  setting := { compile := fun _ => ⟨default, []⟩ }
  cursor :=
    { positions :=
        [.run { id := 1, text := "a" }, .run { id := 2, mark := some .opening },
          .run { id := 3, fragments := [" m:en"] }, .run { id := 4, mark := some .opening },
          .run { id := 5, fragments := ["dif "] }, .run { id := 6, mark := some .closing },
          .table 1 []]
      index := 1 }
  tag := { runs := [8, 9] }

theorem readTag_agrees_beforeField :
    beforeField.cursor.InBody ∧ ∃ text, (beforeField.readTag .closing).1 = .ok text := by
  have hplace : beforeField.cursor.InBody := by show 1 ≤ 7; decide
  refine ⟨hplace, (readTag_agrees beforeField .closing hplace).1.mpr ⟨_, _, rfl, rfl, ?_⟩⟩
  exact ⟨[_, _, _], _, _, rfl, rfl, by decide⟩

end Session

/-! ## Style runs -/

/-- What some runs say, character by character with the run that says it. -/
def saidBy (rs : List Run) : List (Char × Run) :=
  rs.flatMap (fun r => r.instruction.map (fun c => (c, r)))

theorem map_fst_saidBy (rs : List Run) : (saidBy rs).map Prod.fst = rs.flatMap Run.instruction := by
  simp [saidBy, List.map_flatMap, Function.comp_def]

/-- The first character is said by the first run that says something. -/
theorem head?_saidBy (rs : List Run) :
    (saidBy rs).head?.map (·.2.id) =
      (rs.find? (fun r => !r.instruction.isEmpty)).map Run.id := by
  induction rs with
  | nil => rfl
  | cons r rs ih =>
    rw [saidBy, List.flatMap_cons, List.find?_cons]
    cases hr : r.instruction with
    | nil => exact ih
    | cons c cs => simp

/-- Finding the style run run by run is looking behind the first colon. -/
theorem styleRun?_eq (rs : List Run) :
    styleRun? rs = (((saidBy rs).dropWhile (fun x => x.1 ≠ ':')).tail.head?).map (·.2.id) := by
  induction rs with
  | nil => rfl
  | cons r rs ih =>
    have hown : (r.instruction.map (fun c => (c, r))).dropWhile (fun x => x.1 ≠ ':') =
        (r.instruction.dropWhile (· ≠ ':')).map (fun c => (c, r)) := List.dropWhile_map ..
    -- The first run either has the colon or says nothing that matters.
    rw [styleRun?, saidBy, List.flatMap_cons, List.dropWhile_append, hown, afterColon?]
    cases r.instruction.dropWhile (· ≠ ':') with
    | nil => exact ih
    | cons c cs =>
      cases cs with
      -- The colon ends its run, and the character behind it is the first of the runs behind.
      | nil => exact (head?_saidBy rs).symm
      | cons d cs => rfl

/-- The first colon, if there is one, splits what is said. -/
theorem split_colon (said : List (Char × Run)) :
    (∀ x ∈ said, x.1 ≠ ':') ∨
      ∃ before colon after, said = before ++ (':', colon) :: after ∧ ∀ x ∈ before, x.1 ≠ ':' := by
  induction said with
  | nil => exact .inl (by simp)
  | cons x said ih =>
    by_cases hx : x.1 = ':'
    · exact .inr ⟨[], x.2, said, by rw [← hx]; rfl, by simp⟩
    · rcases ih with hnone | ⟨before, colon, after, rfl, hbefore⟩
      · exact .inl (List.forall_mem_cons.mpr ⟨hx, hnone⟩)
      · exact .inr ⟨x :: before, colon, after, rfl, List.forall_mem_cons.mpr ⟨hx, hbefore⟩⟩

theorem styleRun?_of_split {rs : List Run} {before after : List (Char × Run)} {colon : Run}
    (hsaid : saidBy rs = before ++ (':', colon) :: after) (hbefore : ∀ x ∈ before, x.1 ≠ ':') :
    styleRun? rs = after.head?.map (·.2.id) := by
  rw [styleRun?_eq, hsaid, List.dropWhile_append_of_pos (by simpa using hbefore)]
  simp

theorem styleRun?_of_no_colon {rs : List Run} (h : ∀ x ∈ saidBy rs, x.1 ≠ ':') :
    styleRun? rs = none := by
  rw [styleRun?_eq, ← List.append_nil (saidBy rs),
    List.dropWhile_append_of_pos (by simpa using h)]
  rfl

/-- **The style run says the character after the first colon.** -/
theorem styleRun?_eq_some_iff {rs : List Run} {id : RunId} :
    styleRun? rs = some id ↔
      ∃ before colon c r after, saidBy rs = before ++ (':', colon) :: (c, r) :: after ∧
        (∀ x ∈ before, x.1 ≠ ':') ∧ r.id = id := by
  constructor
  · intro h
    rcases split_colon (saidBy rs) with hnone | ⟨before, colon, after, hsaid, hbefore⟩
    · rw [styleRun?_of_no_colon hnone] at h
      cases h
    · rw [styleRun?_of_split hsaid hbefore] at h
      cases after with
      | nil => cases h
      | cons x after => exact ⟨before, colon, x.1, x.2, after, hsaid, hbefore, Option.some.inj h⟩
  · rintro ⟨before, colon, c, r, after, hsaid, hbefore, rfl⟩
    exact styleRun?_of_split hsaid hbefore

/-- There is no style run exactly if nothing follows a first colon. -/
theorem styleRun?_eq_none_iff {rs : List Run} :
    styleRun? rs = none ↔
      ':' ∉ rs.flatMap Run.instruction ∨
        ∃ before, ':' ∉ before ∧ rs.flatMap Run.instruction = before ++ [':'] := by
  rw [← map_fst_saidBy]
  constructor
  · intro h
    rcases split_colon (saidBy rs) with hnone | ⟨before, colon, after, hsaid, hbefore⟩
    · exact .inl (by simpa using fun r hr => hnone (':', r) hr rfl)
    · rw [styleRun?_of_split hsaid hbefore] at h
      obtain rfl : after = [] := by simpa using h
      refine .inr ⟨before.map Prod.fst, ?_, by simp [hsaid]⟩
      simpa using fun r hr => hbefore (':', r) hr rfl
  · intro h
    rw [← Option.not_isSome_iff_eq_none, Option.isSome_iff_exists]
    rintro ⟨id, hid⟩
    obtain ⟨before, colon, c, r, after, hsaid, hbefore, -⟩ := styleRun?_eq_some_iff.mp hid
    have hnot : ':' ∉ before.map Prod.fst := by simpa using fun r hr => hbefore (':', r) hr rfl
    rw [hsaid, List.map_append, List.map_cons, List.map_cons] at h
    rcases h with h | ⟨before', hnot', h⟩
    · exact h (by simp)
    · -- The first colon is followed by a character, but not if it is the last character.
      have hafter := congrArg afterColon? h
      rw [afterColon?_append, afterColon?_append, afterColon?_of_not_mem hnot,
        afterColon?_of_not_mem hnot'] at hafter
      simp [afterColon?_cons] at hafter

namespace Session

/-- **The style run of a tag is settled once**, by the first field that says something after a
colon, and it is the run that says the character after the first colon, however what is said is cut
over runs. -/
theorem readTag_styleRun (s : Session) (role : FieldRole) {f : Field} {rest : List Position}
    (hfield : f.StandsAt s.cursor.rest rest) :
    (∀ id, s.tag.styleRun = some id → (s.readTag role).2.tag.styleRun = some id) ∧
    (s.tag.styleRun = none →
      (∀ id, (s.readTag role).2.tag.styleRun = some id ↔
        ∃ before colon c r after, saidBy f.inner = before ++ (':', colon) :: (c, r) :: after ∧
          (∀ x ∈ before, x.1 ≠ ':') ∧ r.id = id) ∧
      ((s.readTag role).2.tag.styleRun = none ↔
        ':' ∉ f.inner.flatMap Run.instruction ∨
          ∃ before, ':' ∉ before ∧ f.inner.flatMap Run.instruction = before ++ [':'])) := by
  have habsorb : (s.readTag role).2.tag.styleRun = (s.tag.styleRun <|> styleRun? f.inner) := by
    rw [readTag_of_standsAt hfield role]
    cases role <;> rfl
  rw [habsorb]
  constructor
  · intro id hset
    rw [hset]
    rfl
  · intro hunset
    rw [hunset]
    exact ⟨fun id => styleRun?_eq_some_iff, styleRun?_eq_none_iff⟩

/-- A session before a field whose first colon ends a run; the run after that says nothing. -/
def beforeColonField : Session where
  setting := { compile := fun _ => ⟨default, []⟩ }
  cursor :=
    { positions :=
        [.run { id := 1, mark := some .opening }, .run { id := 2, fragments := [" m", ":"] },
          .run { id := 3, text := "a" }, .run { id := 4, fragments := ["é:x"] },
          .run { id := 5, mark := some .closing }] }

theorem readTag_styleRun_beforeColonField :
    (beforeColonField.readTag .opening).2.tag.styleRun = some 4 := by
  have hfield : Field.StandsAt
      ⟨{ id := 1, mark := some .opening },
        [{ id := 2, fragments := [" m", ":"] }, { id := 3, text := "a" },
          { id := 4, fragments := ["é:x"] }],
        { id := 5, mark := some .closing }⟩ beforeColonField.cursor.rest [] :=
    ⟨rfl, rfl, by decide, rfl⟩
  refine (((readTag_styleRun beforeColonField .opening hfield).2 rfl).1 4).mpr ?_
  exact ⟨[(' ', _), ('m', _)], _, 'é', _, [(':', _), ('x', _)], rfl, by decide, rfl⟩

end Session

end DocTemplate
