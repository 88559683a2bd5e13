import DocTemplate.Token.Scan

/-!
# Tokens from left to right

`scan` cuts a list of positions into tokens from its end. This module says the same from the front,
the way a reader goes through a body: look at the kind of token that begins at the first position,
take one position for plain text and for a table, and take everything up to the first closing mark
for a tag.

## Main statements

- `scan_eq_linear`: both ways give the same tokens
- `Body.tokens_eq_linearTokens`: also in all cells, at every depth
-/

namespace DocTemplate

/-! ## Reading a field -/

/-- Reading a field leaves no more positions than there were. -/
theorem length_readFieldRest_le (opening : Run) (ps : List Position) :
    ∀ inner : List Run, (readFieldRest opening inner ps).2.length ≤ ps.length := by
  induction ps with
  | nil => intro inner; simp [readFieldRest]
  | cons p ps ih =>
    intro inner
    cases p with
    | table id rows => simp [readFieldRest]
    | run r =>
      rw [readFieldRest]
      split
      · simp
      · exact Nat.le_succ_of_le (ih _)

/-- A field takes at least one position. -/
theorem length_lt_of_readField {ps rest : List Position} {f : Field}
    (h : readField ps = (.ok f, rest)) : rest.length < ps.length := by
  match ps with
  | [] => simp [readField] at h
  | .table id rows :: ps => simp [readField] at h
  | .run r :: ps =>
    rw [readField] at h
    split at h
    · have hle := length_readFieldRest_le r ps []
      rw [h] at hle
      exact Nat.lt_succ_of_le hle
    · simp at h

/-- What a complete field after its opening mark looks like. -/
theorem readFieldRest_append {opening closing : Run} {runs inner : List Run}
    {rest : List Position} (hruns : ∀ r ∈ runs, r.isClosing = false)
    (hclosing : closing.isClosing = true) :
    readFieldRest opening inner (runs.map Position.run ++ .run closing :: rest) =
      (.ok ⟨opening, inner.reverse ++ runs, closing⟩, rest) := by
  induction runs generalizing inner with
  | nil => simp [readFieldRest, hclosing]
  | cons r runs ih =>
    have hr : r.isClosing = false := hruns r List.mem_cons_self
    have hrest : ∀ x ∈ runs, x.isClosing = false := fun x hx => hruns x (List.mem_cons_of_mem _ hx)
    simp only [List.map_cons, List.cons_append, readFieldRest, hr, Bool.false_eq_true, if_false]
    rw [ih hrest]
    simp

/-- Conversely, a field that was read stands in front of what is left. -/
theorem readFieldRest_eq_ok {opening : Run} {inner : List Run} {ps rest : List Position}
    {f : Field} (h : readFieldRest opening inner ps = (.ok f, rest)) :
    ∃ runs : List Run, f.opening = opening ∧ f.inner = inner.reverse ++ runs ∧
      ps = runs.map Position.run ++ .run f.closing :: rest ∧
      (∀ r ∈ runs, r.isClosing = false) ∧ f.closing.isClosing = true := by
  induction ps generalizing inner with
  | nil => simp [readFieldRest] at h
  | cons p ps ih =>
    cases p with
    | table id rows => simp [readFieldRest] at h
    | run r =>
      rw [readFieldRest] at h
      split at h
      next hr =>
        simp only [Prod.mk.injEq, Except.ok.injEq] at h
        obtain ⟨rfl, rfl⟩ := h
        exact ⟨[], rfl, by simp, by simp, by simp, hr⟩
      next hr =>
        -- The run joins those behind it, which the induction has found.
        obtain ⟨runs, ho, hi, hps, hnot, hc⟩ := ih h
        refine ⟨r :: runs, ho, by simp [hi], by simp [hps], ?_, hc⟩
        intro x hx
        rcases List.mem_cons.mp hx with rfl | hx
        · simpa using hr
        · exact hnot x hx

/-- A field stands at the front of the positions that it is read from. -/
theorem readField_eq_ok {ps rest : List Position} {f : Field} (h : readField ps = (.ok f, rest)) :
    ps = .run f.opening :: (f.inner.map Position.run ++ .run f.closing :: rest) ∧
      f.opening.isOpening = true ∧ (∀ r ∈ f.inner, r.isClosing = false) ∧
      f.closing.isClosing = true := by
  match ps with
  | [] => simp [readField] at h
  | .table id rows :: ps => simp [readField] at h
  | .run r :: ps =>
    rw [readField] at h
    split at h
    next hr =>
      obtain ⟨runs, ho, hi, hps, hnot, hc⟩ := readFieldRest_eq_ok h
      rw [List.reverse_nil, List.nil_append] at hi
      subst ho hi
      exact ⟨by rw [hps], hr, hnot, hc⟩
    next => simp at h

/-- A complete field is read from in front of any positions. -/
theorem readField_field {f : Field} (hopening : f.opening.isOpening = true)
    (hinner : ∀ r ∈ f.inner, r.isClosing = false) (hclosing : f.closing.isClosing = true)
    (rest : List Position) :
    readField (.run f.opening :: (f.inner.map Position.run ++ .run f.closing :: rest)) =
      (.ok f, rest) := by
  rw [readField, if_pos hopening, readFieldRest_append hinner hclosing]
  rfl

/-! ## Classifying and reading agree -/

/-- Peeking gives the instruction of the field that reading gives, and fails where reading
fails. -/
theorem peekInstruction_eq (opening : Run) (ps : List Position) (inner : List Run) :
    (peekInstruction ps).map (inner.reverse.flatMap Run.instruction ++ ·) =
      ((readFieldRest opening inner ps).1.toOption).map
        (fun f => f.inner.flatMap Run.instruction) := by
  induction ps generalizing inner with
  | nil => rfl
  | cons p ps ih =>
    cases p with
    | table id rows => rfl
    | run r =>
      rw [peekInstruction, readFieldRest]
      split
      · simp [Except.toOption]
      · rw [← ih (r :: inner)]
        simp [Function.comp_def, Option.map_map]

/-- Classifying sees a tag exactly where a complete field is read whose instruction starts with a
keyword. -/
theorem classify_eq_tag_iff {ps : List Position} {k : Keyword} :
    classify ps = .tag k ↔
      ∃ f rest, readField ps = (.ok f, rest) ∧ Keyword.match? f.instruction = some k := by
  match ps with
  | [] => simp [classify, readField]
  | .table id rows :: ps => simp [classify, readField]
  | .run r :: ps =>
    rw [classify, readField]
    cases hr : r.isOpening with
    | false => simp
    | true =>
      -- Peeking and reading go over the same runs, so they fail together.
      have hpeek := peekInstruction_eq r ps []
      simp only [List.reverse_nil, List.flatMap_nil, List.nil_append, Option.map_id'] at hpeek
      simp only [if_true, hpeek, Option.bind_map]
      match readFieldRest r [] ps with
      | (.error e, rest) => simp [Except.toOption]
      | (.ok f, rest) =>
        have hinstr : Text.trim (f.inner.flatMap Run.instruction) = f.instruction := rfl
        simp only [Except.toOption, Option.bind_some, Function.comp_def, hinstr, Prod.mk.injEq,
          Except.ok.injEq, exists_eq_left', exists_and_left, and_assoc]
        cases Keyword.match? f.instruction <;> simp

/-- Where a run stands there is a tag or plain text. -/
theorem classify_run (r : Run) (ps : List Position) :
    classify (.run r :: ps) = .text ∨ ∃ k, classify (.run r :: ps) = .tag k := by
  rw [classify]
  split
  · split
    · exact .inr ⟨_, rfl⟩
    · exact .inl rfl
  · exact .inl rfl

theorem classify_of_not_isOpening {r : Run} (h : r.isOpening = false) (ps : List Position) :
    classify (.run r :: ps) = .text := by
  rw [classify, h, if_neg (by simp)]

theorem classify_of_peekInstruction_eq_none {r : Run} {ps : List Position}
    (h : peekInstruction ps = none) : classify (.run r :: ps) = .text := by
  rw [classify, h]
  split <;> rfl

/-! ## The linear tokenization -/

/-- The tokens of a list of positions, from left to right: classify what begins at the first
position, take it, and go on after it. -/
def linear : List Position → List Token
  | [] => []
  | .table id rows :: ps => .table id rows :: linear ps
  | .run r :: ps =>
    match classify (.run r :: ps), _h : readField (.run r :: ps) with
    | .tag k, (.ok f, rest) => .tag k f :: linear rest
    | _, _ => .text r.id :: linear ps
termination_by ps => ps.length
decreasing_by
  · simp
  · exact length_lt_of_readField _h
  · simp

theorem linear_nil : linear [] = [] := by rw [linear]

theorem linear_table (id : TableId) (rows : List (List (List Token))) (ps : List Position) :
    linear (.table id rows :: ps) = .table id rows :: linear ps := by rw [linear]

/-- A field that is a tag is one token. -/
theorem linear_tag {ps rest : List Position} {f : Field} {k : Keyword}
    (hf : readField ps = (.ok f, rest)) (hk : Keyword.match? f.instruction = some k) :
    linear ps = .tag k f :: linear rest := by
  have hclass : classify ps = .tag k := classify_eq_tag_iff.mpr ⟨f, rest, hf, hk⟩
  match ps with
  | [] => simp [readField] at hf
  | .table id rows :: ps => simp [readField] at hf
  | .run r :: ps =>
    rw [linear]
    split
    next k' f' rest' hc hf' =>
      rw [hclass] at hc
      rw [hf] at hf'
      simp only [TokenKind.tag.injEq, Prod.mk.injEq, Except.ok.injEq] at hc hf'
      obtain ⟨rfl, rfl⟩ := hf'
      rw [hc]
    next hnot => exact absurd hf (hnot k f rest hclass)

/-- A run at which no tag begins is a token of its own. -/
theorem linear_text {r : Run} {ps : List Position} (h : classify (.run r :: ps) = .text) :
    linear (.run r :: ps) = .text r.id :: linear ps := by
  rw [linear]
  split
  next k f rest hc hf => rw [h] at hc; cases hc
  next => rfl

/-- Runs that open no field are plain text, whatever follows. -/
theorem linear_plain {rs : List Run} (h : ∀ r ∈ rs, r.isOpening = false) (ps : List Position) :
    linear (rs.map .run ++ ps) = (rs.map Run.id).map .text ++ linear ps := by
  induction rs with
  | nil => rfl
  | cons r rs ih =>
    obtain ⟨hr, hrs⟩ := List.forall_mem_cons.mp h
    simp only [List.map_cons, List.cons_append]
    rw [linear_text (classify_of_not_isOpening hr _), ih hrs]

/-- Induction along the linear tokenization: what begins at the first position is a table, a tag or
a run of plain text. -/
theorem linear_induction {P : List Position → Prop} (nil : P [])
    (table : ∀ id rows ps, P ps → P (.table id rows :: ps))
    (tag : ∀ ps f rest k, readField ps = (.ok f, rest) → Keyword.match? f.instruction = some k →
      P rest → P ps)
    (text : ∀ r ps, classify (.run r :: ps) = .text → P ps → P (.run r :: ps)) :
    ∀ ps, P ps
  | [] => nil
  | .table id rows :: ps => table id rows ps (linear_induction nil table tag text ps)
  | .run r :: ps => by
    rcases classify_run r ps with htext | ⟨k, htag⟩
    · exact text r ps htext (linear_induction nil table tag text ps)
    · obtain ⟨f, rest, hf, hk⟩ := classify_eq_tag_iff.mp htag
      exact tag _ f rest k hf hk (linear_induction nil table tag text rest)
termination_by ps => ps.length
decreasing_by
  · exact Nat.lt_succ_self _
  · exact Nat.lt_succ_self _
  · exact length_lt_of_readField hf

/-! ## Scanning from the end gives the same tokens -/

namespace FieldEnd

theorem inner_back (r : Run) (e : FieldEnd) : (e.back r).inner = r :: e.inner := by
  simp only [back]
  split <;> rfl

theorem closing_back (r : Run) (e : FieldEnd) : (e.back r).closing = e.closing := by
  simp only [back]
  split <;> rfl

theorem after_back (r : Run) (e : FieldEnd) : (e.back r).after = e.after := by
  simp only [back]
  split <;> rfl

end FieldEnd

/-- What looking ahead knows of the end of a field is what reading the field finds. -/
theorem lookAhead_fieldEnd (opening : Run) (inner : List Run) (ps : List Position) :
    match (lookAhead ps).fieldEnd with
    | none => ∃ e rest, readFieldRest opening inner ps = (.error e, rest)
    | some e => ∃ rest, e.after = scan rest ∧
        readFieldRest opening inner ps = (.ok ⟨opening, inner.reverse ++ e.inner, e.closing⟩, rest)
    := by
  induction ps generalizing inner with
  | nil => exact ⟨_, _, rfl⟩
  | cons p ps ih =>
    cases p with
    | table id rows => exact ⟨_, _, rfl⟩
    | run r =>
      have hback : (lookAhead (.run r :: ps)).fieldEnd =
          if r.isClosing then some (.atMark r (lookAhead ps).tokens)
          else (lookAhead ps).fieldEnd.map (.back r) := rfl
      rw [hback, readFieldRest]
      cases hr : r.isClosing with
      | true => exact ⟨ps, rfl, by simp [FieldEnd.atMark]⟩
      | false =>
        -- The run is put to the field in front, by reading as the last one so far.
        have ih := ih (r :: inner)
        cases he : (lookAhead ps).fieldEnd with
        | none =>
          rw [he] at ih
          simpa using ih
        | some e =>
          rw [he] at ih
          obtain ⟨rest, hafter, hread⟩ := ih
          refine ⟨rest, (e.after_back r).trans hafter, ?_⟩
          simp [hread, e.inner_back r, e.closing_back r]

theorem Ahead.tag?_eq (a : Ahead) (r : Run) :
    a.tag? r =
      if r.isOpening then
        a.fieldEnd.bind (fun e => e.keyword?.map (fun k => (k, e.field r, e.after)))
      else none := by
  rw [Ahead.tag?]
  cases r.isOpening with
  | false => rfl
  | true =>
    cases a.fieldEnd with
    | none => rfl
    | some e =>
      show (e.keyword?.bind fun k => some (k, e.field r, e.after)) =
        e.keyword?.map (fun k => (k, e.field r, e.after))
      cases e.keyword? <;> rfl

theorem scan_run (r : Run) (ps : List Position) :
    scan (.run r :: ps) =
      match (lookAhead ps).tag? r with
      | some (k, f, after) => .tag k f :: after
      | none => .text r.id :: scan ps := rfl

/-- Looking ahead finds a tag exactly where a complete field with a keyword is read. -/
theorem Ahead.tag?_lookAhead (r : Run) (ps : List Position) :
    (lookAhead ps).tag? r =
      match readField (.run r :: ps) with
      | (.ok f, rest) => (Keyword.match? f.instruction).map (fun k => (k, f, scan rest))
      | (.error _, _) => none := by
  rw [Ahead.tag?_eq, readField]
  cases hr : r.isOpening with
  | false => rfl
  | true =>
    have hend := lookAhead_fieldEnd r [] ps
    cases he : (lookAhead ps).fieldEnd with
    | none =>
      rw [he] at hend
      obtain ⟨e, rest, hread⟩ := hend
      simp [hread]
    | some e =>
      rw [he] at hend
      obtain ⟨rest, hafter, hread⟩ := hend
      simp [hread, e.keyword?_eq r, hafter, FieldEnd.field]

/-- **Scanning from the end is the linear tokenization.** -/
theorem scan_eq_linear (ps : List Position) : scan ps = linear ps := by
  induction ps using linear_induction with
  | nil => rw [linear_nil]; rfl
  | table id rows ps ih => rw [linear_table, ← ih]; rfl
  | tag ps f rest k hf hk ih =>
    match ps with
    | [] => simp [readField] at hf
    | .table id rows :: ps => simp [readField] at hf
    | .run r :: ps => rw [scan_run, Ahead.tag?_lookAhead, hf, linear_tag hf hk, ← ih]; simp [hk]
  | text r ps h ih =>
    rw [scan_run, Ahead.tag?_lookAhead, linear_text h, ← ih]
    split
    next k f after htag =>
      split at htag
      next f' rest hf =>
        -- A keyword would make the run the start of a tag.
        obtain ⟨k', hk', -⟩ := Option.map_eq_some_iff.mp htag
        rw [classify_eq_tag_iff.mpr ⟨f', rest, hf, hk'⟩] at h
        cases h
      next => cases htag
    next => rfl

/-! ## Bodies -/

namespace Body

mutual

/-- The positions of a body, front to back. -/
def linearPositions : List Element → List Position
  | [] => []
  | e :: es => elementPositions e ++ linearPositions es

/-- The positions of an element; a table is one position, with the tokens of its cells. -/
def elementPositions : Element → List Position
  | .paragraph runs => runs.map Position.run
  | .table id rows => [.table id (linearRows rows)]

/-- The tokens of the rows of a table. -/
def linearRows : List (List (List Element)) → List (List (List Token))
  | [] => []
  | r :: rs => linearCells r :: linearRows rs

/-- The tokens of the cells of a row. -/
def linearCells : List (List Element) → List (List Token)
  | [] => []
  | c :: cs => linear (linearPositions c) :: linearCells cs

end

/-- The linear tokenization of a body, in which the cells of every table are tokenized the same
way. -/
def linearTokens (b : Body) : List Token := linear (linearPositions b)

mutual

theorem pushPositions_eq (acc : List Position) :
    ∀ b : List Element, pushPositions acc b = (linearPositions b).reverse ++ acc
  | [] => by simp [pushPositions, linearPositions]
  | e :: es => by
    rw [pushPositions, pushPositions_eq _ es, pushElementPositions_eq acc e, linearPositions]
    simp

theorem pushElementPositions_eq (acc : List Position) :
    ∀ e : Element, pushElementPositions acc e = (elementPositions e).reverse ++ acc
  | .paragraph runs => by simp [pushElementPositions, elementPositions]
  | .table id rows => by simp [pushElementPositions, elementPositions, rowTokens_eq rows]

theorem rowTokens_eq : ∀ rows : List (List (List Element)), rowTokens rows = linearRows rows
  | [] => rfl
  | r :: rs => by rw [rowTokens, linearRows, cellTokens_eq r, rowTokens_eq rs]

theorem cellTokens_eq : ∀ cells : List (List Element), cellTokens cells = linearCells cells
  | [] => rfl
  | c :: cs => by
    rw [cellTokens, linearCells, pushPositions_eq [] c, cellTokens_eq cs, scan_eq_linear]
    simp

end

theorem positions_eq_linearPositions (b : Body) : b.positions = linearPositions b := by
  simp [positions, pushPositions_eq]

/-- **The tokens of a body are its linear tokenization**, at every depth. -/
theorem tokens_eq_linearTokens (b : Body) : b.tokens = b.linearTokens := by
  rw [tokens, scan_eq_linear, positions_eq_linearPositions, linearTokens]

theorem linearCells_eq_map (cells : List (List Element)) :
    linearCells cells = cells.map linearTokens := by
  induction cells with
  | nil => rfl
  | cons c cs ih => rw [linearCells, ih]; rfl

theorem linearRows_eq_map (rows : List (List (List Element))) :
    linearRows rows = rows.map (fun r => r.map linearTokens) := by
  induction rows with
  | nil => rfl
  | cons r rs ih => rw [linearRows, ih, linearCells_eq_map]; rfl

end Body

end DocTemplate
