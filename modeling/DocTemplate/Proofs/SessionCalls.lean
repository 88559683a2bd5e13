import DocTemplate.Proofs.DescentAgreement

/-!
# What a session can be asked to read

The constructs that a session reads at the place it has reached, one kind of call for each, and the
same calls made by nested reading with a counter. With the limit of the session both come back with
the same answer and leave the same session behind.

## Main statements

- `Session.descend_descends`: every call is made by calls that have a derivation
- `Session.Descends.run`, `Session.run_eq_descend`: a session reads by nested calls
- `Session.Descends.keeps`: what a call does to the place, the depth and the counter
-/

namespace DocTemplate

/-! ## Sessions and readers -/

namespace Reader

variable {r r' : Reader}

theorem remaining_le_of_suffix (h : r'.ahead <:+ r.ahead) : r'.remaining ≤ r.remaining := by
  obtain ⟨passed, hpassed⟩ := h
  rw [remaining, remaining, ← hpassed, List.map_append, List.foldr_append]
  generalize (r'.ahead.map Token.width).foldr (· + ·) 0 = n
  induction passed.map Token.width with
  | nil => exact Nat.le_refl n
  | cons width widths ih => exact Nat.le_trans ih (Nat.le_add_left _ _)

end Reader

theorem readField_suffix (ps : List Position) : (readField ps).2 <:+ ps := by
  match hread : readField ps with
  | (.ok f, rest) =>
    obtain ⟨passed, hpassed, -⟩ := (Field.standsAt_of_readField hread).split
    exact ⟨passed, hpassed.symm⟩
  | (.error e, rest) =>
    obtain ⟨passed, hpassed, -⟩ := readField_eq_error hread
    exact ⟨passed, hpassed.symm⟩

namespace Session

/-- The reader that stands where the session stands. -/
def reader (s : Session) : Reader := ⟨s.tokens, s.depth, { peak := s.depth }⟩

/-- The session when a call has come back at a place further on. -/
def backAt (s : Session) (r : Reader) : Session :=
  { (s.leaving r.remaining).noting r.trace.strays with depth := r.depth }

/-- A reader has the positions ahead that the session has. -/
theorem remaining_reader (s : Session) : s.reader.remaining = s.cursor.remaining := by
  show ((scan s.cursor.rest).map Token.width).foldr (· + ·) 0 = _
  rw [scan_eq_linear, width_linear]
  exact List.length_drop

theorem after_eq_backAt {s : Session} {out : Outcome} {r : Reader} (hrest : out.rest = r.ahead)
    (hstrays : out.progress.strays = r.trace.strays) (hdepth : r.depth = s.depth) :
    s.after out = s.backAt r := by
  rw [after, backAt, hrest, hstrays, hdepth]
  rfl

/-! ## The calls -/

/-- What a session can be asked to read. -/
inductive Call where
  /-- Constructs up to one of the kinds, into the session's tag. -/
  | block (stops : List TokenKind)
  | loop
  | conditional
  | query
  | image
  | diagram
  | text
  | table
  /-- A cell of the table that stands here. -/
  | cell (row column : Nat)
  | template

/-- What a call comes back with. -/
def Call.Answer : Call → Type
  | .block _ => Except ParseError TokenKind × List Construct
  | .loop | .conditional | .query | .image | .diagram => Except ParseError Construct
  | .text => Construct
  | .table => Option (Except ParseError Construct)
  | .cell .. => Option (Except ParseError Template)
  | .template => Except ParseError Template

/-- What the session does. -/
def run (s : Session) : (c : Call) → c.Answer × Session
  | .block stops => (((s.readBlock stops).1, (s.readBlock stops).2.1), (s.readBlock stops).2.2)
  | .loop => s.readLoop
  | .conditional => s.readConditional
  | .query => s.readQuery
  | .image => s.readImage
  | .diagram => s.readDiagram
  | .text => s.readText
  | .table => s.readTable
  | .cell row column => s.readCell row column
  | .template => s.readTemplate

/-- What a call comes back with, the session that it leaves, and the highest value that the counter
has had on the way. -/
structure Descended (α : Type) where
  answer : α
  session : Session
  peak : Nat

/-- The tag of a body when it has been read. -/
def tagAfter (tag : Tag) (stops : List TokenKind) (answer : Except ParseError TokenKind)
    (g : Collected) : Tag :=
  let tag := tag.swallowAll g.swallowed.reverse
  match answer with
  | .ok .endOfBody =>
    if stops.contains .endOfBody then tag else tag.report (.unexpected .endOfBody) none
  | _ => tag

/-- Read a body by nested calls. -/
def descendBlock (s : Session) (limit? : Option Nat) (stops : List TokenKind) :
    Back s.reader (Except ParseError TokenKind × Collected) :=
  Reader.block s.setting limit? stops {} s.reader

/-- Take the field at this place as the opening of a level, and read on by nested calls. -/
def descendLevel (s : Session) (limit? : Option Nat) (level : Nat → Field → Level) :
    Descended (Except ParseError Construct) :=
  match s.takeField with
  | (.error e, s') => ⟨.error e, s', s'.depth⟩
  | (.ok f, s') =>
    let b := Reader.level s'.setting limit? (level (s'.depth + 1) f) s'.reader
    ⟨b.answer, s'.backAt b.reader, b.reader.trace.peak⟩

/-- The table at this place. -/
def tableHere? (s : Session) : Option (TableId × List (List (List Token))) :=
  match s.cursor.rest with
  | .table id rows :: _ => some (id, rows)
  | _ => none

/-- A cell of the table at this place. -/
def cellHere? (s : Session) (row column : Nat) : Option (List Token) :=
  s.tableHere?.bind fun t => t.2[row]?.bind (·[column]?)

/-- Read the cells of a table, each by a call of its own. -/
def descendTable (s : Session) (limit? : Option Nat) (id : TableId)
    (rows : List (List (List Token))) : Descended (Option (Except ParseError Construct)) :=
  let (result, trace) := Trace.each (Trace.each (Reader.cell s.setting limit? s.depth)) rows
    { peak := s.depth }
  ⟨some (result.map (.table id)), s.next.2.noting trace.strays, trace.peak⟩

/-- Read a cell of a table by a call of its own. -/
def descendCell (s : Session) (limit? : Option Nat) (cell : List Token) :
    Descended (Option (Except ParseError Template)) :=
  let (result, trace) := Reader.cell s.setting limit? s.depth cell { peak := s.depth }
  ⟨some result, s.noting trace.strays, trace.peak⟩

/-- The same calls by nested reading. What is understood by itself needs no counter. -/
def descend (s : Session) (limit? : Option Nat) : (c : Call) → Descended c.Answer
  | .block stops =>
    let b := s.descendBlock limit? stops
    { answer := (b.answer.1, b.answer.2.body.reverse)
      session := { s.backAt b.reader with tag := tagAfter s.tag stops b.answer.1 b.answer.2 }
      peak := b.reader.trace.peak }
  | .loop => s.descendLevel limit? (Level.ofLoop s.setting)
  | .conditional => s.descendLevel limit? fun depth f => Level.ofCondition s.setting depth [] f
  | .query => ⟨s.readQuery.1, s.readQuery.2, s.depth⟩
  | .image => ⟨s.readImage.1, s.readImage.2, s.depth⟩
  | .diagram => ⟨s.readDiagram.1, s.readDiagram.2, s.depth⟩
  | .text => ⟨s.readText.1, s.readText.2, s.depth⟩
  | .table => match s.tableHere? with
    | some (id, rows) => s.descendTable limit? id rows
    | none => ⟨none, s, s.depth⟩
  | .cell row column => match s.cellHere? row column with
    | some cell => s.descendCell limit? cell
    | none => ⟨none, s, s.depth⟩
  | .template =>
    let b := s.descendBlock limit? [.endOfBody]
    { answer := b.answer.1.map fun _ => b.answer.2.toSection
      session := s.backAt b.reader
      peak := b.reader.trace.peak }

end Session

/-! ## A body read for its own sake -/

namespace Reader

/-- Where reading has ended, so does the reading of a block in which no level is open. -/
theorem readTokens_at_stop {s : Setting} {b : Block} {g : Collected} {strays : List Stray}
    {r : Reader} {kind : TokenKind}
    (h : r.kind = kind ∧ (kind ∈ b.stops ∨ kind = .endOfBody)) :
    readTokens s r.ahead ({ block := b : Progress }.holding g strays) =
      ⟨if kind = .endOfBody then ({ block := b : Progress }.holding g strays).finish
        else { block := b : Progress }.holding g strays, r.ahead, .ok kind⟩ := by
  obtain ⟨rfl, hstop⟩ := h
  cases hahead : r.ahead with
  | nil =>
    rw [readTokens]
    simp [Reader.kind, hahead]
  | cons t ts =>
    have hkind : r.kind = t.kind := by simp [Reader.kind, hahead]
    rw [hkind] at hstop ⊢
    have hstops : ({ block := b : Progress }.holding g strays).stopsAt t.kind = true :=
      Progress.stopsAt_eq_true_iff.mpr ⟨rfl, hstop.resolve_right t.kind_ne_endOfBody⟩
    rw [readTokens, if_pos hstops, Progress.settle_holding, if_neg t.kind_ne_endOfBody]

section FinishedBlock

variable (b : Block) (g : Collected) (strays : List Stray)

theorem finish_holding :
    ({ block := b : Progress }.holding g strays).finish.block =
      if b.stops.contains .endOfBody then { b with swallowed := g.swallowed, body := g.body }
      else
        { b with swallowed := g.swallowed, body := g.body : Block }.report
          (.unexpected .endOfBody) none :=
  rfl

theorem body_finish_holding :
    ({ block := b : Progress }.holding g strays).finish.block.body = g.body := by
  rw [finish_holding]
  split <;> rfl

theorem tag_finish_holding :
    ({ block := b : Progress }.holding g strays).finish.block.tag =
      Session.tagAfter b.header b.stops (.ok .endOfBody) g := by
  rw [finish_holding, Session.tagAfter]
  split
  · rfl
  · exact Tag.swallowAll_nil _

end FinishedBlock

theorem tagAfter_of_ne (tag : Tag) (stops : List TokenKind) (g : Collected) {kind : TokenKind}
    (h : kind ≠ .endOfBody) :
    Session.tagAfter tag stops (.ok kind) g = tag.swallowAll g.swallowed.reverse := by
  unfold Session.tagAfter
  split
  next hkind => cases hkind; exact absurd rfl h
  next => rfl

/-- How the reading of a block ends, by the call that reads it. -/
structure EndsAs (out : Outcome) (header : Tag) (stops : List TokenKind)
    (answer : Except ParseError TokenKind) (g : Collected) (r : Reader) : Prop where
  result : out.result = answer
  rest : out.rest = r.ahead
  strays : out.progress.strays = r.trace.strays
  body : out.progress.block.body = g.body
  tag : out.progress.block.tag = Session.tagAfter header stops answer g

theorem readBlock_endsAs {s : Setting} {stops : List TokenKind} {r r' : Reader}
    {answer : Except ParseError TokenKind} {g : Collected} (header : Tag)
    (hstrays : r.trace.strays = [])
    (h : Ends s (some s.limit) (.block stops {}) r (.returns answer g) r') :
    EndsAs (readBlock s r.depth stops header r.ahead) header stops answer g r' := by
  have hmatch := h.matches
  simp only [Matches] at hmatch
  unfold readBlock
  split at hmatch
  next hlimit =>
    -- At the limit nothing is read.
    obtain ⟨rfl, rfl, rfl⟩ := hmatch
    rw [if_pos hlimit]
    exact ⟨rfl, rfl, hstrays.symm, rfl, rfl⟩
  next hlimit =>
    rw [if_neg hlimit]
    have hstart : ({ block := { stops := stops, depth := r.depth + 1, header := header } } :
        Progress).holding {} r.trace.strays =
        { block := { stops := stops, depth := r.depth + 1, header := header } } := by
      rw [hstrays]
      rfl
    have hreads := hmatch
      { block := { stops := stops, depth := r.depth + 1, header := header } } ⟨rfl, rfl⟩
    rw [hstart] at hreads
    cases answer with
    | error e =>
      obtain ⟨q, hread, hq, hblock⟩ := hreads
      simp only [hread]
      exact ⟨rfl, rfl, hq, by rw [hblock]; rfl, by rw [hblock]; rfl⟩
    | ok kind =>
      have hread := hreads.trans (readTokens_at_stop (h.kind_eq rfl))
      by_cases hend : kind = .endOfBody
      · subst hend
        rw [if_pos rfl] at hread
        simp only [hread]
        exact ⟨rfl, rfl, rfl, body_finish_holding _ _ _, tag_finish_holding _ _ _⟩
      · rw [if_neg hend] at hread
        simp only [hread]
        exact ⟨rfl, rfl, rfl, rfl, (tagAfter_of_ne header stops g hend).symm⟩

/-- A level read on its own: the block underneath stops before anything. -/
theorem readTokens_level {s : Setting} {l : Level} {r r' : Reader}
    {answer : Except ParseError Construct} (hfresh : l.Fresh (r.depth + 1))
    (hstrays : r.trace.strays = []) (hlimit : ¬ s.limit ≤ r.depth)
    (h : Ends s (some s.limit) (.level l) r (.built answer) r') :
    ∃ out, readTokens s r.ahead
        { block := { stops := TokenKind.all, depth := r.depth }, levels := [l] } = out ∧
      out.result.map (fun _ => out.progress.block.body.headD (.text {})) = answer ∧
      out.rest = r'.ahead ∧ out.progress.strays = r'.trace.strays := by
  have hmatch := h.matches hfresh
  rw [if_neg hlimit] at hmatch
  have hreads := hmatch { block := { stops := TokenKind.all, depth := r.depth } } rfl hstrays.symm
  cases answer with
  | error e =>
    obtain ⟨q, hread, hq, -⟩ := hreads
    exact ⟨_, hread, rfl, rfl, hq⟩
  | ok c =>
    -- Now the block holds the construct of the level and nothing else.
    have hadded : ({ block := { stops := TokenKind.all, depth := r.depth } } : Progress).adding
        (.ok c) r'.trace.strays =
        ({ block := { stops := TokenKind.all, depth := r.depth } } : Progress).holding
          { body := [c] } r'.trace.strays := rfl
    have hread : readTokens s _ _ = readTokens s _ _ := hreads
    rw [hadded, readTokens_at_stop ⟨rfl, .inl (TokenKind.mem_all r'.kind)⟩] at hread
    refine ⟨_, hread, ?_, rfl, ?_⟩
    · simp only [Except.map]
      split <;> rfl
    · dsimp only
      split <;> rfl

end Reader

namespace Session

/-! ## Calls with their derivations -/

/-- A level is opened and read by calls that have a derivation. -/
inductive LevelDescends (s : Session) (limit? : Option Nat) (level : Nat → Field → Level) :
    Descended (Except ParseError Construct) → Prop where
  | noField {e : ParseError} {s' : Session} (hfield : s.takeField = (.error e, s')) :
      LevelDescends s limit? level ⟨.error e, s', s'.depth⟩
  | level {f : Field} {s' : Session} {answer : Except ParseError Construct} {r : Reader}
      (hfield : s.takeField = (.ok f, s'))
      (hends : Reader.Ends s'.setting limit? (.level (level (s'.depth + 1) f)) s'.reader
        (.built answer) r) :
      LevelDescends s limit? level ⟨answer, s'.backAt r, r.trace.peak⟩

/-- A call is made by calls that have a derivation. -/
inductive Descends (s : Session) (limit? : Option Nat) :
    (c : Call) → Descended c.Answer → Prop where
  | block {stops : List TokenKind} {answer : Except ParseError TokenKind} {g : Collected}
      {r : Reader}
      (hends : Reader.Ends s.setting limit? (.block stops {}) s.reader (.returns answer g) r) :
      Descends s limit? (.block stops)
        ⟨(answer, g.body.reverse), { s.backAt r with tag := tagAfter s.tag stops answer g },
          r.trace.peak⟩
  | loop {d : Descended (Except ParseError Construct)}
      (h : LevelDescends s limit? (Level.ofLoop s.setting) d) : Descends s limit? .loop d
  | conditional {d : Descended (Except ParseError Construct)}
      (h : LevelDescends s limit? (fun depth f => Level.ofCondition s.setting depth [] f) d) :
      Descends s limit? .conditional d
  | query {answer : Except ParseError Construct} {s' : Session}
      (hread : s.readQuery = (answer, s')) : Descends s limit? .query ⟨answer, s', s.depth⟩
  | image {answer : Except ParseError Construct} {s' : Session}
      (hread : s.readImage = (answer, s')) : Descends s limit? .image ⟨answer, s', s.depth⟩
  | diagram {answer : Except ParseError Construct} {s' : Session}
      (hread : s.readDiagram = (answer, s')) : Descends s limit? .diagram ⟨answer, s', s.depth⟩
  | text : Descends s limit? .text ⟨s.readText.1, s.readText.2, s.depth⟩
  | table {id : TableId} {rows : List (List (List Token))}
      {answer : Except ParseError (List (List Template))} {r : Reader}
      (hhere : s.tableHere? = some (id, rows))
      (hends : Reader.Ends s.setting limit? (.rows rows) ⟨[], s.depth, { peak := s.depth }⟩
        (.rows answer) r) :
      Descends s limit? .table
        ⟨some (answer.map (.table id)), s.next.2.noting r.trace.strays, r.trace.peak⟩
  | noTable (hhere : s.tableHere? = none) : Descends s limit? .table ⟨none, s, s.depth⟩
  | cell {row column : Nat} {cell : List Token} {answer : Except ParseError TokenKind}
      {g : Collected} {r : Reader} (hhere : s.cellHere? row column = some cell)
      (hends : Reader.Ends s.setting limit? (.block [.endOfBody] {})
        ⟨cell, s.depth, { peak := s.depth }⟩ (.returns answer g) r) :
      Descends s limit? (.cell row column)
        ⟨some (answer.map fun _ => g.toSection), s.noting r.trace.strays, r.trace.peak⟩
  | noCell {row column : Nat} (hhere : s.cellHere? row column = none) :
      Descends s limit? (.cell row column) ⟨none, s, s.depth⟩
  | template {answer : Except ParseError TokenKind} {g : Collected} {r : Reader}
      (hends : Reader.Ends s.setting limit? (.block [.endOfBody] {}) s.reader
        (.returns answer g) r) :
      Descends s limit? .template
        ⟨answer.map fun _ => g.toSection, s.backAt r, r.trace.peak⟩

section Derivations

variable (s : Session) (limit? : Option Nat)

theorem descendLevel_descends (level : Nat → Field → Level) :
    LevelDescends s limit? level (s.descendLevel limit? level) := by
  unfold descendLevel
  match hfield : s.takeField with
  | (.error e, s') => exact .noField hfield
  | (.ok f, s') =>
    exact .level hfield
      ((Reader.calls_end s'.setting limit?).2.2.2 (level (s'.depth + 1) f) s'.reader)

/-- **Every call is made by calls that have a derivation.** -/
theorem descend_descends (c : Call) : Descends s limit? c (s.descend limit? c) := by
  have hblock := (Reader.calls_end s.setting limit?).2.1
  cases c with
  | block stops => exact .block (hblock stops {} s.reader)
  | template => exact .template (hblock [.endOfBody] {} s.reader)
  | loop => exact .loop (s.descendLevel_descends limit? _)
  | conditional => exact .conditional (s.descendLevel_descends limit? _)
  | query => exact .query rfl
  | image => exact .image rfl
  | diagram => exact .diagram rfl
  | text => exact .text
  | table =>
    rw [descend]
    match hhere : s.tableHere? with
    | none => exact .noTable hhere
    | some (id, rows) =>
      exact .table hhere
        (Reader.rows_ends (fun row hrow cell hcell trace => hblock [.endOfBody] {} _) [] _)
  | cell row column =>
    rw [descend]
    match hhere : s.cellHere? row column with
    | none => exact .noCell hhere
    | some cell => exact .cell hhere (hblock [.endOfBody] {} _)

end Derivations

/-! ## A session reads by nested calls -/

section Agreement

variable {s : Session}

theorem reader_ahead (s : Session) : s.reader.ahead = s.tokens := rfl

theorem reader_depth (s : Session) : s.reader.depth = s.depth := rfl

/-- A template's tag notes nothing about the end of its body. -/
theorem tagAfter_template (tag : Tag) (answer : Except ParseError TokenKind) (g : Collected) :
    tagAfter tag [.endOfBody] answer g = tag.swallowAll g.swallowed.reverse := by
  unfold tagAfter
  split <;> rfl

/-- A session that has been left at its own place is as it was. -/
theorem leaving_remaining (hplace : s.cursor.InBody) : s.leaving s.cursor.remaining = s := by
  have hindex : s.cursor.positions.length - s.cursor.remaining = s.cursor.index :=
    Nat.sub_sub_self hplace
  rw [leaving, Cursor.leaving, hindex]

theorem backAt_reader (hplace : s.cursor.InBody) : s.backAt s.reader = s := by
  rw [backAt, remaining_reader, leaving_remaining hplace]
  rfl

theorem inBody_leaving (s : Session) (n : Nat) : (s.leaving n).cursor.InBody := Nat.sub_le _ _

theorem readTable_eq (s : Session) :
    s.readTable =
      match s.tableHere? with
      | some (id, rows) =>
        (some ((readRows s.setting s.depth rows [] []).1.map (.table id)),
          s.next.2.noting (readRows s.setting s.depth rows [] []).2)
      | none => (none, s) := by
  unfold readTable tableHere?
  match s.cursor.rest with
  | .table id rows :: ps => rfl
  | [] | .run r :: ps => rfl

theorem readCell_eq (s : Session) (row column : Nat) :
    s.readCell row column =
      match s.cellHere? row column with
      | some cell =>
        (some (DocTemplate.readTemplate s.setting s.depth cell).result,
          s.noting (DocTemplate.readTemplate s.setting s.depth cell).strays.reverse)
      | none => (none, s) := by
  unfold readCell cellHere? tableHere?
  match s.cursor.rest with
  | .table id rows :: ps => cases hcell : rows[row]?.bind (·[column]?) <;> simp [hcell]
  | [] | .run r :: ps => rfl

/-- A level is read as nested calls read it. -/
theorem LevelDescends.readLevel {level : Nat → Field → Level}
    {d : Descended (Except ParseError Construct)} (hfresh : ∀ depth f, (level depth f).Fresh depth)
    (h : LevelDescends s (some s.setting.limit) level d) :
    s.readLevel level = (d.answer, d.session) := by
  cases h with
  | noField hfield => rw [Session.readLevel, hfield]
  | @level f s' answer r hfield hends =>
    have htaken : s' = s.takeField.2 := by rw [hfield]
    have hsetting : s'.setting = s.setting := htaken ▸ rfl
    have hplace : s'.cursor.InBody := htaken ▸ s.inBody_leaving _
    rw [← hsetting] at hends
    simp only [Session.readLevel, hfield]
    split
    next hlimit =>
      -- The call that reads the level comes back at once.
      have hmatch := hends.matches (hfresh _ f)
      rw [if_pos (show s'.setting.limit ≤ s'.reader.depth from hlimit)] at hmatch
      rw [hmatch.1, hmatch.2, backAt_reader hplace]
    next hlimit =>
      obtain ⟨out, hread, hanswer, hrest, hstrays⟩ :=
        Reader.readTokens_level (r := s'.reader) (hfresh _ f) rfl hlimit hends
      rw [reader_ahead, reader_depth] at hread
      rw [hread, hanswer, after_eq_backAt hrest hstrays hends.depth_eq]

theorem readTable_of_ends {id : TableId} {rows : List (List (List Token))}
    {answer : Except ParseError (List (List Template))} {r : Reader}
    (hhere : s.tableHere? = some (id, rows))
    (hends : Reader.Ends s.setting (some s.setting.limit) (.rows rows)
      ⟨[], s.depth, { peak := s.depth }⟩ (.rows answer) r) :
    s.readTable = (some (answer.map (.table id)), s.next.2.noting r.trace.strays) := by
  have hrows : readRows s.setting s.depth rows [] [] = (answer.map ([] ++ ·), r.trace.strays) :=
    hends.matches.2 []
  rw [readTable_eq, hhere]
  simp only [hrows]
  cases answer <;> rfl

theorem readCell_of_ends {row column : Nat} {cell : List Token}
    {answer : Except ParseError TokenKind} {g : Collected} {r : Reader}
    (hhere : s.cellHere? row column = some cell)
    (hends : Reader.Ends s.setting (some s.setting.limit) (.block [.endOfBody] {})
      ⟨cell, s.depth, { peak := s.depth }⟩ (.returns answer g) r) :
    s.readCell row column = (some (answer.map fun _ => g.toSection), s.noting r.trace.strays) := by
  have hout := Reader.readBlock_endsAs {} rfl hends
  rw [readCell_eq, hhere]
  simp only [DocTemplate.readTemplate, hout.result, hout.strays, List.reverse_reverse,
    Block.toSection, hout.body, hout.tag, tagAfter_template]
  rfl

/-- **A session reads by nested calls**, with its limit as the limit on the counter. -/
theorem Descends.run {c : Call} {d : Descended c.Answer}
    (h : Descends s (some s.setting.limit) c d) : s.run c = (d.answer, d.session) := by
  cases h with
  | block hends =>
    -- Only here the session's own tag takes in what the body has swallowed.
    have hout := Reader.readBlock_endsAs s.tag rfl hends
    have hback := after_eq_backAt (s := s) hout.rest hout.strays hends.depth_eq
    simp only [Session.run, readBlock, ← reader_ahead, ← reader_depth, hout.result, hout.body,
      hout.tag, hback]
  | template hends =>
    have hout := Reader.readBlock_endsAs {} rfl hends
    have hback := after_eq_backAt (s := s) hout.rest hout.strays hends.depth_eq
    simp only [Session.run, readTemplate, Block.toSection, ← reader_ahead, ← reader_depth,
      hout.result, hout.body, hout.tag, hback, tagAfter_template]
    rfl
  | loop hlevel => exact hlevel.readLevel fun depth f => ⟨rfl, rfl⟩
  | conditional hlevel => exact hlevel.readLevel fun depth f => ⟨rfl, rfl⟩
  | query hread | image hread | diagram hread => exact hread
  | text => rfl
  | table hhere hends => exact readTable_of_ends hhere hends
  | noTable hhere =>
    have hread : s.readTable = (none, s) := by rw [readTable_eq, hhere]
    exact hread
  | cell hhere hends => exact readCell_of_ends hhere hends
  | @noCell row column hhere =>
    have hread : s.readCell row column = (none, s) := by rw [readCell_eq, hhere]
    exact hread

/-- A session does what the call by nested reading does. -/
theorem run_eq_descend (s : Session) (c : Call) :
    s.run c =
      ((s.descend (some s.setting.limit) c).answer,
        (s.descend (some s.setting.limit) c).session) :=
  (s.descend_descends _ c).run

end Agreement

/-! ## The counter and the place -/

/-- What holds of a session that a call has left, and of the counter on the way. -/
structure Keeps (limit? : Option Nat) (s s' : Session) (peak : Nat) : Prop where
  setting : s'.setting = s.setting
  depth : s'.depth = s.depth
  depth_le_peak : s.depth ≤ peak
  peak_le : ∀ n, limit? = some n → s.depth ≤ n → peak ≤ n
  positions : s'.cursor.positions = s.cursor.positions
  index_le : s.cursor.index ≤ s'.cursor.index
  inBody : s'.cursor.InBody

section Effects

variable {s s' s'' : Session} {limit? : Option Nat} {peak peak' : Nat}

theorem Keeps.refl (hplace : s.cursor.InBody) : Keeps limit? s s s.depth where
  setting := rfl
  depth := rfl
  depth_le_peak := Nat.le_refl _
  peak_le := fun _ _ hle => hle
  positions := rfl
  index_le := Nat.le_refl _
  inBody := hplace

theorem Keeps.trans (h : Keeps limit? s s' peak) (h' : Keeps limit? s' s'' peak') :
    Keeps limit? s s'' peak' where
  setting := h'.setting.trans h.setting
  depth := h'.depth.trans h.depth
  depth_le_peak := h.depth ▸ h'.depth_le_peak
  peak_le := fun n hn hle => h'.peak_le n hn (h.depth ▸ hle)
  positions := h'.positions.trans h.positions
  index_le := Nat.le_trans h.index_le h'.index_le
  inBody := h'.inBody

/-- The tag and the strays do not matter. -/
theorem Keeps.of_cursor (h : Keeps limit? s s' peak) (hsetting : s''.setting = s'.setting)
    (hcursor : s''.cursor = s'.cursor) (hdepth : s''.depth = s'.depth) :
    Keeps limit? s s'' peak where
  setting := hsetting.trans h.setting
  depth := hdepth.trans h.depth
  depth_le_peak := h.depth_le_peak
  peak_le := h.peak_le
  positions := hcursor ▸ h.positions
  index_le := hcursor ▸ h.index_le
  inBody := hcursor ▸ h.inBody

theorem keeps_leaving (hplace : s.cursor.InBody) {n : Nat} (hn : n ≤ s.cursor.remaining) :
    Keeps limit? s (s.leaving n) s.depth where
  setting := rfl
  depth := rfl
  depth_le_peak := Nat.le_refl _
  peak_le := fun _ _ hle => hle
  positions := rfl
  index_le := by
    have hindex : s.cursor.index ≤ s.cursor.positions.length := hplace
    rw [Cursor.remaining] at hn
    show s.cursor.index ≤ s.cursor.positions.length - n
    omega
  inBody := s.inBody_leaving n

theorem Keeps.withPeak (h : Keeps limit? s s' s.depth) (hge : s.depth ≤ peak)
    (hle : ∀ n, limit? = some n → s.depth ≤ n → peak ≤ n) : Keeps limit? s s' peak :=
  { h with depth_le_peak := hge, peak_le := hle }

/-- A call by nested reading leaves the counter as it was, and what it has passed is behind. -/
theorem keeps_backAt {task : Reader.Task} {answer : Reader.Answer} {r : Reader}
    (hplace : s.cursor.InBody) (h : Reader.Ends s.setting limit? task s.reader answer r) :
    Keeps limit? s (s.backAt r) r.trace.peak := by
  have hremaining := Reader.remaining_le_of_suffix h.forward
  rw [s.remaining_reader] at hremaining
  have hplaced : Keeps limit? s (s.leaving r.remaining) s.depth := keeps_leaving hplace hremaining
  exact
    { hplaced with
      depth := h.depth_eq
      depth_le_peak := h.peak_mono
      peak_le := fun n hn hle => by subst hn; exact h.peak_le_limit hle }

theorem keeps_takeField (hplace : s.cursor.InBody) : Keeps limit? s s.takeField.2 s.depth := by
  have hlength := (readField_suffix s.cursor.rest).length_le
  rw [show s.cursor.rest.length = s.cursor.remaining from List.length_drop] at hlength
  exact keeps_leaving hplace hlength

theorem keeps_next (hplace : s.cursor.InBody) : Keeps limit? s s.next.2 s.depth := by
  unfold next Cursor.next
  cases hposition : s.cursor.positions[s.cursor.index]? with
  | none => exact .refl hplace
  | some p =>
    have hindex : s.cursor.index < s.cursor.positions.length :=
      (List.getElem?_eq_some_iff.mp hposition).1
    have hstays : Keeps limit? s s s.depth := .refl hplace
    exact { hstays with index_le := Nat.le_succ _, inBody := hindex }

theorem keeps_readWith (hplace : s.cursor.InBody) {read : Field → Construct}
    {answer : Except ParseError Construct} (h : s.readWith read = (answer, s')) :
    Keeps limit? s s' s.depth := by
  have htaken : Keeps limit? s s.takeField.2 s.depth := keeps_takeField hplace
  unfold readWith at h
  generalize s.takeField = taken at h htaken
  obtain ⟨e | f, s''⟩ := taken <;> cases h <;> exact htaken

theorem LevelDescends.keeps {level : Nat → Field → Level}
    {d : Descended (Except ParseError Construct)} (h : LevelDescends s limit? level d)
    (hplace : s.cursor.InBody) : Keeps limit? s d.session d.peak := by
  have htaken : Keeps limit? s s.takeField.2 s.depth := keeps_takeField hplace
  cases h with
  | noField hfield =>
    rw [hfield] at htaken
    exact htaken.trans (.refl htaken.inBody)
  | level hfield hends =>
    rw [hfield] at htaken
    exact htaken.trans (keeps_backAt htaken.inBody hends)

/-- **Every call keeps to its place and its depth.** -/
theorem Descends.keeps {c : Call} {d : Descended c.Answer} (h : Descends s limit? c d)
    (hplace : s.cursor.InBody) : Keeps limit? s d.session d.peak := by
  cases h with
  | block hends => exact (keeps_backAt hplace hends).of_cursor rfl rfl rfl
  | template hends => exact keeps_backAt hplace hends
  | loop hlevel | conditional hlevel => exact hlevel.keeps hplace
  | query hread | image hread | diagram hread => exact keeps_readWith hplace hread
  | text => exact keeps_leaving hplace (Nat.sub_le _ _)
  | table hhere hends =>
    -- The cells are read at the table's depth, each for itself, and the table is passed.
    refine ((keeps_next hplace).withPeak hends.peak_mono ?_).of_cursor rfl rfl rfl
    rintro n rfl hle
    exact hends.peak_le_limit hle
  | noTable | noCell => exact .refl hplace
  | cell hhere hends =>
    refine ((Keeps.refl hplace).withPeak hends.peak_mono ?_).of_cursor rfl rfl rfl
    rintro n rfl hle
    exact hends.peak_le_limit hle

end Effects

end Session

end DocTemplate
