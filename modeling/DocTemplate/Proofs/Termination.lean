import DocTemplate.Document.Draft
import DocTemplate.Proofs.SessionCalls

/-!
# Reading ends without the limit

Nested reading ends for every body, because every call that is made has less to read than the one
that makes it, or is a call of an earlier kind at the same place. The nesting limit has no part in
this: without it, reading by nested calls is defined just as well, and it is what a session does
whose limit is high enough.

## Main statements

- `Reader.comesBack_of_invokes`, `Reader.wellFounded_invokes`: a call comes back if the calls that
  it makes come back, and calls inside calls come to an end
- `Session.run_withLimit`: without a limit, a session does what it does under every high limit
- `Session.reading_ends`: how every part of reading comes nearer to its end
-/

namespace DocTemplate

/-! ## Calls inside calls -/

namespace Reader

section Invocations

variable (s : Setting) (limit? : Option Nat)

/-- One call can make another one. -/
inductive Invokes : Task → Reader → Task → Reader → Prop where
  /-- A body is read with the counter one up. -/
  | counted {stops : List TokenKind} {g : Collected} {r : Reader}
      (hfree : r.barred? limit? = none) :
      Invokes (.block stops g) r (.constructs stops g) r.entered
  | turn {stops : List TokenKind} {g : Collected} {r : Reader} :
      Invokes (.constructs stops g) r (.turn stops g) r
  /-- Reading goes on where a turn has ended. -/
  | nextTurn {stops : List TokenKind} {g g' : Collected} {r r' : Reader}
      (hturn : Ends s limit? (.turn stops g) r (.goesOn g') r') :
      Invokes (.constructs stops g) r (.constructs stops g') r'
  /-- A level is read behind its opening field. -/
  | opens {stops : List TokenKind} {g : Collected} {k : Keyword} {f : Field} {ts : List Token}
      {d : Nat} {trace : Trace} {l : Level} (hl : opened? s f (d + 1) k = some l) :
      Invokes (.turn stops g) ⟨.tag k f :: ts, d, trace⟩ (.level l) ⟨ts, d, trace⟩
  /-- The cells of a table are read behind the table. -/
  | table {stops : List TokenKind} {g : Collected} {id : TableId} {rows : List (List (List Token))}
      {ts : List Token} {d : Nat} {trace : Trace} :
      Invokes (.turn stops g) ⟨.table id rows :: ts, d, trace⟩ (.rows rows) ⟨ts, d, trace⟩
  | row {rows : List (List (List Token))} {row : List (List Token)} {r r' : Reader}
      (hrow : row ∈ rows) : Invokes (.rows rows) r (.cells row) r'
  /-- A cell is read for itself. -/
  | cell {row : List (List Token)} {cell : List Token} {d : Nat} {trace : Trace} {r : Reader}
      (hcell : cell ∈ row) :
      Invokes (.cells row) r (.block [.endOfBody] {}) ⟨cell, d, trace⟩
  | body {l : Level} {r : Reader} : Invokes (.level l) r (.block l.stops {}) r
  /-- A further condition is read behind its field, with the counter one up. -/
  | elseIf {l l' : Level} {g : Collected} {r : Reader} {kind : TokenKind} {f : Field}
      {ts : List Token} {d : Nat} {trace : Trace}
      (hbody : Ends s limit? (.block l.stops {}) r (.returns (.ok kind) g)
        ⟨.tag .elseIf f :: ts, d, trace⟩) :
      Invokes (.level l) r (.level l') (Reader.entered ⟨ts, d, trace⟩)
  /-- What takes the place of a level otherwise is read behind its field. -/
  | otherwise {l l' : Level} {g : Collected} {r : Reader} {kind : TokenKind} {k : Keyword}
      {f : Field} {ts : List Token} {d : Nat} {trace : Trace}
      (hbody : Ends s limit? (.block l.stops {}) r (.returns (.ok kind) g)
        ⟨.tag k f :: ts, d, trace⟩) :
      Invokes (.level l) r (.level l') ⟨ts, d, trace⟩

/-- A call comes back. -/
def ComesBack (task : Task) (r : Reader) : Prop := ∃ answer r', Ends s limit? task r answer r'

end Invocations

section Ending

variable {s : Setting} {limit? : Option Nat} {task task' : Task} {r r' : Reader}

/-! ### Calls come back if the calls that they make come back -/

theorem comesBack_cells {row : List (List Token)} {ts : List Token} {d : Nat}
    (h : ∀ cell ∈ row, ∀ trace,
      ComesBack s limit? (.block [.endOfBody] {}) ⟨cell, d, trace⟩) (trace : Trace) :
    ComesBack s limit? (.cells row) ⟨ts, d, trace⟩ := by
  induction row generalizing trace with
  | nil => exact ⟨_, _, .noCells⟩
  | cons cell row ih =>
    obtain ⟨hcell, hrow⟩ := List.forall_mem_cons.mp h
    obtain ⟨answer, r', hends⟩ := hcell trace
    cases answer with
    | goesOn | built | cells | rows => exact hends.accepts.elim
    | returns answer g =>
      cases answer with
      | error e => exact ⟨_, _, .cellFails hends⟩
      | ok kind =>
        obtain ⟨answers, r'', hrest⟩ := ih hrow r'.trace
        cases answers with
        | goesOn | returns | built | rows => exact hrest.accepts.elim
        | cells answers => exact ⟨_, _, .cell hends hrest⟩

theorem comesBack_rows {rows : List (List (List Token))}
    (h : ∀ row ∈ rows, ∀ r, ComesBack s limit? (.cells row) r) (r : Reader) :
    ComesBack s limit? (.rows rows) r := by
  induction rows generalizing r with
  | nil => exact ⟨_, _, .noRows⟩
  | cons row rows ih =>
    obtain ⟨hrow, hrows⟩ := List.forall_mem_cons.mp h
    obtain ⟨answer, r', hends⟩ := hrow r
    cases answer with
    | goesOn | returns | built | rows => exact hends.accepts.elim
    | cells answer =>
      cases answer with
      | error e => exact ⟨_, _, .rowFails hends⟩
      | ok us =>
        obtain ⟨answers, r'', hrest⟩ := ih hrows r'
        cases answers with
        | goesOn | returns | built | cells => exact hrest.accepts.elim
        | rows answers => exact ⟨_, _, .row hends hrest⟩

theorem comesBack_tag {stops : List TokenKind} {g : Collected} {k : Keyword} {f : Field}
    {ts : List Token} {d : Nat} {trace : Trace} (hgo : .tag k ∉ stops)
    (h : ∀ l, opened? s f (d + 1) k = some l → ComesBack s limit? (.level l) ⟨ts, d, trace⟩) :
    ComesBack s limit? (.turn stops g) ⟨.tag k f :: ts, d, trace⟩ := by
  cases hsingle : single? s f k with
  | some c => exact ⟨_, _, .single hgo hsingle⟩
  | none =>
    cases hopened : opened? s f (d + 1) k with
    | some l =>
      obtain ⟨answer, r', hends⟩ := h l hopened
      cases answer with
      | goesOn | returns | cells | rows => exact hends.accepts.elim
      | built answer =>
        cases answer with
        | error e => exact ⟨_, _, .opensFails hgo hopened hends⟩
        | ok c => exact ⟨_, _, .opens hgo hopened hends⟩
    | none =>
      by_cases hterminator : k.isTerminator = true
      · exact ⟨_, _, .strays hgo hterminator⟩
      · exact ⟨_, _, .reserved hgo (reserved_of_not_terminator hsingle hopened hterminator)⟩

theorem comesBack_turn {stops : List TokenKind} {g : Collected}
    (h : ∀ task' r', Invokes s limit? (.turn stops g) r task' r' → ComesBack s limit? task' r') :
    ComesBack s limit? (.turn stops g) r := by
  obtain ⟨ahead, d, trace⟩ := r
  cases ahead with
  | nil => exact ⟨_, _, .atEnd⟩
  | cons t ts =>
    by_cases hstop : t.kind ∈ stops
    · exact ⟨_, _, .stops hstop⟩
    · cases t with
      | text x => exact ⟨_, _, .text hstop⟩
      | tag k f => exact comesBack_tag hstop fun l hl => h _ _ (.opens hl)
      | table id rows =>
        obtain ⟨answer, r', hends⟩ := h _ _ .table
        cases answer with
        | goesOn | returns | built | cells => exact hends.accepts.elim
        | rows answer =>
          cases answer with
          | error e => exact ⟨_, _, .tableFails hstop hends⟩
          | ok us => exact ⟨_, _, .table hstop hends⟩

theorem comesBack_level {l : Level}
    (h : ∀ task' r', Invokes s limit? (.level l) r task' r' → ComesBack s limit? task' r') :
    ComesBack s limit? (.level l) r := by
  obtain ⟨answer, ⟨ahead, d, trace⟩, hbody⟩ := h _ _ .body
  cases answer with
  | goesOn | built | cells | rows => exact hbody.accepts.elim
  | returns answer g =>
    cases answer with
    | error e => exact ⟨_, _, .bodyFails hbody⟩
    | ok kind =>
      match ahead with
      | [] | .text _ :: _ | .table _ _ :: _ => exact ⟨_, _, .cutOff hbody (by simp)⟩
      | .tag k f :: ts =>
        cases hnext : (l.filled g).next? s k f with
        | none => exact ⟨_, _, .closes hbody hnext⟩
        | some l' =>
          by_cases hk : k = .elseIf
          · subst hk
            cases hbarred : Reader.barred? limit? ⟨.tag .elseIf f :: ts, d, trace⟩ with
            | some limit => exact ⟨_, _, .elseIfBarred hbody hnext hbarred⟩
            | none =>
              obtain ⟨answer, r', hrest⟩ := h (.level l') _ (.elseIf hbody)
              exact ⟨_, _, .elseIf hbody hnext hbarred hrest⟩
          · obtain ⟨answer, r', hrest⟩ := h (.level l') _ (.otherwise hbody)
            exact ⟨_, _, .otherwise hbody hnext hk hrest⟩

/-- **A call comes back if every call that it makes comes back.** -/
theorem comesBack_of_invokes
    (h : ∀ task' r', Invokes s limit? task r task' r' → ComesBack s limit? task' r') :
    ComesBack s limit? task r := by
  cases task with
  | turn stops g => exact comesBack_turn h
  | level l => exact comesBack_level h
  | cells row => exact comesBack_cells (fun cell hcell trace => h _ _ (.cell hcell)) r.trace
  | rows rows => exact comesBack_rows (fun row hrow r' => h _ _ (.row hrow)) r
  | block stops g =>
    cases hbarred : r.barred? limit? with
    | some limit => exact ⟨_, _, .barred hbarred⟩
    | none =>
      obtain ⟨answer, r', hends⟩ := h _ _ (.counted hbarred)
      exact ⟨_, _, .body hbarred hends⟩
  | constructs stops g =>
    obtain ⟨answer, r', hturn⟩ := h _ _ .turn
    cases answer with
    | built | cells | rows => exact hturn.accepts.elim
    | returns answer g' => exact ⟨_, _, .lastTurn hturn⟩
    | goesOn g' =>
      obtain ⟨answer, r'', hrest⟩ := h _ _ (.nextTurn hturn)
      exact ⟨_, _, .nextTurn hturn hrest⟩

end Ending

/-! ### Calls inside calls come to an end -/

/-- How much there is to read for a call, and where its kind comes among those that can be made at
the same place. -/
def size : Task × Reader → Nat × Nat
  | (.cells row, _) => (1 + Token.extentOfCells row, 0)
  | (.rows rows, _) => (1 + Token.extentOfRows rows, 1)
  | (.turn .., r) => (Token.extentOf r.ahead, 2)
  | (.constructs .., r) => (Token.extentOf r.ahead, 3)
  | (.block .., r) => (Token.extentOf r.ahead, 4)
  | (.level _, r) => (Token.extentOf r.ahead, 5)

theorem lex_of_le_of_lt {a b c d : Nat} (hle : a ≤ c) (hlt : b < d) :
    Prod.Lex (· < ·) (· < ·) (a, b) (c, d) := by
  rcases Nat.lt_or_eq_of_le hle with hless | rfl
  · exact .left _ _ hless
  · exact .right _ hlt

section Decrease

variable {s : Setting} {limit? : Option Nat} {task task' : Task} {r r' : Reader}

/-- There is less to read behind a token that has been reached. -/
theorem Ends.extentOf_lt {answer : Answer} {t : Token} {ts : List Token} {d : Nat} {trace : Trace}
    (h : Ends s limit? task r answer ⟨t :: ts, d, trace⟩) :
    Token.extentOf ts < Token.extentOf r.ahead :=
  Nat.lt_of_lt_of_le (Token.extentOf_lt_of_suffix List.suffix_rfl)
    (Token.extentOf_le_of_suffix h.forward)

/-- **A call has less to read than the call that makes it**, or it is of an earlier kind. -/
theorem Invokes.decreases (h : Invokes s limit? task r task' r') :
    Prod.Lex (· < ·) (· < ·) (size (task', r')) (size (task, r)) := by
  cases h with
  | counted | turn | body => exact .right _ (Nat.lt_succ_self _)
  | nextTurn hturn =>
    obtain ⟨t, ts, hahead, hforward⟩ := hturn.onward
    have hless := Token.extentOf_lt_of_suffix (t := t) hforward
    rw [← hahead] at hless
    exact .left _ _ hless
  | opens hl => exact .left _ _ (Token.extentOf_lt_of_suffix List.suffix_rfl)
  | @table _ _ _ rows ts =>
    have hle : 1 + Token.extentOfRows rows ≤ 1 + Token.extentOfRows rows + Token.extentOf ts :=
      Nat.le_add_right _ _
    exact lex_of_le_of_lt hle (by decide)
  | row hrow =>
    exact lex_of_le_of_lt (Nat.add_le_add_left (Token.extentOfCells_le_rows hrow) 1) (by decide)
  | cell hcell =>
    have hless := Nat.lt_succ_of_le (Token.extentOf_le_cells hcell)
    rw [← Nat.one_add] at hless
    exact .left _ _ hless
  | elseIf hbody | otherwise hbody => exact .left _ _ hbody.extentOf_lt

/-- **Calls inside calls come to an end**, with a limit and without. -/
theorem wellFounded_invokes (s : Setting) (limit? : Option Nat) :
    WellFounded fun y x : Task × Reader => Invokes s limit? x.1 x.2 y.1 y.2 :=
  Subrelation.wf (fun h => h.decreases) (InvImage.wf size (Prod.lex Nat.lt_wfRel Nat.lt_wfRel).wf)

/-- Every call comes back, with a limit and without. -/
theorem comesBack (s : Setting) (limit? : Option Nat) (task : Task) (r : Reader) :
    ComesBack s limit? task r :=
  (wellFounded_invokes s limit?).induction
    (C := fun x => ComesBack s limit? x.1 x.2) (task, r)
    fun _ ih => comesBack_of_invokes fun task' r' h => ih (task', r') h

/-- **A level is read at least two positions further on** than the call that goes to it. -/
theorem Invokes.remaining_level {l : Level} (h : Invokes s limit? task r (.level l) r') :
    r'.remaining + 2 ≤ r.remaining := by
  -- The field before the level is behind, and so is what was read up to that field.
  have hbehind : ∀ {k : Keyword} {f : Field} {ts : List Token},
      (.tag k f :: ts) <:+ r.ahead → (Reader.mk ts 0 {}).remaining + 2 ≤ r.remaining := by
    intro k f ts hforward
    have hle : (Reader.mk (.tag k f :: ts) 0 {}).remaining ≤ r.remaining :=
      remaining_le_of_suffix hforward
    simp only [remaining, List.map_cons, List.foldr_cons, Token.width, Field.width] at hle ⊢
    omega
  cases h with
  | opens => exact hbehind List.suffix_rfl
  | elseIf hbody | otherwise hbody => exact hbehind hbody.forward

end Decrease

end Reader

/-! ## Positions -/

/-- Tokens further on are those of positions further on. -/
theorem scan_of_onward {ps : List Position} {us : List Token}
    (h : ∃ t ts, scan ps = t :: ts ∧ us <:+ ts) :
    ∃ passed rest, ps = passed ++ rest ∧ passed ≠ [] ∧ us = scan rest := by
  obtain ⟨t, _, hscan, before, rfl⟩ := h
  rw [scan_eq_linear, ← List.cons_append] at hscan
  obtain ⟨passed, rest, rfl, hpassed, hrest⟩ := linear_eq_append hscan
  refine ⟨passed, rest, rfl, ?_, ?_⟩
  · rintro rfl
    rw [linear_nil] at hpassed
    cases hpassed
  · rw [scan_eq_linear, hrest]

namespace Session

variable {s : Session}

/-- A run that belongs to no tag stands here. -/
theorem rest_of_kind_text (h : s.kind = .text) :
    ∃ r ps, s.cursor.rest = .run r :: ps ∧ s.tokens = .text r.id :: linear ps := by
  rw [kind] at h
  match hrest : s.cursor.rest with
  | [] => simp [hrest, classify] at h
  | .table id rows :: ps => simp [hrest, classify] at h
  | .run r :: ps =>
    rw [hrest] at h
    exact ⟨r, ps, rfl, by rw [tokens, hrest, scan_eq_linear, linear_text h]⟩

/-- Stepping over a position. -/
theorem next_of_rest {p : Position} {ps : List Position} (h : s.cursor.rest = p :: ps) :
    s.next = (some p, { s with cursor := s.cursor.forward 1 }) ∧
      (s.cursor.forward 1).rest = ps ∧
      (s.cursor.forward 1).remaining + 1 = s.cursor.remaining := by
  have hposition : s.cursor.positions[s.cursor.index]? = some p := by
    rw [← List.head?_drop]
    show s.cursor.rest.head? = some p
    rw [h]
    rfl
  have hindex := (List.getElem?_eq_some_iff.mp hposition).1
  have hpassed : s.cursor.rest = [p] ++ ps := h
  refine ⟨?_, Cursor.rest_forward hpassed, ?_⟩
  · simp only [next, Cursor.next, hposition]
    rfl
  · simp only [Cursor.remaining, Cursor.forward]
    omega

/-- Plain runs are taken one by one. -/
theorem readText_of_kind_text (h : s.kind = .text) :
    ∃ r, s.next.1 = some (.run r) ∧
      s.next.2.cursor.remaining + 1 = s.cursor.remaining ∧
      ∃ runs s', s.next.2.readText = (.text { runs := runs }, s') ∧
        s.readText = (.text { runs := r.id :: runs }, s') := by
  obtain ⟨r, ps, hrest, htokens⟩ := rest_of_kind_text h
  obtain ⟨hnext, hbehind, hremaining⟩ := next_of_rest hrest
  have htokens' : s.next.2.tokens = linear ps := by
    rw [hnext, tokens, ← scan_eq_linear, ← hbehind]
  refine ⟨r, by rw [hnext], by rw [hnext]; exact hremaining, _, _, rfl, ?_⟩
  -- The run in front is one more run and one more position.
  have hplace (n : Nat) : s.cursor.remaining - (n + 1) = (s.cursor.forward 1).remaining - n := by
    omega
  rw [readText, htokens, htokens', hnext]
  simp only [List.map_cons, Token.textRun?, List.takeWhile_cons, Option.isSome_some, if_true,
    List.length_cons, hplace]
  rfl

/-- Elsewhere no run is taken. -/
theorem readText_of_kind_ne (hplace : s.cursor.InBody) (h : s.kind ≠ .text) :
    s.readText = (.text {}, s) := by
  have hnone : (s.tokens.map Token.textRun?).takeWhile Option.isSome = [] := by
    rw [kind, classify_eq_head, ← scan_eq_linear] at h
    rw [tokens]
    cases hscan : scan s.cursor.rest with
    | nil => rfl
    | cons t ts =>
      cases t with
      | text x =>
        rw [hscan] at h
        exact absurd rfl h
      | tag | table => rfl
  simp only [readText, hnone, List.length_nil, Nat.sub_zero, leaving_remaining hplace]
  rfl

/-! ## Without a limit -/

/-- The session with another limit. -/
def withLimit (s : Session) (n : Nat) : Session := { s with setting := s.setting.withLimit n }

theorem takeField_withLimit (s : Session) (n : Nat) :
    (s.withLimit n).takeField = (s.takeField.1, s.takeField.2.withLimit n) := rfl

theorem readWith_withLimit {read : Field → Construct} {answer : Except ParseError Construct}
    {s' : Session} (h : s.readWith read = (answer, s')) (n : Nat) :
    (s.withLimit n).readWith read = (answer, s'.withLimit n) := by
  unfold readWith at h ⊢
  rw [takeField_withLimit]
  generalize s.takeField = taken at h ⊢
  obtain ⟨e | f, s''⟩ := taken <;> cases h <;> rfl

section Unlimited

variable {n : Nat}

theorem LevelDescends.underLimit {level : Nat → Field → Level}
    {d : Descended (Except ParseError Construct)} (h : LevelDescends s none level d)
    (hpeak : d.peak ≤ n) :
    LevelDescends (s.withLimit n) (some n) level ⟨d.answer, d.session.withLimit n, d.peak⟩ := by
  cases h with
  | noField hfield => exact .noField (by rw [takeField_withLimit, hfield])
  | @level f s' answer r hfield hends =>
    have hfield' : (s.withLimit n).takeField = (.ok f, s'.withLimit n) := by
      rw [takeField_withLimit, hfield]
    exact .level hfield' (hends.underLimit hpeak)

/-- A call does the same under a limit that its counter does not reach. -/
theorem Descends.underLimit {c : Call} {d : Descended c.Answer} (h : Descends s none c d)
    (hpeak : d.peak ≤ n) :
    Descends (s.withLimit n) (some n) c ⟨d.answer, d.session.withLimit n, d.peak⟩ := by
  cases h with
  | block hends => exact .block (hends.underLimit hpeak)
  | template hends => exact .template (hends.underLimit hpeak)
  | loop hlevel => exact .loop (hlevel.underLimit hpeak)
  | conditional hlevel => exact .conditional (hlevel.underLimit hpeak)
  | query hread => exact .query (readWith_withLimit hread n)
  | image hread => exact .image (readWith_withLimit hread n)
  | diagram hread => exact .diagram (readWith_withLimit hread n)
  | text => exact .text
  | table hhere hends => exact .table hhere (hends.underLimit hpeak)
  | noTable hhere => exact .noTable hhere
  | cell hhere hends => exact .cell hhere (hends.underLimit hpeak)
  | noCell hhere => exact .noCell hhere

end Unlimited

/-- **Without a limit** a call does what a session does under every limit that is high enough. -/
theorem run_withLimit (s : Session) (c : Call) {m : Nat} (hm : (s.descend none c).peak ≤ m) :
    (s.withLimit m).run c =
      ((s.descend none c).answer, (s.descend none c).session.withLimit m) :=
  ((s.descend_descends none c).underLimit hm).run

/-- A template that is read takes all positions. -/
theorem remaining_template {limit? : Option Nat} {t : Template}
    (h : (s.descend limit? .template).answer = .ok t) :
    (s.descend limit? .template).session.cursor.remaining = 0 := by
  have hends := s.descend_descends limit? .template
  generalize s.descend limit? .template = d at h hends
  cases hends with
  | @template answer g r hends =>
    cases answer with
    | error e => cases h
    | ok kind =>
      have hend := Reader.ahead_eq_nil_of_endOfBody (hends.kind_eq rfl)
      simp [backAt, leaving, noting, Cursor.leaving, Cursor.remaining, Reader.remaining, hend]

/-! ## How reading ends -/

/-- How reading comes to its end where a session stands. -/
structure ReadingEnds (s : Session) : Prop where
  /-- What the session reads, nested calls read, with the session's limit as their limit. -/
  nested : ∀ c,
    s.run c =
      ((s.descend (some s.setting.limit) c).answer, (s.descend (some s.setting.limit) c).session)
  /-- A turn of reading a body either comes back or has passed some positions. -/
  turns : ∀ limit? stops g ps d trace g' r' onward,
    Reader.turn s.setting limit? stops g ⟨scan ps, d, trace⟩ = .goesOn g' r' onward →
      ∃ passed rest, ps = passed ++ rest ∧ passed ≠ [] ∧ r'.ahead = scan rest
  /-- Reading plain runs takes one position at a time. -/
  text : s.kind = .text →
    ∃ r, s.next.1 = some (.run r) ∧ s.next.2.cursor.remaining + 1 = s.cursor.remaining ∧
      ∃ runs s', s.next.2.readText = (.text { runs := runs }, s') ∧
        s.readText = (.text { runs := r.id :: runs }, s')
  noText : s.kind ≠ .text → s.readText = (.text {}, s)
  /-- A field that opens a level takes two positions at least before the level is read. -/
  field : ∀ f s', s.takeField = (.ok f, s') → s'.cursor.remaining + 2 ≤ s.cursor.remaining
  /-- So do the fields before levels inside and before levels that take the place of others. -/
  levels : ∀ limit? task r l r', Reader.Invokes s.setting limit? task r (.level l) r' →
    r'.remaining + 2 ≤ r.remaining
  /-- A cell of the table that stands here is smaller than what lies ahead. -/
  cells : ∀ row column cell, s.cellHere? row column = some cell →
    Token.extentOf cell < Token.extentOf s.tokens
  /-- A call comes back if the calls that it makes come back. -/
  invoked : ∀ limit? task r,
    (∀ task' r', Reader.Invokes s.setting limit? task r task' r' →
      Reader.ComesBack s.setting limit? task' r') →
    Reader.ComesBack s.setting limit? task r
  /-- Calls inside calls come to an end, also without a limit. -/
  wellFounded : ∀ limit?, WellFounded fun y x : Reader.Task × Reader =>
    Reader.Invokes s.setting limit? x.1 x.2 y.1 y.2
  /-- So every call comes back. -/
  comesBack : ∀ limit? task r, Reader.ComesBack s.setting limit? task r
  /-- What is read without a limit is read under every limit that is high enough. -/
  unlimited : ∀ c, ∃ n, ∀ m, n ≤ m →
    (s.withLimit m).run c = ((s.descend none c).answer, (s.descend none c).session.withLimit m)
  /-- When a template has been read, nothing lies ahead, with a limit and without. -/
  exhausted : ∀ limit? t, (s.descend limit? .template).answer = .ok t →
    (s.descend limit? .template).session.cursor.remaining = 0

theorem remaining_takeField {f : Field} {s' : Session} (h : s.takeField = (.ok f, s')) :
    s'.cursor.remaining + 2 ≤ s.cursor.remaining := by
  unfold takeField at h
  match hread : readField s.cursor.rest with
  | (.error e, rest) =>
    rw [hread] at h
    cases h
  | (.ok f', rest) =>
    rw [hread] at h
    cases h
    obtain ⟨passed, hpassed, hlength⟩ := (Field.standsAt_of_readField hread).split
    have hremaining : s.cursor.remaining = passed.length + rest.length := by
      rw [← List.length_append, ← hpassed]
      exact List.length_drop.symm
    simp only [leaving, Cursor.leaving, Cursor.remaining] at hremaining ⊢
    omega

theorem extentOf_cellHere {row column : Nat} {cell : List Token}
    (h : s.cellHere? row column = some cell) : Token.extentOf cell < Token.extentOf s.tokens := by
  unfold cellHere? tableHere? at h
  match hrest : s.cursor.rest with
  | [] | .run r :: ps => simp [hrest] at h
  | .table id rows :: ps =>
    simp only [hrest, Option.bind_some, Option.bind_eq_some_iff] at h
    obtain ⟨cells, hrow, hcell⟩ := h
    rw [tokens, hrest, scan_eq_linear, linear_table]
    exact Token.extentOf_cell_lt id (List.mem_of_getElem? hrow) (List.mem_of_getElem? hcell) _

/-- **Reading ends for every body**, at every place and depth, and the nesting limit has no part in
it. -/
theorem reading_ends (s : Session) (hplace : s.cursor.InBody) : s.ReadingEnds where
  nested := s.run_eq_descend
  turns _ _ _ _ _ _ _ _ onward _ := scan_of_onward onward
  text := readText_of_kind_text
  noText := readText_of_kind_ne hplace
  field _ _ := remaining_takeField
  levels _ _ _ _ _ h := h.remaining_level
  cells _ _ _ := extentOf_cellHere
  invoked _ _ _ := Reader.comesBack_of_invokes
  wellFounded := Reader.wellFounded_invokes s.setting
  comesBack := Reader.comesBack s.setting
  unlimited c := ⟨(s.descend none c).peak, fun _ => s.run_withLimit c⟩
  exhausted _ _ := remaining_template

/-- A session inside a repetition, before plain text and a table with a condition in a table. -/
def beforePlainRuns : Session :=
  let start := Session.start { compile := .fixed [], limit := 0 }
    (Draft.build
      [.paragraph [.field ["m:for x | xs"], .text "a", .text "b"],
        .table [[[.table [[[.paragraph [.field ["m:if a"], .field ["m:else"]]]]]]]],
        .paragraph [.field ["m:endfor"]]])
  { start with cursor := { start.cursor with index := 3 } }

/-- Two runs are plain there, and whatever is to be read can be read under some limit. -/
theorem reading_ends_beforePlainRuns :
    beforePlainRuns.cursor.InBody ∧
      (∃ runs s', beforePlainRuns.next.2.readText = (.text { runs := runs }, s') ∧
        ∃ r, beforePlainRuns.readText = (.text { runs := r :: runs }, s')) ∧
      ∃ n, ∀ m, n ≤ m → ((beforePlainRuns.withLimit m).run .template).1 =
        (beforePlainRuns.descend none .template).answer := by
  have hplace : beforePlainRuns.cursor.InBody := by
    show 3 ≤ beforePlainRuns.cursor.positions.length
    decide +kernel
  have hkind : beforePlainRuns.kind = .text := by decide +kernel
  have hends := reading_ends beforePlainRuns hplace
  obtain ⟨r, -, -, runs, s', hbehind, hhere⟩ := hends.text hkind
  obtain ⟨n, hn⟩ := hends.unlimited .template
  exact ⟨hplace, ⟨runs, s', hbehind, r.id, hhere⟩, n, fun m hm => by rw [hn m hm]⟩

end Session

end DocTemplate
