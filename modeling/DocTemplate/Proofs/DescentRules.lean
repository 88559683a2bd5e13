import DocTemplate.Proofs.Descent
import DocTemplate.Proofs.NestingLimit

/-!
# What nested calls do

The calls of `DocTemplate.Proofs.Descent`, rule by rule. A derivation of `Reader.Ends` shows each
call that is made, where it is made and what it comes back with; so what is true of all calls is
proved by induction on derivations, with one case for each way in which a call can end.

## Main statements

- `Reader.calls_end`: every call has a derivation
- `Reader.Ends.depth_eq`, `Reader.Ends.peak_le_limit`: a call leaves the counter as it was, and on
  the way the counter does not pass the limit
- `Reader.Ends.forward`, `Reader.Ends.kind_eq`: no call goes back, and reading ends before the token
  that it reports
- `Reader.Ends.underLimit`: what a call does without a limit it does under every limit that its
  counter does not reach
-/

namespace DocTemplate

namespace Reader

/-- What a call is for. -/
inductive Task where
  /-- One turn of reading a body. -/
  | turn (stops : List TokenKind) (g : Collected)
  /-- Turn by turn, up to a token of one of the kinds. -/
  | constructs (stops : List TokenKind) (g : Collected)
  /-- The same with the counter one up. -/
  | block (stops : List TokenKind) (g : Collected)
  /-- A level behind its opening field, and the levels that take its place. -/
  | level (l : Level)
  /-- Cells, each one by a call of its own. -/
  | cells (row : List (List Token))
  | rows (rows : List (List (List Token)))

/-- What a call comes back with. -/
inductive Answer where
  | goesOn (g : Collected)
  | returns (answer : Except ParseError TokenKind) (g : Collected)
  | built (answer : Except ParseError Construct)
  | cells (answer : Except ParseError (List Template))
  | rows (answer : Except ParseError (List (List Template)))

section Rules

variable (s : Setting) (limit? : Option Nat)

/-- A call at a place comes back with an answer at another place. -/
inductive Ends : Task → Reader → Answer → Reader → Prop where
  /-- At the end of the body reading ends. -/
  | atEnd {stops : List TokenKind} {g : Collected} {d : Nat} {trace : Trace} :
      Ends (.turn stops g) ⟨[], d, trace⟩ (.returns (.ok .endOfBody) g) ⟨[], d, trace⟩
  /-- Reading ends before a token of one of the kinds. -/
  | stops {stops : List TokenKind} {g : Collected} {t : Token} {ts : List Token} {d : Nat}
      {trace : Trace} (hstop : t.kind ∈ stops) :
      Ends (.turn stops g) ⟨t :: ts, d, trace⟩ (.returns (.ok t.kind) g) ⟨t :: ts, d, trace⟩
  /-- All plain runs in front are one construct. -/
  | text {stops : List TokenKind} {g : Collected} {x : RunId} {ts : List Token} {d : Nat}
      {trace : Trace} (hgo : .text ∉ stops) :
      Ends (.turn stops g) ⟨.text x :: ts, d, trace⟩
        (.goesOn (g.push (.text { runs := x :: Token.leadingRuns ts })))
        ⟨Token.behindText ts, d, trace⟩
  | single {stops : List TokenKind} {g : Collected} {k : Keyword} {f : Field} {ts : List Token}
      {d : Nat} {trace : Trace} {c : Construct} (hgo : .tag k ∉ stops)
      (hc : single? s f k = some c) :
      Ends (.turn stops g) ⟨.tag k f :: ts, d, trace⟩ (.goesOn (g.push c)) ⟨ts, d, trace⟩
  /-- An opening field opens a level, which a call of its own reads. -/
  | opens {stops : List TokenKind} {g : Collected} {k : Keyword} {f : Field} {ts : List Token}
      {d : Nat} {trace : Trace} {l : Level} {c : Construct} {r' : Reader} (hgo : .tag k ∉ stops)
      (hl : opened? s f (d + 1) k = some l)
      (hlevel : Ends (.level l) ⟨ts, d, trace⟩ (.built (.ok c)) r') :
      Ends (.turn stops g) ⟨.tag k f :: ts, d, trace⟩ (.goesOn (g.push c)) r'
  | opensFails {stops : List TokenKind} {g : Collected} {k : Keyword} {f : Field} {ts : List Token}
      {d : Nat} {trace : Trace} {l : Level} {e : ParseError} {r' : Reader} (hgo : .tag k ∉ stops)
      (hl : opened? s f (d + 1) k = some l)
      (hlevel : Ends (.level l) ⟨ts, d, trace⟩ (.built (.error e)) r') :
      Ends (.turn stops g) ⟨.tag k f :: ts, d, trace⟩ (.returns (.error e) g) r'
  /-- An end tag of no kind that is waited for is swallowed. -/
  | strays {stops : List TokenKind} {g : Collected} {k : Keyword} {f : Field} {ts : List Token}
      {d : Nat} {trace : Trace} (hgo : .tag k ∉ stops) (hterminator : k.isTerminator = true) :
      Ends (.turn stops g) ⟨.tag k f :: ts, d, trace⟩ (.goesOn (g.swallow k f))
        ⟨ts, d, { trace with strays := ⟨k, d⟩ :: trace.strays }⟩
  /-- A reserved tag is refused and stays in front. -/
  | reserved {stops : List TokenKind} {g : Collected} {k : Keyword} {f : Field} {ts : List Token}
      {d : Nat} {trace : Trace} (hgo : .tag k ∉ stops) (hk : k = .element ∨ k = .binding) :
      Ends (.turn stops g) ⟨.tag k f :: ts, d, trace⟩
        (.returns (.error (.unsupportedTag k f.opening.id)) g) ⟨.tag k f :: ts, d, trace⟩
  | table {stops : List TokenKind} {g : Collected} {id : TableId} {rows : List (List (List Token))}
      {ts : List Token} {d : Nat} {trace : Trace} {us : List (List Template)} {r' : Reader}
      (hgo : .table ∉ stops) (hrows : Ends (.rows rows) ⟨ts, d, trace⟩ (.rows (.ok us)) r') :
      Ends (.turn stops g) ⟨.table id rows :: ts, d, trace⟩ (.goesOn (g.push (.table id us))) r'
  | tableFails {stops : List TokenKind} {g : Collected} {id : TableId}
      {rows : List (List (List Token))} {ts : List Token} {d : Nat} {trace : Trace} {e : ParseError}
      {r' : Reader} (hgo : .table ∉ stops)
      (hrows : Ends (.rows rows) ⟨ts, d, trace⟩ (.rows (.error e)) r') :
      Ends (.turn stops g) ⟨.table id rows :: ts, d, trace⟩ (.returns (.error e) g) r'
  | lastTurn {stops : List TokenKind} {g g' : Collected} {r r' : Reader}
      {answer : Except ParseError TokenKind}
      (hturn : Ends (.turn stops g) r (.returns answer g') r') :
      Ends (.constructs stops g) r (.returns answer g') r'
  | nextTurn {stops : List TokenKind} {g g' : Collected} {r r' r'' : Reader} {answer : Answer}
      (hturn : Ends (.turn stops g) r (.goesOn g') r')
      (hrest : Ends (.constructs stops g') r' answer r'') :
      Ends (.constructs stops g) r answer r''
  /-- At the limit nothing is read. -/
  | barred {stops : List TokenKind} {g : Collected} {r : Reader} {limit : Nat}
      (hbarred : r.barred? limit? = some limit) :
      Ends (.block stops g) r (.returns (.error (.nestingTooDeep limit)) g) r
  /-- The counter goes up before the body is read, and down afterwards in any case. -/
  | body {stops : List TokenKind} {g : Collected} {r r' : Reader} {answer : Answer}
      (hfree : r.barred? limit? = none) (hbody : Ends (.constructs stops g) r.entered answer r') :
      Ends (.block stops g) r answer r'.left
  | bodyFails {l : Level} {g : Collected} {r r' : Reader} {e : ParseError}
      (hbody : Ends (.block l.stops {}) r (.returns (.error e) g) r') :
      Ends (.level l) r (.built (.error e)) r'
  /-- Only a tag can end a level; the end of the body cuts it off. -/
  | cutOff {l : Level} {g : Collected} {r r' : Reader} {kind : TokenKind}
      (hbody : Ends (.block l.stops {}) r (.returns (.ok kind) g) r')
      (hnone : ∀ k f ts, r'.ahead ≠ .tag k f :: ts) :
      Ends (.level l) r (.built (.ok (l.filled g).closeAtEnd)) r'
  | closes {l : Level} {g : Collected} {r : Reader} {kind : TokenKind} {k : Keyword} {f : Field}
      {ts : List Token} {d : Nat} {trace : Trace}
      (hbody : Ends (.block l.stops {}) r (.returns (.ok kind) g) ⟨.tag k f :: ts, d, trace⟩)
      (hnext : (l.filled g).next? s k f = none) :
      Ends (.level l) r (.built (.ok ((l.filled g).close f))) ⟨ts, d, trace⟩
  /-- A further condition cannot be read with the counter at the limit. -/
  | elseIfBarred {l l' : Level} {g : Collected} {r : Reader} {kind : TokenKind} {f : Field}
      {ts : List Token} {d : Nat} {trace : Trace} {limit : Nat}
      (hbody : Ends (.block l.stops {}) r (.returns (.ok kind) g) ⟨.tag .elseIf f :: ts, d, trace⟩)
      (hnext : (l.filled g).next? s .elseIf f = some l')
      (hbarred : Reader.barred? limit? ⟨.tag .elseIf f :: ts, d, trace⟩ = some limit) :
      Ends (.level l) r (.built (.error (.nestingTooDeep limit))) ⟨.tag .elseIf f :: ts, d, trace⟩
  /-- A further condition is read by a call with the counter one up. -/
  | elseIf {l l' : Level} {g : Collected} {r r'' : Reader} {kind : TokenKind} {f : Field}
      {ts : List Token} {d : Nat} {trace : Trace} {answer : Answer}
      (hbody : Ends (.block l.stops {}) r (.returns (.ok kind) g) ⟨.tag .elseIf f :: ts, d, trace⟩)
      (hnext : (l.filled g).next? s .elseIf f = some l')
      (hfree : Reader.barred? limit? ⟨.tag .elseIf f :: ts, d, trace⟩ = none)
      (hrest : Ends (.level l') (Reader.entered ⟨ts, d, trace⟩) answer r'') :
      Ends (.level l) r answer r''.left
  /-- What takes the place of a level otherwise is read by a call with the same counter. -/
  | otherwise {l l' : Level} {g : Collected} {r r'' : Reader} {kind : TokenKind} {k : Keyword}
      {f : Field} {ts : List Token} {d : Nat} {trace : Trace} {answer : Answer}
      (hbody : Ends (.block l.stops {}) r (.returns (.ok kind) g) ⟨.tag k f :: ts, d, trace⟩)
      (hnext : (l.filled g).next? s k f = some l') (hk : k ≠ .elseIf)
      (hrest : Ends (.level l') ⟨ts, d, trace⟩ answer r'') :
      Ends (.level l) r answer r''
  | noCells {r : Reader} : Ends (.cells []) r (.cells (.ok [])) r
  /-- A cell is read at a counter of its own, which begins where that of the table stands. -/
  | cell {cell : List Token} {row : List (List Token)} {g : Collected} {ts : List Token} {d : Nat}
      {trace : Trace} {kind : TokenKind} {r' r'' : Reader}
      {answer : Except ParseError (List Template)}
      (hcell : Ends (.block [.endOfBody] {}) ⟨cell, d, trace⟩ (.returns (.ok kind) g) r')
      (hrest : Ends (.cells row) ⟨ts, d, r'.trace⟩ (.cells answer) r'') :
      Ends (.cells (cell :: row)) ⟨ts, d, trace⟩ (.cells (answer.map (g.toSection :: ·))) r''
  | cellFails {cell : List Token} {row : List (List Token)} {g : Collected} {ts : List Token}
      {d : Nat} {trace : Trace} {e : ParseError} {r' : Reader}
      (hcell : Ends (.block [.endOfBody] {}) ⟨cell, d, trace⟩ (.returns (.error e) g) r') :
      Ends (.cells (cell :: row)) ⟨ts, d, trace⟩ (.cells (.error e)) ⟨ts, d, r'.trace⟩
  | noRows {r : Reader} : Ends (.rows []) r (.rows (.ok [])) r
  | row {row : List (List Token)} {rows : List (List (List Token))} {us : List Template}
      {r r' r'' : Reader} {answer : Except ParseError (List (List Template))}
      (hrow : Ends (.cells row) r (.cells (.ok us)) r')
      (hrest : Ends (.rows rows) r' (.rows answer) r'') :
      Ends (.rows (row :: rows)) r (.rows (answer.map (us :: ·))) r''
  | rowFails {row : List (List Token)} {rows : List (List (List Token))} {r r' : Reader}
      {e : ParseError} (hrow : Ends (.cells row) r (.cells (.error e)) r') :
      Ends (.rows (row :: rows)) r (.rows (.error e)) r'

end Rules

end Reader

/-! ## Every call has a derivation -/

namespace Trace

/-- Reading things one by one does not depend on how it is known where they come from. -/
theorem each_map {α β γ : Type} (f : γ → α) (read : α → Trace → Except ParseError β × Trace)
    (xs : List γ) (trace : Trace) :
    each (fun x => read (f x)) xs trace = each read (xs.map f) trace := by
  induction xs generalizing trace with
  | nil => rfl
  | cons x xs ih =>
    rw [List.map_cons, each, each]
    simp only [ih]

theorem each_attach {α β : Type} (read : α → Trace → Except ParseError β × Trace)
    (xs : List α) (trace : Trace) :
    each (fun x => read x.1) xs.attach trace = each read xs trace := by
  rw [each_map Subtype.val read, List.attach_map_subtype_val]

end Trace

namespace Turn

variable {r : Reader}

/-- What a turn comes back with. -/
def answer : Turn r → Reader.Answer
  | .returns answer g _ _ => .returns answer g
  | .goesOn g _ _ => .goesOn g

/-- Where it comes back. -/
def reader : Turn r → Reader
  | .returns _ _ r' _ => r'
  | .goesOn _ r' _ => r'

end Turn

/-- What the call that reads a body comes back with. -/
def Back.returned {r : Reader} (b : Back r (Except ParseError TokenKind × Collected)) :
    Reader.Answer :=
  .returns b.answer.1 b.answer.2

namespace Reader

section Derivations

variable {s : Setting} {limit? : Option Nat}

/-- The call that reads a cell. -/
def cell (s : Setting) (limit? : Option Nat) (d : Nat) (cell : List Token) (trace : Trace) :
    Except ParseError Template × Trace :=
  (block s limit? [.endOfBody] {} ⟨cell, d, trace⟩).template

/-- Every call that reads one of the cells has a derivation. -/
def CellsEnd (s : Setting) (limit? : Option Nat) (d : Nat) (row : List (List Token)) : Prop :=
  ∀ cell ∈ row, ∀ trace,
    Ends s limit? (.block [.endOfBody] {}) ⟨cell, d, trace⟩
      (block s limit? [.endOfBody] {} ⟨cell, d, trace⟩).returned
      (block s limit? [.endOfBody] {} ⟨cell, d, trace⟩).reader

theorem cells_ends {d : Nat} {row : List (List Token)} (h : CellsEnd s limit? d row)
    (ts : List Token) (trace : Trace) :
    Ends s limit? (.cells row) ⟨ts, d, trace⟩ (.cells (Trace.each (cell s limit? d) row trace).1)
      ⟨ts, d, (Trace.each (cell s limit? d) row trace).2⟩ := by
  -- Each cell hands what it remembers on to the next one.
  induction row generalizing trace with
  | nil => exact .noCells
  | cons c row ih =>
    obtain ⟨hc, hrow⟩ := List.forall_mem_cons.mp h
    have hcell := hc trace
    rw [Trace.each, cell, Back.template]
    rw [Back.returned] at hcell
    generalize block s limit? [.endOfBody] {} ⟨c, d, trace⟩ = b at hcell ⊢
    obtain ⟨⟨e | kind, g⟩, r', forward⟩ := b
    · exact .cellFails hcell
    · have hrest := Ends.cell hcell (ih hrow r'.trace)
      simp only [Except.map]
      generalize Trace.each (cell s limit? d) row _ = result at hrest ⊢
      obtain ⟨answer | answer, trace'⟩ := result <;> exact hrest

theorem rows_ends {d : Nat} {rows : List (List (List Token))}
    (h : ∀ row ∈ rows, CellsEnd s limit? d row) (ts : List Token) (trace : Trace) :
    Ends s limit? (.rows rows) ⟨ts, d, trace⟩
      (.rows (Trace.each (Trace.each (cell s limit? d)) rows trace).1)
      ⟨ts, d, (Trace.each (Trace.each (cell s limit? d)) rows trace).2⟩ := by
  induction rows generalizing trace with
  | nil => exact .noRows
  | cons row rows ih =>
    obtain ⟨hrow, hrows⟩ := List.forall_mem_cons.mp h
    have hcells := cells_ends hrow ts trace
    rw [Trace.each]
    generalize Trace.each (cell s limit? d) row trace = result at hcells ⊢
    obtain ⟨e | us, trace'⟩ := result
    · exact .rowFails hcells
    · have hrest := Ends.row hcells (ih hrows trace')
      simp only
      generalize Trace.each (Trace.each (cell s limit? d)) rows trace' = result at hrest ⊢
      obtain ⟨answer | answer, trace''⟩ := result <;> exact hrest

theorem eachCell_eq (d : Nat) (rows : List (List (List Token))) (trace : Trace) :
    Trace.each (fun row => Trace.each (fun cell trace =>
        (block s limit? [.endOfBody] {} ⟨cell.1, d, trace⟩).template) row.1.attach)
      rows.attach trace = Trace.each (Trace.each (cell s limit? d)) rows trace := by
  have hrow : ∀ row : List (List Token),
      Trace.each (fun (c : { c // c ∈ row }) => cell s limit? d c.1) row.attach =
        Trace.each (cell s limit? d) row :=
    fun row => funext (Trace.each_attach (cell s limit? d) row)
  rw [← Trace.each_attach (Trace.each (cell s limit? d)) rows trace]
  simp only [← hrow]
  rfl

end Derivations

theorem reserved_of_not_terminator {s : Setting} {f : Field} {d : Nat} {k : Keyword}
    (hsingle : single? s f k = none) (hopened : opened? s f d k = none)
    (hterminator : ¬ k.isTerminator = true) :
    k = .element ∨ k = .binding := by
  cases k <;> simp_all [single?, opened?, Keyword.isTerminator]

/-- **Every call has a derivation.** -/
theorem calls_end (s : Setting) (limit? : Option Nat) :
    (∀ stops g r, Ends s limit? (.turn stops g) r (turn s limit? stops g r).answer
      (turn s limit? stops g r).reader) ∧
    (∀ stops g r, Ends s limit? (.block stops g) r (block s limit? stops g r).returned
      (block s limit? stops g r).reader) ∧
    (∀ stops g r, Ends s limit? (.constructs stops g) r (constructs s limit? stops g r).returned
      (constructs s limit? stops g r).reader) ∧
    ∀ l r, Ends s limit? (.level l) r (.built (level s limit? l r).answer)
      (level s limit? l r).reader := by
  apply turn.mutual_induct s limit?
  -- One turn of reading a body.
  case case1 =>
    intro stops g d trace
    rw [turn]
    exact .atEnd
  case case2 =>
    intro stops g t ts d trace hstop
    cases t with
    | text | tag | table =>
      rw [turn, if_pos hstop]
      exact .stops hstop
  case case3 =>
    intro stops g ts d trace x hgo
    rw [turn, if_neg hgo]
    exact .text hgo
  case case4 =>
    intro stops g ts d trace k f c hc hgo
    rw [turn, if_neg hgo]
    simp only [hc]
    exact .single hgo hc
  case case5 =>
    intro stops g ts d trace k f hnone l hl c r' forward hlevel hgo ih
    rw [hlevel] at ih
    rw [turn, if_neg hgo]
    simp only [hnone, hl, hlevel]
    exact .opens hgo hl ih
  case case6 =>
    intro stops g ts d trace k f hnone l hl e r' forward hlevel hgo ih
    rw [hlevel] at ih
    rw [turn, if_neg hgo]
    simp only [hnone, hl, hlevel]
    exact .opensFails hgo hl ih
  case case7 =>
    intro stops g ts d trace k f hnone hl hterminator hgo
    rw [turn, if_neg hgo]
    simp only [hnone, hl, if_pos hterminator]
    exact .strays hgo hterminator
  case case8 =>
    intro stops g ts d trace k f hnone hl hterminator hgo
    rw [turn, if_neg hgo]
    simp only [hnone, hl, if_neg hterminator]
    exact .reserved hgo (reserved_of_not_terminator hnone hl hterminator)
  case case9 =>
    intro stops g ts d trace id rows us trace' heach hgo ih
    have hrows := rows_ends (fun row hrow cell hcell => ih ⟨row, hrow⟩ ⟨cell, hcell⟩) ts trace
    rw [turn, if_neg hgo]
    simp only [heach]
    rw [eachCell_eq] at heach
    rw [heach] at hrows
    exact .table hgo hrows
  case case10 =>
    intro stops g ts d trace id rows e trace' heach hgo ih
    have hrows := rows_ends (fun row hrow cell hcell => ih ⟨row, hrow⟩ ⟨cell, hcell⟩) ts trace
    rw [turn, if_neg hgo]
    simp only [heach]
    rw [eachCell_eq] at heach
    rw [heach] at hrows
    exact .tableFails hgo hrows
  -- A body, with and without the counter.
  case case11 =>
    intro stops g r limit hbarred
    rw [block, hbarred]
    exact .barred hbarred
  case case12 =>
    intro stops g r hfree ih
    rw [block, hfree]
    exact .body hfree ih
  case case13 =>
    intro stops g r answer g' r' forward hturn ih
    rw [hturn] at ih
    rw [constructs, hturn]
    exact .lastTurn ih
  case case14 =>
    intro stops g r g' r' onward hturn ih hrest
    rw [hturn] at ih
    rw [constructs, hturn]
    exact .nextTurn ih hrest
  -- A level and what takes its place.
  case case15 =>
    intro l r e g r' forward hblock ih
    rw [hblock] at ih
    rw [level, hblock]
    exact .bodyFails ih
  case case16 =>
    rintro l r kind g ⟨_, d, trace⟩ forward hblock k f ts rfl behind hnext ih
    rw [hblock] at ih
    rw [level, hblock]
    simp only [hnext]
    exact .closes ih hnext
  case case17 =>
    rintro l r kind g ⟨_, d, trace⟩ forward hblock f ts l' limit hbarred rfl behind hnext ih
    rw [hblock] at ih
    rw [level, hblock]
    simp only [hnext, if_pos, hbarred]
    exact .elseIfBarred ih hnext hbarred
  case case18 =>
    rintro l r kind g ⟨_, d, trace⟩ forward hblock f ts l' hfree rfl behind hnext ih hrest
    rw [hblock] at ih
    rw [level, hblock]
    simp only [hnext, if_pos, hfree]
    exact .elseIf ih hnext hfree hrest
  case case19 =>
    rintro l r kind g ⟨_, d, trace⟩ forward hblock k f ts rfl behind l' hnext hk ih hrest
    rw [hblock] at ih
    rw [level, hblock]
    simp only [hnext, if_neg hk]
    exact .otherwise ih hnext hk hrest
  case case20 =>
    intro l r kind g r' forward hblock hnone ih
    rw [hblock] at ih
    rw [level, hblock]
    dsimp only
    split
    next k f ts hahead => exact (hnone k f ts hahead).elim
    next => exact .cutOff ih hnone

/-! ## The counter -/

section Counter

variable {s : Setting} {limit? : Option Nat} {task : Task} {r r' : Reader} {answer : Answer}

/-- **Every call leaves the counter as it was**, whatever it comes back with. -/
theorem Ends.depth_eq (h : Ends s limit? task r answer r') : r'.depth = r.depth := by
  induction h with
  | atEnd | stops | text | single | strays | reserved | barred | noCells | noRows | cellFails => rfl
  | opens _ _ _ ih | opensFails _ _ _ ih | table _ _ ih | tableFails _ _ ih | lastTurn _ ih
  | bodyFails _ ih | cutOff _ _ ih | closes _ _ ih | elseIfBarred _ _ _ ih | rowFails _ ih =>
    exact ih
  | nextTurn _ _ ih ihrest | otherwise _ _ _ _ ih ihrest | row _ _ ih ihrest =>
    exact ihrest.trans ih
  | cell _ _ _ ihrest => exact ihrest
  -- Here the counter has gone up, and it goes down by as much.
  | body _ _ ih => exact congrArg (· - 1) ih
  | elseIf _ _ _ _ ih ihrest => exact (congrArg (· - 1) ihrest).trans ih

theorem peak_le_entered (r : Reader) : r.trace.peak ≤ r.entered.trace.peak := Nat.le_max_left _ _

theorem depth_lt_entered (r : Reader) : r.depth < r.entered.trace.peak := Nat.le_max_right _ _

/-- The highest value of the counter is never forgotten. -/
theorem Ends.peak_mono (h : Ends s limit? task r answer r') : r.trace.peak ≤ r'.trace.peak := by
  induction h with
  | atEnd | stops | text | single | strays | reserved | barred | noCells | noRows =>
    exact Nat.le_refl _
  | opens _ _ _ ih | opensFails _ _ _ ih | table _ _ ih | tableFails _ _ ih | lastTurn _ ih
  | bodyFails _ ih | cutOff _ _ ih | closes _ _ ih | elseIfBarred _ _ _ ih | rowFails _ ih
  | cellFails _ ih => exact ih
  | nextTurn _ _ ih ihrest | otherwise _ _ _ _ ih ihrest | row _ _ ih ihrest
  | cell _ _ ih ihrest => exact Nat.le_trans ih ihrest
  -- Going up does not lower what has been reached before.
  | @body _ _ r _ _ _ _ ih => exact Nat.le_trans r.peak_le_entered ih
  | elseIf _ _ _ _ ih ihrest => exact Nat.le_trans ih (Nat.le_trans (peak_le_entered _) ihrest)

theorem entered_le_of_barred?_eq_none {n : Nat} (h : r.barred? (some n) = none)
    (hpeak : r.trace.peak ≤ n) : r.entered.trace.peak ≤ n := by
  have hlt : r.depth < n := by simpa [barred?] using h
  exact Nat.max_le.mpr ⟨hpeak, hlt⟩

/-- **With a limit the counter never passes it.** -/
theorem Ends.peak_le_limit {n : Nat} (h : Ends s (some n) task r answer r')
    (hpeak : r.trace.peak ≤ n) : r'.trace.peak ≤ n := by
  induction h with
  | atEnd | stops | text | single | strays | reserved | barred | noCells | noRows => exact hpeak
  | opens _ _ _ ih | opensFails _ _ _ ih | table _ _ ih | tableFails _ _ ih | lastTurn _ ih
  | bodyFails _ ih | cutOff _ _ ih | closes _ _ ih | elseIfBarred _ _ _ ih | rowFails _ ih
  | cellFails _ ih => exact ih hpeak
  | nextTurn _ _ ih ihrest | otherwise _ _ _ _ ih ihrest | row _ _ ih ihrest
  | cell _ _ ih ihrest => exact ihrest (ih hpeak)
  | body hfree _ ih => exact ih (entered_le_of_barred?_eq_none hfree hpeak)
  | elseIf _ _ hfree _ ih ihrest => exact ihrest (entered_le_of_barred?_eq_none hfree (ih hpeak))

end Counter

/-! ## Where reading ends -/

section Places

variable {s : Setting} {limit? : Option Nat} {task : Task} {r r' : Reader} {answer : Answer}

/-- No call goes back. -/
theorem Ends.forward (h : Ends s limit? task r answer r') : r'.ahead <:+ r.ahead := by
  induction h with
  | atEnd | stops | reserved | barred | noCells | cellFails | noRows => exact List.suffix_rfl
  | text => exact (Token.behindText_suffix _).trans (List.suffix_cons _ _)
  | single | strays => exact List.suffix_cons _ _
  | opens _ _ _ ih | opensFails _ _ _ ih | table _ _ ih | tableFails _ _ ih =>
    exact ih.trans (List.suffix_cons _ _)
  | lastTurn _ ih | body _ _ ih | bodyFails _ ih | cutOff _ _ ih | elseIfBarred _ _ _ ih
  | rowFails _ ih => exact ih
  -- The field that has ended the body is passed as well.
  | closes _ _ ih => exact (List.suffix_cons _ _).trans ih
  | nextTurn _ _ ih ihrest | row _ _ ih ihrest => exact ihrest.trans ih
  | elseIf _ _ _ _ ih ihrest | otherwise _ _ _ _ ih ihrest =>
    exact ihrest.trans ((List.suffix_cons _ _).trans ih)
  | cell _ _ _ ihrest => exact ihrest

/-- A turn that goes on has passed a token. -/
theorem Ends.onward {stops : List TokenKind} {g g' : Collected}
    (h : Ends s limit? (.turn stops g) r (.goesOn g') r') :
    ∃ t ts, r.ahead = t :: ts ∧ r'.ahead <:+ ts := by
  cases h with
  | text => exact ⟨_, _, rfl, Token.behindText_suffix _⟩
  | single | strays => exact ⟨_, _, rfl, List.suffix_rfl⟩
  | opens _ _ hlevel => exact ⟨_, _, rfl, hlevel.forward⟩
  | table _ hrows => exact ⟨_, _, rfl, hrows.forward⟩

/-- What kind of answer a call comes back with. -/
def Task.Accepts : Task → Answer → Prop
  | .turn .., .goesOn _ | .turn .., .returns .. | .constructs .., .returns ..
  | .block .., .returns .. | .level _, .built _ | .cells _, .cells _ | .rows _, .rows _ => True
  | _, _ => False

theorem Ends.accepts (h : Ends s limit? task r answer r') : task.Accepts answer := by
  induction h with
  | @nextTurn _ _ _ _ _ _ answer _ _ _ ih | @body _ _ _ _ answer _ _ ih => cases answer <;> exact ih
  | @elseIf _ _ _ _ _ _ _ _ _ _ answer _ _ _ _ _ ih
  | @otherwise _ _ _ _ _ _ _ _ _ _ _ answer _ _ _ _ _ ih => cases answer <;> exact ih
  | _ => trivial

end Places

/-- The kinds that a call has to stop before, if it reads a body. -/
def Task.stops? : Task → Option (List TokenKind)
  | .turn stops _ | .constructs stops _ | .block stops _ => some stops
  | .level _ | .cells _ | .rows _ => none

/-- A body has been read up to a token of a kind that the call had to stop before, or to the end. -/
theorem Ends.kind_eq {s : Setting} {limit? : Option Nat} {task : Task} {r r' : Reader}
    {stops : List TokenKind} {kind : TokenKind} {g : Collected}
    (h : Ends s limit? task r (.returns (.ok kind) g) r') (hstops : task.stops? = some stops) :
    r'.kind = kind ∧ (kind ∈ stops ∨ kind = .endOfBody) := by
  generalize hanswer : Answer.returns (.ok kind) g = answer at h
  induction h with
  | atEnd =>
    cases hanswer
    exact ⟨rfl, .inr rfl⟩
  | stops hstop =>
    cases hanswer
    cases hstops
    exact ⟨rfl, .inl hstop⟩
  | lastTurn _ ih | nextTurn _ _ _ ih | body _ _ ih => exact ih hstops hanswer
  | text | single | opens | opensFails | strays | reserved | table | tableFails | barred =>
    cases hanswer
  | bodyFails | cutOff | closes | elseIfBarred | elseIf | otherwise | noCells | cell | cellFails
  | noRows | row | rowFails => cases hstops

/-! ## Limits that are not reached -/

section Unlimited

variable {s : Setting} {n : Nat} {r : Reader}

theorem barred?_eq_none_of_lt (h : r.depth < n) : r.barred? (some n) = none := by
  simpa [barred?] using h

/-- **A limit that the counter does not reach changes nothing.** -/
theorem Ends.underLimit {task : Task} {r r' : Reader} {answer : Answer}
    (h : Ends s none task r answer r') (hpeak : r'.trace.peak ≤ n) :
    Ends (s.withLimit n) (some n) task r answer r' := by
  induction h with
  | atEnd => exact .atEnd
  | stops hstop => exact .stops hstop
  | text hgo => exact .text hgo
  | single hgo hc => exact .single hgo ((single?_withLimit s n _ _).trans hc)
  | opens hgo hl _ ih => exact .opens hgo hl (ih hpeak)
  | opensFails hgo hl _ ih => exact .opensFails hgo hl (ih hpeak)
  | strays hgo hterminator => exact .strays hgo hterminator
  | reserved hgo hk => exact .reserved hgo hk
  | table hgo _ ih => exact .table hgo (ih hpeak)
  | tableFails hgo _ ih => exact .tableFails hgo (ih hpeak)
  | lastTurn _ ih => exact .lastTurn (ih hpeak)
  | nextTurn _ hrest ih ihrest =>
    exact .nextTurn (ih (Nat.le_trans hrest.peak_mono hpeak)) (ihrest hpeak)
  | barred hbarred => cases hbarred
  | @body _ _ r _ _ _ hbody ih =>
    -- What the counter goes up to counts for the highest value that it has had.
    have hpassed : r.depth < n :=
      Nat.lt_of_lt_of_le r.depth_lt_entered (Nat.le_trans hbody.peak_mono hpeak)
    exact .body (barred?_eq_none_of_lt hpassed) (ih hpeak)
  | bodyFails _ ih => exact .bodyFails (ih hpeak)
  | cutOff _ hnone ih => exact .cutOff (ih hpeak) hnone
  | closes _ hnext ih => exact .closes (ih hpeak) hnext
  | elseIfBarred _ _ hbarred => cases hbarred
  | elseIf _ hnext _ hrest ih ihrest =>
    have hentered := Nat.le_trans hrest.peak_mono hpeak
    exact .elseIf (ih (Nat.le_trans (peak_le_entered _) hentered)) hnext
      (barred?_eq_none_of_lt (Nat.lt_of_lt_of_le (depth_lt_entered _) hentered)) (ihrest hpeak)
  | otherwise _ hnext hk hrest ih ihrest =>
    exact .otherwise (ih (Nat.le_trans hrest.peak_mono hpeak)) hnext hk (ihrest hpeak)
  | noCells => exact .noCells
  | cell _ hrest ih ihrest => exact .cell (ih (Nat.le_trans hrest.peak_mono hpeak)) (ihrest hpeak)
  | cellFails _ ih => exact .cellFails (ih hpeak)
  | noRows => exact .noRows
  | row _ hrest ih ihrest => exact .row (ih (Nat.le_trans hrest.peak_mono hpeak)) (ihrest hpeak)
  | rowFails _ ih => exact .rowFails (ih hpeak)

end Unlimited

end Reader

end DocTemplate
