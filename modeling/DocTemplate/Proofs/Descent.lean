import DocTemplate.Proofs.Steps

/-!
# Reading by nested calls

Reading keeps a list of the levels that are open. The same can be done by calls that nest as the
constructs do: what reads a body calls what reads a level, which calls what reads its body, and a
cell of a table is read by a call of its own. A counter goes up before a body is read and down when
its call comes back, also when it comes back with an error. Here are these calls, with the place
that a call stands at, the counter and what the calls remember handed from one to the next.

No call needs the limit on the counter in order to end: each one goes on behind a token that it has
passed, or goes into a cell, or goes on to a kind of call that comes after it. The limit can
therefore be left out.

## Layers

* `Token.extent`: how much there is to read in some tokens, which every call leaves less of
* `Reader`, `Back`, `Turn`: where a call stands, what it comes back with, one turn of reading a body
* `Reader.turn`, `Reader.constructs`, `Reader.block`, `Reader.level`: the calls
-/

namespace DocTemplate

/-! ## How much there is to read -/

namespace Token

mutual

/-- How many positions a token takes, those in its cells included. -/
def extent : Token → Nat
  | .text _ => 1
  | .tag _ f => f.width
  | .table _ rows => 1 + extentOfRows rows

/-- How many positions the rows of a table take. -/
def extentOfRows : List (List (List Token)) → Nat
  | [] => 0
  | row :: rows => extentOfCells row + extentOfRows rows

/-- How many positions the cells of a row take. -/
def extentOfCells : List (List Token) → Nat
  | [] => 0
  | cell :: cells => extentOf cell + extentOfCells cells

/-- How many positions some tokens take, those in their cells included. -/
def extentOf : List Token → Nat
  | [] => 0
  | t :: ts => t.extent + extentOf ts

end

theorem extent_pos (t : Token) : 0 < t.extent := by
  cases t with
  | text r => exact Nat.one_pos
  | tag k f => exact Nat.succ_pos _
  | table id rows =>
    rw [extent]
    omega

theorem extentOf_append (ts us : List Token) : extentOf (ts ++ us) = extentOf ts + extentOf us := by
  induction ts with
  | nil => simp [extentOf]
  | cons t ts ih => simp [extentOf, ih, Nat.add_assoc]

theorem extentOf_le_of_suffix {ts us : List Token} (h : ts <:+ us) : extentOf ts ≤ extentOf us := by
  obtain ⟨passed, rfl⟩ := h
  rw [extentOf_append]
  exact Nat.le_add_left _ _

/-- There is less to read behind a token than before it. -/
theorem extentOf_lt_of_suffix {t : Token} {ts us : List Token} (h : ts <:+ us) :
    extentOf ts < extentOf (t :: us) := by
  have hle := extentOf_le_of_suffix h
  have hpos := t.extent_pos
  rw [extentOf]
  omega

theorem extentOf_le_cells {row : List (List Token)} {cell : List Token} (h : cell ∈ row) :
    extentOf cell ≤ extentOfCells row := by
  induction h with
  | head row => rw [extentOfCells]; omega
  | tail c h ih => rw [extentOfCells]; omega

theorem extentOfCells_le_rows {rows : List (List (List Token))} {row : List (List Token)}
    (h : row ∈ rows) : extentOfCells row ≤ extentOfRows rows := by
  induction h with
  | head rows => rw [extentOfRows]; omega
  | tail r h ih => rw [extentOfRows]; omega

/-- There is less to read in a cell than before its table. -/
theorem extentOf_cell_lt (id : TableId) {rows : List (List (List Token))} {row : List (List Token)}
    (hrow : row ∈ rows) {cell : List Token} (hcell : cell ∈ row) (ts : List Token) :
    extentOf cell < extentOf (.table id rows :: ts) := by
  have hcells := extentOf_le_cells hcell
  have hrows := extentOfCells_le_rows hrow
  rw [extentOf, extent]
  omega

/-- The runs in front that belong to no tag. -/
def leadingRuns : List Token → List RunId
  | .text x :: ts => x :: leadingRuns ts
  | _ => []

/-- What lies behind the runs in front that belong to no tag. -/
def behindText : List Token → List Token
  | .text _ :: ts => behindText ts
  | ts => ts

theorem behindText_suffix (ts : List Token) : behindText ts <:+ ts := by
  fun_induction behindText ts with
  | case1 x ts ih => exact ih.trans (List.suffix_cons _ _)
  | case2 ts => exact List.suffix_rfl

end Token

/-! ## Calls -/

/-- What has been read of a body: its constructs and the stray fields met in it, last first. -/
structure Collected where
  swallowed : List (Keyword × Field) := []
  body : List Construct := []

namespace Collected

def push (g : Collected) (c : Construct) : Collected := { g with body := c :: g.body }

def swallow (g : Collected) (k : Keyword) (f : Field) : Collected :=
  { g with swallowed := (k, f) :: g.swallowed }

/-- As a template of its own. -/
def toSection (g : Collected) : Template := ⟨Tag.swallowAll {} g.swallowed.reverse, g.body.reverse⟩

end Collected

/-- What calls remember, whether they succeed or not. -/
structure Trace where
  /-- The highest value that the counter has had. -/
  peak : Nat := 0
  /-- The stray tags swallowed so far, last first. -/
  strays : List Stray := []

/-- Read one thing after another, up to the first that fails. -/
def Trace.each {α β : Type} (read : α → Trace → Except ParseError β × Trace) :
    List α → Trace → Except ParseError (List β) × Trace
  | [], trace => (.ok [], trace)
  | x :: xs, trace => match read x trace with
    | (.error e, trace) => (.error e, trace)
    | (.ok y, trace) => match each read xs trace with
      | (.error e, trace) => (.error e, trace)
      | (.ok ys, trace) => (.ok (y :: ys), trace)

/-- Where a call stands. -/
structure Reader where
  /-- The tokens ahead. -/
  ahead : List Token
  /-- The counter. -/
  depth : Nat
  trace : Trace := {}

namespace Reader

/-- How many positions lie ahead. -/
def remaining (r : Reader) : Nat := (r.ahead.map Token.width).foldr (· + ·) 0

/-- The kind of the token in front. -/
def kind (r : Reader) : TokenKind := (r.ahead.head?.map Token.kind).getD .endOfBody

/-- The limit, if it keeps the counter from going up. -/
def barred? (limit? : Option Nat) (r : Reader) : Option Nat := limit?.filter (· ≤ r.depth)

/-- The counter goes up. -/
def entered (r : Reader) : Reader :=
  { r with
    depth := r.depth + 1
    trace := { r.trace with peak := max r.trace.peak (r.depth + 1) } }

/-- The counter goes down, unless it is 0. -/
def left (r : Reader) : Reader := { r with depth := r.depth - 1 }

end Reader

/-- What a call at `r` comes back with: an answer, and a place that does not lie before `r`. -/
structure Back (r : Reader) (α : Type) where
  answer : α
  reader : Reader
  forward : reader.ahead <:+ r.ahead

namespace Back

variable {r r' : Reader} {α : Type}

/-- The same for a call that stood before. -/
def since (b : Back r' α) (h : r'.ahead <:+ r.ahead) : Back r α :=
  ⟨b.answer, b.reader, b.forward.trans h⟩

/-- The counter goes down when the call has come back. -/
def left (b : Back r α) : Back r α := ⟨b.answer, b.reader.left, b.forward⟩

/-- What the call that reads a cell comes back with. -/
def template (b : Back r (Except ParseError TokenKind × Collected)) :
    Except ParseError Template × Trace :=
  (b.answer.1.map fun _ => b.answer.2.toSection, b.reader.trace)

end Back

/-- One turn of reading a body: either the call comes back, or it has passed a token and goes on. -/
inductive Turn (r : Reader) where
  | returns (answer : Except ParseError TokenKind) (g : Collected) (r' : Reader)
      (forward : r'.ahead <:+ r.ahead)
  | goesOn (g : Collected) (r' : Reader) (onward : ∃ t ts, r.ahead = t :: ts ∧ r'.ahead <:+ ts)

namespace Level

/-- The kinds of token that the body of a level ends before. -/
def stops (l : Level) : List TokenKind :=
  match l.frame with
  | .loop => [.tag .endFor]
  | .branch => [.tag .elseIf, .tag .otherwise, .tag .endIf]
  | .otherwise => [.tag .endIf]

/-- The level with what has been read of its body. -/
def filled (l : Level) (g : Collected) : Level :=
  { l with swallowed := g.swallowed, body := g.body }

/-- The level that takes the place of this one at a tag, unless the tag closes it. -/
def next? (s : Setting) (l : Level) (k : Keyword) (f : Field) : Option Level :=
  match l.purpose, k with
  | .branch earlier condition, .elseIf =>
    some (.ofCondition s (l.depth + 1) (l.toBranch condition :: earlier) f)
  | .branch earlier condition, .otherwise =>
    some (.ofOtherwise l.depth earlier (l.toBranch condition) f)
  | _, _ => none

end Level

namespace Reader

variable (s : Setting) (limit? : Option Nat)

mutual

/-- One turn of reading a body up to a token of one of the kinds in `stops`. -/
def turn (stops : List TokenKind) (g : Collected) : (r : Reader) → Turn r
  | ⟨[], depth, trace⟩ => .returns (.ok .endOfBody) g ⟨[], depth, trace⟩ List.suffix_rfl
  | ⟨t :: ts, depth, trace⟩ =>
    if t.kind ∈ stops then .returns (.ok t.kind) g ⟨t :: ts, depth, trace⟩ List.suffix_rfl
    else match t with
    | .text x =>
      .goesOn (g.push (.text { runs := x :: Token.leadingRuns ts }))
        ⟨Token.behindText ts, depth, trace⟩ ⟨_, _, rfl, Token.behindText_suffix ts⟩
    | .tag k f => match single? s f k with
      | some c => .goesOn (g.push c) ⟨ts, depth, trace⟩ ⟨_, _, rfl, List.suffix_rfl⟩
      | none => match opened? s f (depth + 1) k with
        | some l => match level l ⟨ts, depth, trace⟩ with
          | ⟨.ok c, r', forward⟩ => .goesOn (g.push c) r' ⟨_, _, rfl, forward⟩
          | ⟨.error e, r', forward⟩ =>
            .returns (.error e) g r' (forward.trans (List.suffix_cons _ _))
        | none =>
          if k.isTerminator then
            .goesOn (g.swallow k f)
              ⟨ts, depth, { trace with strays := ⟨k, depth⟩ :: trace.strays }⟩
              ⟨_, _, rfl, List.suffix_rfl⟩
          else
            -- A reserved tag is refused before it is passed.
            .returns (.error (.unsupportedTag k f.opening.id)) g ⟨.tag k f :: ts, depth, trace⟩
              List.suffix_rfl
    | .table id rows =>
      -- A cell has a counter of its own, which begins where this one stands.
      match Trace.each (fun row => Trace.each (fun cell trace =>
          (block [.endOfBody] {} ⟨cell.1, depth, trace⟩).template) row.1.attach)
        rows.attach trace with
      | (.ok us, trace) =>
        .goesOn (g.push (.table id us)) ⟨ts, depth, trace⟩ ⟨_, _, rfl, List.suffix_rfl⟩
      | (.error e, trace) => .returns (.error e) g ⟨ts, depth, trace⟩ (List.suffix_cons _ _)
termination_by r => (Token.extentOf r.ahead, 0)
decreasing_by
  · exact .left _ _ (Token.extentOf_lt_of_suffix List.suffix_rfl)
  · exact .left _ _ (Token.extentOf_cell_lt id row.2 cell.2 ts)

/-- Read constructs up to a token of one of the kinds in `stops`, turn by turn. -/
def constructs (stops : List TokenKind) (g : Collected) (r : Reader) :
    Back r (Except ParseError TokenKind × Collected) :=
  match turn stops g r with
  | .returns answer g' r' forward => ⟨(answer, g'), r', forward⟩
  | .goesOn g' r' onward =>
    (constructs stops g' r').since
      (by obtain ⟨t, ts, hr, h⟩ := onward; rw [hr]; exact h.trans (List.suffix_cons _ _))
termination_by (Token.extentOf r.ahead, 1)
decreasing_by
  · exact .right _ Nat.zero_lt_one
  · obtain ⟨t, ts, hr, h⟩ := onward
    rw [hr]
    exact .left _ _ (Token.extentOf_lt_of_suffix h)

/-- Read constructs with the counter one up. -/
def block (stops : List TokenKind) (g : Collected) (r : Reader) :
    Back r (Except ParseError TokenKind × Collected) :=
  match r.barred? limit? with
  | some limit => ⟨(.error (.nestingTooDeep limit), g), r, List.suffix_rfl⟩
  | none => (constructs stops g r.entered).left.since List.suffix_rfl
termination_by (Token.extentOf r.ahead, 2)
decreasing_by
  exact .right _ Nat.one_lt_two

/-- Read a level behind its opening field, and the levels that take its place. -/
def level (l : Level) (r : Reader) : Back r (Except ParseError Construct) :=
  match block l.stops {} r with
  | ⟨(.error e, _), r', forward⟩ => ⟨.error e, r', forward⟩
  | ⟨(.ok _, g), r', forward⟩ =>
    match h : r'.ahead with
    | .tag k f :: ts =>
      have behind : ts <:+ r.ahead := (h ▸ List.suffix_cons _ _).trans forward
      match (l.filled g).next? s k f with
      | none => ⟨.ok ((l.filled g).close f), { r' with ahead := ts }, behind⟩
      | some l' =>
        if k = .elseIf then
          -- A further condition is read by a call inside this one, with the counter one up.
          match r'.barred? limit? with
          | some limit => ⟨.error (.nestingTooDeep limit), r', forward⟩
          | none => (level l' { r' with ahead := ts }.entered).left.since behind
        else (level l' { r' with ahead := ts }).since behind
    | _ => ⟨.ok (l.filled g).closeAtEnd, r', forward⟩
termination_by (Token.extentOf r.ahead, 3)
decreasing_by
  · exact .right _ (Nat.lt_succ_self 2)
  all_goals
    have hle := Token.extentOf_le_of_suffix forward
    rw [h] at hle
    exact .left _ _ (Nat.lt_of_lt_of_le (Token.extentOf_lt_of_suffix List.suffix_rfl) hle)

end

end Reader

end DocTemplate
