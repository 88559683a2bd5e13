import DocTemplate.Parse.Levels
import DocTemplate.Token.Scan

/-!
# Reading tokens into templates

One token is read at a time. Plain runs extend the current stretch; a table is read cell by cell,
each cell as a template of its own one level deeper; a tag opens a level, ends one, is understood by
itself, or is swallowed as a stray.

The reading goes over the tokens once, and over those of the cells inside them, so it ends for every
body, whatever the nesting limit is. It fails only at a reserved tag and where bodies nest deeper
than the limit.
-/

namespace DocTemplate

/-- What one token leads to. -/
inductive Step where
  | next (p : Progress)
  /-- The reading fails; `taken` tells whether the token has been read. -/
  | fail (e : ParseError) (taken : Bool) (p : Progress)

/-- Open a level, unless the nesting limit is reached. -/
def Progress.openLevel (p : Progress) (s : Setting) (level : Nat → Level) : Step :=
  if s.limit ≤ p.depth then .fail (.nestingTooDeep s.limit) true p
  else .next { p with levels := level (p.depth + 1) :: p.levels }

/-- Close the innermost level with its construct. -/
def Progress.closeLevel (p : Progress) (ls : List Level) (c : Construct) : Progress :=
  { p with levels := ls }.push c

/-- Read a tag. -/
def Progress.readTag (p : Progress) (s : Setting) (k : Keyword) (f : Field) : Step :=
  match k with
  | .query => .next (p.push (readQuery s f))
  | .image => .next (p.push (readImage f))
  | .diagram => .next (p.push (readDiagram s f))
  | .forEach => p.openLevel s (Level.ofLoop s · f)
  | .ifThen => p.openLevel s (Level.ofCondition s · [] f)
  -- A reserved tag is refused before it is read, so it is still there for whoever asks.
  | .element | .binding => .fail (.unsupportedTag k f.opening.id) false p
  | .endBinding => .next (p.swallow k f)
  | .endFor => match p.levels with
    | l :: ls => match l.purpose with
      | .loop .. => .next (p.closeLevel ls (l.close f))
      | _ => .next (p.swallow k f)
    | [] => .next (p.swallow k f)
  | .endIf => match p.levels with
    | l :: ls => match l.purpose with
      | .branch .. | .otherwise .. => .next (p.closeLevel ls (l.close f))
      | .loop .. => .next (p.swallow k f)
    | [] => .next (p.swallow k f)
  | .elseIf => match p.levels with
    | l :: ls => match l.purpose with
      | .branch earlier condition =>
        -- The next condition lies one deeper and takes the place of this one.
        if s.limit ≤ l.depth then .fail (.nestingTooDeep s.limit) true p
        else
          let next := Level.ofCondition s (l.depth + 1) (l.toBranch condition :: earlier) f
          .next { p with levels := next :: ls }
      | _ => .next (p.swallow k f)
    | [] => .next (p.swallow k f)
  | .otherwise => match p.levels with
    | l :: ls => match l.purpose with
      | .branch earlier condition =>
        -- What `m:else` opens lies no deeper than the condition before it.
        .next { p with levels := Level.ofOtherwise l.depth earlier (l.toBranch condition) f :: ls }
      | _ => .next (p.swallow k f)
    | [] => .next (p.swallow k f)

/-- How a reading ends. -/
structure Outcome where
  progress : Progress
  /-- The tokens that are left. -/
  rest : List Token
  /-- The kind of token that the block stopped before. -/
  result : Except ParseError TokenKind

mutual

/-- Read tokens up to one that the block stops before, or up to the end. -/
def readTokens (s : Setting) : List Token → Progress → Outcome
  | [], p => ⟨p.finish, [], .ok .endOfBody⟩
  | t :: ts, p =>
    if p.stopsAt t.kind then ⟨p.settle, t :: ts, .ok t.kind⟩
    else match readToken s t p with
      | .next p => readTokens s ts p
      | .fail e taken p => ⟨p, if taken then ts else t :: ts, .error e⟩

/-- Read one token. -/
def readToken (s : Setting) : Token → Progress → Step
  | .text r, p => .next { p with stretch := r :: p.stretch }
  | .tag k f, p => p.settle.readTag s k f
  | .table id rows, p =>
    let p := p.settle
    -- The strays of the cells are counted also when a cell fails.
    match readRows s p.depth rows [] p.strays with
    | (.ok rows, strays) => .next { p.push (.table id rows) with strays := strays }
    | (.error e, strays) => .fail e true { p with strays := strays }

/-- Read the rows of a table that stands in a body of this depth; `done` holds the rows already
read, last first. -/
def readRows (s : Setting) (depth : Nat) :
    List (List (List Token)) → List (List Template) → List Stray →
    Except ParseError (List (List Template)) × List Stray
  | [], done, strays => (.ok done.reverse, strays)
  | r :: rs, done, strays => match readCells s depth r [] strays with
    | (.ok cells, strays) => readRows s depth rs (cells :: done) strays
    | (.error e, strays) => (.error e, strays)

/-- Read the cells of a row. -/
def readCells (s : Setting) (depth : Nat) :
    List (List Token) → List Template → List Stray →
    Except ParseError (List Template) × List Stray
  | [], done, strays => (.ok done.reverse, strays)
  | c :: cs, done, strays =>
    if s.limit ≤ depth then (.error (.nestingTooDeep s.limit), strays)
    else
      let out := readTokens s c (Progress.start [.endOfBody] (depth + 1) strays)
      match out.result with
      | .ok _ => readCells s depth cs (out.progress.block.toSection :: done) out.progress.strays
      | .error e => (.error e, out.progress.strays)

end

/-- A result together with the stray tags that were swallowed on the way, in the order in which they
were met. -/
structure Parsed (α : Type) where
  result : Except ParseError α
  strays : List Stray

/-- Read a block that stands in a body of this depth: constructs up to one of the kinds in
`stops`. -/
def readBlock (s : Setting) (depth : Nat) (stops : List TokenKind) (tag : Tag)
    (tokens : List Token) : Outcome :=
  let start : Progress := { block := { stops := stops, depth := depth + 1, header := tag } }
  if s.limit ≤ depth then ⟨start, tokens, .error (.nestingTooDeep s.limit)⟩
  else readTokens s tokens start

/-- Read tokens as a template that stands in a body of this depth. -/
def readTemplate (s : Setting) (depth : Nat) (tokens : List Token) : Parsed Template :=
  let out := readBlock s depth [.endOfBody] {} tokens
  ⟨out.result.map fun _ => out.progress.block.toSection, out.progress.strays.reverse⟩

/-- Parse a body. -/
def Body.parse (s : Setting) (b : Body) : Parsed Template := readTemplate s 0 b.tokens

end DocTemplate
