import DocTemplate.Parse.Reading

/-!
# Reading step by step

A session goes through a body under its user's control: it can look ahead and step over positions,
read a single field, or read any construct at the place it has reached, whatever stands there. It
keeps a depth, which the user can change and which bounds how much deeper the constructs it reads
may nest, one tag that fields can be read into, and the stray tags that were swallowed on the way.

A step that fails leaves the session after what it has taken; the depth is as before.
-/

namespace DocTemplate

/-- A place in a list of positions. -/
structure Cursor where
  positions : List Position
  /-- How many positions lie behind. -/
  index : Nat := 0
  deriving Inhabited

namespace Cursor

/-- The positions ahead. -/
def rest (c : Cursor) : List Position := c.positions.drop c.index

/-- How many positions lie ahead. -/
def remaining (c : Cursor) : Nat := c.positions.length - c.index

/-- There is a position ahead. -/
def hasNext (c : Cursor) : Bool := c.index < c.positions.length

/-- The position `n` steps ahead, where one step leads to the next one. The place is computed with
64-bit words. -/
def lookahead (c : Cursor) (n : UInt64) : Option Position :=
  if n = 0 then none else c.positions[(UInt64.ofNat c.index + n - 1).toNat]?

/-- Step over a position. -/
def next (c : Cursor) : Option Position × Cursor :=
  match c.positions[c.index]? with
  | some p => (some p, { c with index := c.index + 1 })
  | none => (none, c)

/-- Go to where only `n` positions lie ahead. -/
def leaving (c : Cursor) (n : Nat) : Cursor := { c with index := c.positions.length - n }

end Cursor

/-- A reading under its user's control. -/
structure Session where
  setting : Setting
  cursor : Cursor
  depth : Nat := 0
  tag : Tag := {}
  /-- The stray tags swallowed so far, last first. -/
  strays : List Stray := []

namespace Session

/-- A session at the start of a body. -/
def start (s : Setting) (b : Body) : Session :=
  { setting := s, cursor := { positions := b.positions } }

/-- The kind of token at the place that is reached. -/
def kind (s : Session) : TokenKind := classify s.cursor.rest

/-- The tokens ahead. -/
def tokens (s : Session) : List Token := scan s.cursor.rest

/-- Go to where only these positions lie ahead. -/
def leaving (s : Session) (n : Nat) : Session := { s with cursor := s.cursor.leaving n }

/-- Step over a position. -/
def next (s : Session) : Option Position × Session :=
  let (p, c) := s.cursor.next
  (p, { s with cursor := c })

/-! ## Depth -/

/-- Go one level deeper. -/
def enter (s : Session) : Except ParseError Unit × Session :=
  if s.setting.limit ≤ s.depth then (.error (.nestingTooDeep s.setting.limit), s)
  else (.ok (), { s with depth := s.depth + 1 })

/-- Go one level up, unless at the top. -/
def leave (s : Session) : Session := { s with depth := s.depth - 1 }

/-! ## Fields -/

/-- Take the field at this place. -/
def takeField (s : Session) : Except ParseError Field × Session :=
  let (result, rest) := readField s.cursor.rest
  (result, s.leaving rest.length)

/-- Take the field at this place into the session's tag; the result is its instruction. -/
def readTag (s : Session) (role : FieldRole) : Except ParseError (List Char) × Session :=
  match s.takeField with
  | (.ok f, s) => (.ok f.instruction, { s with tag := s.tag.absorb role f })
  | (.error e, s) => (.error e, s)

/-- Take the field at this place into the session's tag and read the options after a keyword. -/
def readOptions (s : Session) (keyword : String) : Except ParseError OptionMap × Session :=
  match s.readTag .opening with
  | (.ok instruction, s) =>
    let (options, causes) := DocTemplate.readOptions keyword.toList instruction
    (.ok options, { s with tag := s.tag.reportAll causes })
  | (.error e, s) => (.error e, s)

/-! ## Constructs -/

/-- Remember stray tags, given last first. -/
def noting (s : Session) (strays : List Stray) : Session := { s with strays := strays ++ s.strays }

/-- Go to where a reading has left the tokens. -/
def after (s : Session) (out : Outcome) : Session :=
  (s.leaving ((out.rest.map Token.width).foldr (· + ·) 0)).noting out.progress.strays

/-- Read constructs into the session's tag up to one of the kinds in `stops`; also the constructs
that were complete before a failure are given. -/
def readBlock (s : Session) (stops : List TokenKind) :
    Except ParseError TokenKind × List Construct × Session :=
  let out := DocTemplate.readBlock s.setting s.depth stops s.tag s.tokens
  (out.result, out.progress.block.body.reverse,
    { s.after out with tag := out.progress.block.tag })

/-- Read the rest of the body as a template. -/
def readTemplate (s : Session) : Except ParseError Template × Session :=
  let out := DocTemplate.readBlock s.setting s.depth [.endOfBody] {} s.tokens
  (out.result.map fun _ => out.progress.block.toSection, s.after out)

/-- Take the field at this place as one that is understood by itself. -/
def readWith (s : Session) (read : Field → Construct) : Except ParseError Construct × Session :=
  match s.takeField with
  | (.ok f, s) => (.ok (read f), s)
  | (.error e, s) => (.error e, s)

/-- Take the field at this place as a query. -/
def readQuery (s : Session) : Except ParseError Construct × Session :=
  s.readWith (DocTemplate.readQuery s.setting)

/-- Take the field at this place as an image. -/
def readImage (s : Session) : Except ParseError Construct × Session :=
  s.readWith DocTemplate.readImage

/-- Take the field at this place as a diagram. -/
def readDiagram (s : Session) : Except ParseError Construct × Session :=
  s.readWith (DocTemplate.readDiagram s.setting)

/-- Take the field at this place as the opening of a level, and read on until the level is closed.
The block underneath stops before anything else. -/
def readLevel (s : Session) (level : Nat → Field → Level) :
    Except ParseError Construct × Session :=
  match s.takeField with
  | (.error e, s) => (.error e, s)
  | (.ok f, s) =>
    let limit := s.setting.limit
    if limit ≤ s.depth then (.error (.nestingTooDeep limit), s)
    else
      let out := readTokens s.setting s.tokens
        { block := { stops := TokenKind.all, depth := s.depth }
          levels := [level (s.depth + 1) f] }
      (out.result.map fun _ => out.progress.block.body.headD (.text {}), s.after out)

/-- Take the field at this place as the opening of a repetition. -/
def readLoop (s : Session) : Except ParseError Construct × Session :=
  s.readLevel (Level.ofLoop s.setting)

/-- Take the field at this place as the opening of a conditional. -/
def readConditional (s : Session) : Except ParseError Construct × Session :=
  s.readLevel (fun depth f => Level.ofCondition s.setting depth [] f)

/-- Take the runs from this place on that belong to no tag; there may be none. -/
def readText (s : Session) : Construct × Session :=
  let runs := (s.tokens.map Token.textRun?).takeWhile Option.isSome
  (.text { runs := runs.filterMap id }, s.leaving (s.cursor.remaining - runs.length))

/-- Take the table at this place; nothing is taken where there is none. -/
def readTable (s : Session) : Option (Except ParseError Construct) × Session :=
  match s.cursor.rest with
  | .table id rows :: _ =>
    let (result, strays) := readRows s.setting s.depth rows [] []
    (some (result.map (.table id)), s.next.2.noting strays)
  | _ => (none, s)

/-- Read one cell of the table at this place, without taking the table. -/
def readCell (s : Session) (row column : Nat) : Option (Except ParseError Template) × Session :=
  match s.cursor.rest with
  | .table _ rows :: _ => match rows[row]?.bind (·[column]?) with
    | some cell =>
      let parsed := DocTemplate.readTemplate s.setting s.depth cell
      (some parsed.result, s.noting parsed.strays.reverse)
    | none => (none, s)
  | _ => (none, s)

end Session

end DocTemplate
