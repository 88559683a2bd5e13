import DocTemplate.Parse.Header

/-!
# What is open

While a body is read, some constructs are open: their opening field has been read and their end has
not. They form levels, innermost first, above the block that the whole reading is for. A level knows
which fields end it; every other end tag that meets it is a stray one, which the level swallows into
its own tag. It sets strays aside as they come and takes them into the tag when it is closed.

The depth of a level counts the bodies around its own body, the block included. A further condition
of a conditional (`m:elseif`) lies one deeper than the one before; what `m:else` opens takes the
place of the condition before it.
-/

namespace DocTemplate

/-- Which construct a level builds. -/
inductive Purpose where
  | loop (iterator : Option String) (source : Option Expression)
  /-- A condition; `earlier` holds the finished branches before it, last first. -/
  | branch (earlier : List (Branch Construct)) (condition : Option Expression)
  /-- What `m:else` opens; `last` is the branch before it and `earlier` the ones before that. -/
  | otherwise (earlier : List (Branch Construct)) (last : Branch Construct)
  deriving Inhabited

/-- A construct whose end has not been read. -/
structure Level where
  purpose : Purpose
  depth : Nat
  /-- What its opening field says. -/
  header : Tag
  /-- The stray fields met in its body, last first. -/
  swallowed : List (Keyword × Field) := []
  /-- The constructs of its body, last first. -/
  body : List Construct := []
  deriving Inhabited

/-- What a reading is for: a tag and a body, up to one of the kinds in `stops`. -/
structure Block where
  stops : List TokenKind
  depth : Nat
  /-- The tag as it was before the reading. -/
  header : Tag := {}
  /-- The stray fields met in its body, last first. -/
  swallowed : List (Keyword × Field) := []
  /-- The constructs read so far, last first. -/
  body : List Construct := []
  deriving Inhabited

namespace Block

/-- The tag, stray fields included. -/
def tag (b : Block) : Tag := b.header.swallowAll b.swallowed.reverse

/-- Record a problem. -/
def report (b : Block) (cause : Cause) (run : Option RunId) : Block :=
  { b with header := b.tag.report cause run, swallowed := [] }

/-- The block as a section. -/
def toSection (b : Block) : Section Construct := ⟨b.tag, b.body.reverse⟩

end Block

/-- The conditional whose branches are listed last first. -/
def Construct.ofBranches (last : Branch Construct) (earlier : List (Branch Construct))
    (otherwise : Option (Section Construct)) : Construct :=
  match earlier.reverse with
  | [] => .conditional last [] otherwise
  | first :: links => .conditional first (links ++ [last]) otherwise

namespace Level

/-- The level that the opening field of a repetition opens. -/
def ofLoop (s : Setting) (depth : Nat) (f : Field) : Level :=
  let h := readLoop s f
  { purpose := .loop h.iterator h.source, depth := depth, header := h.tag }

/-- The level that a condition opens. -/
def ofCondition (s : Setting) (depth : Nat) (earlier : List (Branch Construct)) (f : Field) :
    Level :=
  let (condition, tag) := readCondition s f
  { purpose := .branch earlier condition, depth := depth, header := tag }

/-- The level that `m:else` opens in the place of the condition before it. -/
def ofOtherwise (depth : Nat) (earlier : List (Branch Construct)) (last : Branch Construct)
    (f : Field) : Level :=
  { purpose := .otherwise earlier last, depth := depth, header := Tag.ofField f }

/-- The tag, stray fields included. -/
def tag (l : Level) : Tag := l.header.swallowAll l.swallowed.reverse

/-- The branch that a condition's level amounts to. -/
def toBranch (l : Level) (condition : Option Expression) : Branch Construct :=
  ⟨l.tag, condition, l.body.reverse⟩

/-- The construct of a level that its end tag `f` closes. -/
def close (l : Level) (f : Field) : Construct :=
  match l.purpose with
  | .loop iterator source => .loop (l.tag.absorb .closing f) iterator source l.body.reverse
  | .branch earlier condition =>
    .ofBranches ⟨l.tag.absorb .closing f, condition, l.body.reverse⟩ earlier none
  | .otherwise earlier last =>
    .ofBranches { last with tag := last.tag.absorb .closing f } earlier
      (some ⟨l.tag, l.body.reverse⟩)

/-- The construct of a level that the end of the body cuts off. -/
def closeAtEnd (l : Level) : Construct :=
  let tag := l.tag.report (.unexpected .endOfBody) none
  match l.purpose with
  | .loop iterator source => .loop tag iterator source l.body.reverse
  | .branch earlier condition =>
    .ofBranches ⟨tag.report .conditionalLeftOpen tag.anchor?, condition, l.body.reverse⟩ earlier
      none
  | .otherwise earlier last => .ofBranches last earlier (some ⟨tag, l.body.reverse⟩)

end Level

/-- A stray end tag that was swallowed, with the depth of the body it was met in. -/
structure Stray where
  keyword : Keyword
  depth : Nat
  deriving DecidableEq, Repr, Inhabited

/-- A reading in progress. -/
structure Progress where
  block : Block
  /-- The open levels, innermost first. -/
  levels : List Level := []
  /-- The current stretch of runs that belong to no tag, last first. -/
  stretch : List RunId := []
  /-- The stray tags swallowed so far, last first. -/
  strays : List Stray := []
  deriving Inhabited

namespace Progress

/-- A reading at its start. -/
def start (stops : List TokenKind) (depth : Nat) (strays : List Stray) : Progress :=
  { block := { stops := stops, depth := depth }, strays := strays }

/-- The depth of the innermost body. -/
def depth (p : Progress) : Nat :=
  match p.levels with
  | [] => p.block.depth
  | l :: _ => l.depth

/-- Add a construct to the innermost body. -/
def push (p : Progress) (c : Construct) : Progress :=
  match p.levels with
  | [] => { p with block := { p.block with body := c :: p.block.body } }
  | l :: ls => { p with levels := { l with body := c :: l.body } :: ls }

/-- End the current stretch of plain runs, which becomes one construct. -/
def settle (p : Progress) : Progress :=
  if p.stretch.isEmpty then p
  else { p.push (.text { runs := p.stretch.reverse }) with stretch := [] }

/-- Swallow a tag that ends nothing here. -/
def swallow (p : Progress) (k : Keyword) (f : Field) : Progress :=
  let strays := ⟨k, p.depth⟩ :: p.strays
  match p.levels with
  | [] =>
    { p with block := { p.block with swallowed := (k, f) :: p.block.swallowed }, strays := strays }
  | l :: ls =>
    { p with levels := { l with swallowed := (k, f) :: l.swallowed } :: ls, strays := strays }

/-- The reading stops before a token of this kind. -/
def stopsAt (p : Progress) (k : TokenKind) : Bool :=
  p.levels.isEmpty && p.block.stops.contains k

/-- Close the levels that the end of the body cuts off, innermost first; `inner` is the construct of
the level closed before. -/
def closeLevels (b : Block) (inner : Option Construct) : List Level → Block
  | [] => { b with body := inner.toList ++ b.body }
  | l :: ls => closeLevels b (some { l with body := inner.toList ++ l.body }.closeAtEnd) ls

/-- The end of the body: all levels are closed, and the block notes that it was not asked to go this
far. -/
def finish (p : Progress) : Progress :=
  let p := p.settle
  let b := closeLevels p.block none p.levels
  let b := if b.stops.contains .endOfBody then b else b.report (.unexpected .endOfBody) none
  { p with block := b, levels := [] }

end Progress

end DocTemplate
