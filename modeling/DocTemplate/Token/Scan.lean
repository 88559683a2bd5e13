import DocTemplate.Token.Basic

/-!
# From positions to tokens

Three readings of a list of positions:

* `classify` looks at the first position only, and ahead as far as the end of the field that opens
  there, to tell what kind of token begins;
* `readField` takes the field that opens at the first position, or says why there is none;
* `scan` cuts the whole list into tokens.

A field runs to the first closing mark after its opening mark, whatever other marks stand between.
A table or the end of the body before the closing mark means that there is no field: its runs are
plain text.
-/

namespace DocTemplate

/-! ## One token ahead -/

/-- The instruction of a field whose opening mark stands just before these positions, with blanks
at its ends; nothing if a table or the end comes before the closing mark. -/
def peekInstruction : List Position → Option (List Char)
  | [] => none
  | .table .. :: _ => none
  | .run r :: ps => if r.isClosing then some [] else (peekInstruction ps).map (r.instruction ++ ·)

/-- The kind of token that begins at the first position. -/
def classify : List Position → TokenKind
  | [] => .endOfBody
  | .table .. :: _ => .table
  | .run r :: ps =>
    if r.isOpening then
      match (peekInstruction ps).bind (fun cs => Keyword.match? (Text.trim cs)) with
      | some k => .tag k
      | none => .text
    else .text

/-! ## One field -/

/-- The rest of a field after its opening mark: the runs in between, the run that closes it, and the
positions after it. `inner` holds the runs already passed, last first. A failure comes with the
positions that are left. -/
def readFieldRest (opening : Run) (inner : List Run) :
    List Position → Except ParseError Field × List Position
  | [] => (.error (.unterminatedField opening.id), [])
  | .table id _ :: ps => (.error (.tableInsideField opening.id id), ps)
  | .run r :: ps =>
    if r.isClosing then (.ok ⟨opening, inner.reverse, r⟩, ps)
    else readFieldRest opening (r :: inner) ps

/-- The field that opens at the first position, and the positions after it. Where no field opens,
nothing is taken; where the field is broken, everything up to the break is. -/
def readField : List Position → Except ParseError Field × List Position
  | [] => (.error (.notAtField "end of body"), [])
  | .table id rows :: ps => (.error (.notAtField (tableLabel id)), .table id rows :: ps)
  | .run r :: ps =>
    if r.isOpening then readFieldRest r [] ps
    else (.error (.notAtField (runLabel r.id)), .run r :: ps)

/-! ## All tokens -/

/-- The nearest closing mark that a field opened before some place would reach. Of what the field
would say, only the first characters are kept at hand; they tell whether it is a tag. -/
structure FieldEnd where
  /-- The runs from this place up to the mark. -/
  inner : List Run
  closing : Run
  /-- The tokens after the mark. -/
  after : List Token
  /-- The first characters of what the runs say. -/
  start : List Char
  /-- The same without the blanks in front. -/
  lead : List Char
  start_eq : start = (inner.flatMap Run.instruction).take Keyword.maxLength
  lead_eq : lead = (Text.trimLeft (inner.flatMap Run.instruction)).take Keyword.maxLength

namespace FieldEnd

/-- The closing mark itself. -/
def atMark (closing : Run) (after : List Token) : FieldEnd where
  inner := []
  closing := closing
  after := after
  start := []
  lead := []
  start_eq := rfl
  lead_eq := rfl

/-- A text that is put in front of another leaves as much room for it as it does not take. -/
theorem take_append_take (n : Nat) (cs ds : List Char) :
    (cs ++ ds.take n).take n = (cs ++ ds).take n := by
  rw [List.take_append, List.take_append, List.take_take, Nat.min_eq_left (Nat.sub_le _ _)]

/-- Step back over a run between the marks. -/
def back (r : Run) (e : FieldEnd) : FieldEnd :=
  let cs := r.instruction
  if hb : cs.all Text.isBlank then
    { e with
      inner := r :: e.inner
      start := if cs.isEmpty then e.start else (cs ++ e.start).take Keyword.maxLength
      start_eq := by
        rw [List.flatMap_cons, e.start_eq, take_append_take]
        cases h : cs with
        | nil => simp [cs] at h; simp [h]
        | cons => simp [cs] at h; simp [h]
      lead_eq := by rw [List.flatMap_cons, Text.trimLeft_append_of_all hb, e.lead_eq] }
  else
    { e with
      inner := r :: e.inner
      start := (cs ++ e.start).take Keyword.maxLength
      lead := (Text.trimLeft cs ++ e.start).take Keyword.maxLength
      start_eq := by rw [List.flatMap_cons, e.start_eq, take_append_take]
      lead_eq := by
        rw [List.flatMap_cons, Text.trimLeft_append (by simpa using hb), e.start_eq,
          take_append_take] }

/-- The field that opens at `r`, just before this place. -/
def field (e : FieldEnd) (r : Run) : Field := ⟨r, e.inner, e.closing⟩

/-- The keyword of a field that opens just before this place. -/
def keyword? (e : FieldEnd) : Option Keyword := Keyword.match? e.lead

/-- The first characters of a field tell what the whole instruction tells. -/
theorem keyword?_eq (e : FieldEnd) (r : Run) :
    e.keyword? = Keyword.match? (e.field r).instruction := by
  rw [keyword?, e.lead_eq, Keyword.match?_take]
  exact (Keyword.match?_trimRight _).symm

end FieldEnd

/-- What is known about the positions from some place on: their tokens, and the end of a field that
was opened before. -/
structure Ahead where
  tokens : List Token := []
  fieldEnd : Option FieldEnd := none

namespace Ahead

/-- The tag that opens at `r`, with the tokens after it. -/
def tag? (a : Ahead) (r : Run) : Option (Keyword × Field × List Token) := do
  guard r.isOpening
  let e ← a.fieldEnd
  let keyword ← e.keyword?
  return (keyword, e.field r, e.after)

/-- Step back over one position. -/
def back (p : Position) (a : Ahead) : Ahead :=
  match p with
  | .table id rows => { tokens := .table id rows :: a.tokens }
  | .run r =>
    { tokens := match a.tag? r with
        | some (k, f, after) => .tag k f :: after
        | none => .text r.id :: a.tokens
      fieldEnd := if r.isClosing then some (.atMark r a.tokens) else a.fieldEnd.map (.back r) }

end Ahead

/-- What is known from the first position on. -/
def lookAhead (ps : List Position) : Ahead := ps.foldr Ahead.back {}

/-- The tokens of a list of positions. -/
def scan (ps : List Position) : List Token := (lookAhead ps).tokens

namespace Body

mutual

/-- Put the positions of a body in front of `acc`, the last one first. -/
def pushPositions (acc : List Position) : List Element → List Position
  | [] => acc
  | e :: es => pushPositions (pushElementPositions acc e) es

/-- The same for one element; the cells of a table are cut into tokens. -/
def pushElementPositions (acc : List Position) : Element → List Position
  | .paragraph runs => (runs.map Position.run).reverseAux acc
  | .table id rows => .table id (rowTokens rows) :: acc

/-- The tokens of the rows of a table. -/
def rowTokens : List (List (List Element)) → List (List (List Token))
  | [] => []
  | r :: rs => cellTokens r :: rowTokens rs

/-- The tokens of the cells of a row. -/
def cellTokens : List (List Element) → List (List Token)
  | [] => []
  | c :: cs => scan (pushPositions [] c).reverse :: cellTokens cs

end

/-- The positions of a body. -/
def positions (b : Body) : List Position := (pushPositions [] b).reverse

/-- The tokens of a body. -/
def tokens (b : Body) : List Token := scan b.positions

end Body

end DocTemplate
