import DocTemplate.Keyword
import DocTemplate.Template.Tag

/-!
# Tokens

A body, read for its tags. Every field whose instruction starts with a keyword is one token; every
other run is a token of its own, also a run that belongs to a field which is no tag; and a table is
one token that holds the tokens of its cells.
-/

namespace DocTemplate

/-- A piece of a body, from the point of view of the template. -/
inductive Token where
  /-- A run that belongs to no tag. -/
  | text (run : RunId)
  | tag (keyword : Keyword) (field : Field)
  | table (id : TableId) (rows : List (List (List Token)))
  deriving Inhabited

namespace Token

/-- The kind of a token. -/
def kind : Token → TokenKind
  | text _ => .text
  | tag k _ => .tag k
  | table .. => .table

/-- How many positions of its body the token takes. -/
def width : Token → Nat
  | text _ => 1
  | tag _ f => f.width
  | table .. => 1

/-- The number of the run, for a run that belongs to no tag. -/
def textRun? : Token → Option RunId
  | text r => some r
  | _ => none

end Token

/-- A place in a body where reading can stop: a run, or a whole table. The boundaries of paragraphs
are no places, and a table's cells are read on their own. -/
inductive Position where
  | run (r : Run)
  | table (id : TableId) (rows : List (List (List Token)))
  deriving Inhabited

namespace Position

/-- The run at a position. -/
def run? : Position → Option Run
  | run r => some r
  | table .. => none

/-- The number of the table at a position. -/
def tableId? : Position → Option TableId
  | run _ => none
  | table id _ => some id

/-- How messages name a position. -/
def label : Position → String
  | run r => runLabel r.id
  | table id _ => tableLabel id

end Position

end DocTemplate
