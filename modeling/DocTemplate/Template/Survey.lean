import DocTemplate.Template.Basic

/-!
# Looking over a template

All problems of a template, all its constructs, and how many there are of each kind. Both lists are
in document order of the nodes they come from: a tag's problems before those of its body, a branch
before the next one, the cells of a table row by row.
-/

namespace DocTemplate

namespace Construct

/-- The kind of a construct, as statistics name it. -/
def kindName : Construct → String
  | text _ => "static"
  | query .. => "query"
  | image .. => "image"
  | diagram .. => "representation"
  | loop .. => "repetition"
  | conditional .. => "conditional"
  | table .. => "table"

mutual

/-- The problems of a construct and of everything in it. -/
def problems : Construct → List Problem
  | .text tag | .query tag _ _ | .image tag _ | .diagram tag _ _ _ => tag.problems
  | .loop tag _ _ body => tag.problems ++ problemsOfBody body
  | .conditional first links otherwise =>
    problemsOfBranch first ++ problemsOfBranches links ++ problemsOfElse otherwise
  | .table _ rows => problemsOfRows rows

/-- The problems of a list of constructs. -/
def problemsOfBody : List Construct → List Problem
  | [] => []
  | c :: cs => problems c ++ problemsOfBody cs

/-- The problems of a branch. -/
def problemsOfBranch : Branch Construct → List Problem
  | ⟨tag, _, body⟩ => tag.problems ++ problemsOfBody body

/-- The problems of several branches. -/
def problemsOfBranches : List (Branch Construct) → List Problem
  | [] => []
  | b :: bs => problemsOfBranch b ++ problemsOfBranches bs

/-- The problems of what follows `m:else`. -/
def problemsOfElse : Option (Section Construct) → List Problem
  | none => []
  | some sec => problemsOfSection sec

/-- The problems of a section. -/
def problemsOfSection : Section Construct → List Problem
  | ⟨tag, body⟩ => tag.problems ++ problemsOfBody body

/-- The problems of the rows of a table. -/
def problemsOfRows : List (List (Section Construct)) → List Problem
  | [] => []
  | r :: rs => problemsOfCells r ++ problemsOfRows rs

/-- The problems of the cells of a row. -/
def problemsOfCells : List (Section Construct) → List Problem
  | [] => []
  | c :: cs => problemsOfSection c ++ problemsOfCells cs

end

mutual

/-- A construct followed by everything in it. -/
def walk : Construct → List Construct
  | .loop tag iterator source body => .loop tag iterator source body :: walkBody body
  | .conditional first links otherwise =>
    .conditional first links otherwise ::
      (walkBranch first ++ walkBranches links ++ walkElse otherwise)
  | .table id rows => .table id rows :: walkRows rows
  | c => [c]

/-- The constructs of a list, each followed by everything in it. -/
def walkBody : List Construct → List Construct
  | [] => []
  | c :: cs => walk c ++ walkBody cs

/-- The constructs of a branch. -/
def walkBranch : Branch Construct → List Construct
  | ⟨_, _, body⟩ => walkBody body

/-- The constructs of several branches. -/
def walkBranches : List (Branch Construct) → List Construct
  | [] => []
  | b :: bs => walkBranch b ++ walkBranches bs

/-- The constructs of what follows `m:else`. -/
def walkElse : Option (Section Construct) → List Construct
  | none => []
  | some sec => walkSection sec

/-- The constructs of a section. -/
def walkSection : Section Construct → List Construct
  | ⟨_, body⟩ => walkBody body

/-- The constructs of the rows of a table. -/
def walkRows : List (List (Section Construct)) → List Construct
  | [] => []
  | r :: rs => walkCells r ++ walkRows rs

/-- The constructs of the cells of a row. -/
def walkCells : List (Section Construct) → List Construct
  | [] => []
  | c :: cs => walkSection c ++ walkCells cs

end

/-- How many further conditions a conditional has. -/
def linkCount : Construct → Nat
  | conditional _ links _ => links.length
  | _ => 0

/-- How many cells a table has. -/
def cellCount : Construct → Nat
  | table _ rows => (rows.map List.length).foldr (· + ·) 0
  | _ => 0

end Construct

namespace Template

/-- All problems of a template. -/
def problems (t : Template) : List Problem := Construct.problemsOfSection t

/-- The template has no problem. -/
def isValid (t : Template) : Bool := t.problems.isEmpty

/-- All constructs of a template, nested ones after those that hold them. -/
def walk (t : Template) : List Construct := Construct.walkSection t

end Template

/-- How many constructs of which kind a template has. -/
structure Stats where
  /-- Counts by kind; a kind that does not occur is left out. -/
  constructs : Dict Nat := {}
  /-- Further conditions of all conditionals. -/
  links : Nat := 0
  tableCells : Nat := 0
  problems : Nat := 0

namespace Stats

/-- How many constructs there are of a kind. -/
def count (s : Stats) (kind : String) : Nat := (s.constructs.get? kind).getD 0

/-- Count one more construct. -/
def add (s : Stats) (c : Construct) : Stats :=
  { s with
    constructs := s.constructs.insert c.kindName (s.count c.kindName + 1)
    links := s.links + c.linkCount
    tableCells := s.tableCells + c.cellCount }

/-- The counts of a template. -/
def ofTemplate (t : Template) : Stats :=
  t.walk.foldl add { problems := t.problems.length }

/-- How many constructs there are. -/
def total (s : Stats) : Nat := s.constructs.values.foldr (· + ·) 0

end Stats

end DocTemplate
