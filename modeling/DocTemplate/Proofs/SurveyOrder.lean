import DocTemplate.Proofs.Endings
import DocTemplate.Proofs.Preorder

/-!
# The order of a survey

Problems and constructs are collected by functions of their own, each of which goes down into
repetitions, branches and cells by itself. Both follow the pre-order of the template: the tag of a
node comes before its body, a condition before the next one and that before what `m:else` offers,
and cells come row by row. Nothing is passed over, and nothing is collected twice.

## Main statements

- `Template.inPreorder_parts`: the parts of a template are listed in pre-order, one for each place
- `Template.problems_eq_flatMap`: the problems are those of the tags of all parts
- `Template.isValid_iff`: there are none if no tag has one
- `Template.walk_eq_filterMap`: the walk visits those parts that are constructs
-/

namespace DocTemplate

/-- What a template consists of: itself, the constructs in its bodies, what stands behind the first
condition of a conditional, and the cells of tables. -/
inductive Part where
  | template (t : Template)
  | construct (c : Construct)
  /-- An `m:elseif` with its body. -/
  | link (b : Branch Construct)
  /-- An `m:else` with its body. -/
  | otherwise (sec : Section Construct)
  | cell (t : Template)

namespace Construct

/-- What a construct directly holds. The tag and the body of the first condition belong to the
conditional itself. -/
def parts : Construct → List Part
  | .text _ | .query .. | .image .. | .diagram .. => []
  | .loop _ _ _ body => body.map .construct
  | .conditional first links otherwise =>
    first.body.map .construct ++ links.map .link ++ otherwise.toList.map .otherwise
  | .table _ rows => rows.flatten.map .cell

/-- The tag of a construct. Tables have none. -/
def tag? : Construct → Option Tag
  | .text tag | .query tag _ _ | .image tag _ | .diagram tag _ _ _ | .loop tag _ _ _ => some tag
  | .conditional first _ _ => some first.tag
  | .table .. => none

theorem problemsOfBody_eq_flatMap (cs : List Construct) :
    problemsOfBody cs = cs.flatMap problems := by
  induction cs with
  | nil => rfl
  | cons c cs ih => rw [problemsOfBody, ih, List.flatMap_cons]

theorem problemsOfBranch_eq (b : Branch Construct) :
    problemsOfBranch b = b.tag.problems ++ b.body.flatMap problems := by
  cases b
  rw [problemsOfBranch, problemsOfBody_eq_flatMap]

theorem problemsOfSection_eq (sec : Section Construct) :
    problemsOfSection sec = sec.tag.problems ++ sec.body.flatMap problems := by
  cases sec
  rw [problemsOfSection, problemsOfBody_eq_flatMap]

theorem problemsOfBranches_eq_flatMap (bs : List (Branch Construct)) :
    problemsOfBranches bs = bs.flatMap problemsOfBranch := by
  induction bs with
  | nil => rfl
  | cons b bs ih => rw [problemsOfBranches, ih, List.flatMap_cons]

theorem problemsOfElse_eq_flatMap (otherwise : Option (Section Construct)) :
    problemsOfElse otherwise = otherwise.toList.flatMap problemsOfSection := by
  cases otherwise with
  | none => rfl
  | some sec => simp [problemsOfElse]

theorem problemsOfCells_eq_flatMap (cells : List Template) :
    problemsOfCells cells = cells.flatMap problemsOfSection := by
  induction cells with
  | nil => rfl
  | cons cell cells ih => rw [problemsOfCells, ih, List.flatMap_cons]

theorem problemsOfRows_eq_flatMap (rows : List (List Template)) :
    problemsOfRows rows = rows.flatten.flatMap problemsOfSection := by
  induction rows with
  | nil => rfl
  | cons row rows ih =>
    rw [problemsOfRows, ih, problemsOfCells_eq_flatMap, List.flatten_cons, List.flatMap_append]

theorem walkBranch_eq (b : Branch Construct) : walkBranch b = b.body.flatMap walk := by
  cases b
  rw [walkBranch, walkBody_eq_flatMap]

theorem walkSection_eq (sec : Section Construct) : walkSection sec = sec.body.flatMap walk := by
  cases sec
  rw [walkSection, walkBody_eq_flatMap]

theorem walkElse_eq_flatMap (otherwise : Option (Section Construct)) :
    walkElse otherwise = otherwise.toList.flatMap walkSection := by
  cases otherwise with
  | none => rfl
  | some sec => simp [walkElse]

end Construct

namespace Part

/-- What a part directly holds. -/
def parts : Part → List Part
  | .template t | .cell t => t.body.map .construct
  | .construct c => c.parts
  | .link b => b.body.map .construct
  | .otherwise sec => sec.body.map .construct

/-- The tag of a part. -/
def tag? : Part → Option Tag
  | .template t | .cell t => some t.tag
  | .construct c => c.tag?
  | .link b => some b.tag
  | .otherwise sec => some sec.tag

/-- The construct that a part is. -/
def construct? : Part → Option Construct
  | .construct c => some c
  | .template _ | .link _ | .otherwise _ | .cell _ => none

def isLink : Part → Bool
  | .link _ => true
  | _ => false

def isCell : Part → Bool
  | .cell _ => true
  | _ => false

/-- The problems at the tag of a part. -/
def ownProblems (p : Part) : List Problem := p.tag?.elim [] Tag.problems

/-- A construct in a body is smaller than what has the body. -/
theorem sizeOf_lt_of_mem_map_construct {p : Part} {body : List Construct} {n : Nat}
    (h : p ∈ body.map Part.construct) (hle : sizeOf body ≤ n) : sizeOf p < 1 + n := by
  obtain ⟨c, hc, rfl⟩ := List.mem_map.mp h
  have hlt := List.sizeOf_lt_of_mem hc
  rw [Part.construct.sizeOf_spec]
  omega

theorem sizeOf_body_le (sec : Section Construct) : sizeOf sec.body ≤ sizeOf sec := by
  cases sec
  simp

theorem sizeOf_lt_of_mem_parts {p q : Part} (h : q ∈ p.parts) : sizeOf q < sizeOf p := by
  cases p with
  | template t | cell t | otherwise t =>
    exact sizeOf_lt_of_mem_map_construct h (sizeOf_body_le t)
  | link b =>
    apply sizeOf_lt_of_mem_map_construct h
    cases b
    simp
  | construct c =>
    rw [Part.construct.sizeOf_spec]
    cases c with
    | text | query | image | diagram => cases h
    | loop tag iterator source body =>
      apply sizeOf_lt_of_mem_map_construct h
      simp
    | conditional first links otherwise =>
      -- The body of the first condition, the further conditions, and what `m:else` offers.
      rcases List.mem_append.mp h with hfront | helse
      · rcases List.mem_append.mp hfront with hfirst | hlink
        · apply sizeOf_lt_of_mem_map_construct hfirst
          cases first
          simp
          omega
        · obtain ⟨b, hb, rfl⟩ := List.mem_map.mp hlink
          have hlt := List.sizeOf_lt_of_mem hb
          simp
          omega
      · obtain ⟨sec, hsec, rfl⟩ := List.mem_map.mp helse
        obtain rfl := Option.mem_toList.mp hsec
        simp
        omega
    | table id rows =>
      obtain ⟨u, hu, rfl⟩ := List.mem_map.mp h
      obtain ⟨row, hrow, hu⟩ := List.mem_flatten.mp hu
      have h₁ := List.sizeOf_lt_of_mem hrow
      have h₂ := List.sizeOf_lt_of_mem hu
      simp
      omega

/-- The parts of a template and of whatever it holds. -/
def hierarchy : Hierarchy Part where
  parts := parts
  wf := Subrelation.wf sizeOf_lt_of_mem_parts (measure sizeOf).wf

/-- The problems of a part and of everything in it. -/
def problems : Part → List Problem
  | .template t | .cell t => Construct.problemsOfSection t
  | .construct c => c.problems
  | .link b => Construct.problemsOfBranch b
  | .otherwise sec => Construct.problemsOfSection sec

/-- The constructs in a part, which comes first if it is one. -/
def walk : Part → List Construct
  | .template t | .cell t => Construct.walkSection t
  | .construct c => c.walk
  | .link b => Construct.walkBranch b
  | .otherwise sec => Construct.walkSection sec

/-- At every part, its own problems are collected before those of what it holds. -/
theorem problems_eq (p : Part) : p.problems = p.ownProblems ++ p.parts.flatMap problems := by
  cases p with
  | template t | cell t | otherwise t =>
    rw [problems, Construct.problemsOfSection_eq, parts, List.flatMap_map]
    rfl
  | link b =>
    rw [problems, Construct.problemsOfBranch_eq, parts, List.flatMap_map]
    rfl
  | construct c =>
    cases c with
    | text tag | query tag | image tag | diagram tag =>
      simp [problems, Construct.problems, ownProblems, tag?, Construct.tag?, parts, Construct.parts]
    | loop tag iterator source body =>
      simp [problems, Construct.problems, ownProblems, tag?, Construct.tag?, parts, Construct.parts,
        Construct.problemsOfBody_eq_flatMap, List.flatMap_map]
    | conditional first links otherwise =>
      -- The problems of the first condition are the conditional's own.
      simp [problems, Construct.problems, ownProblems, tag?, Construct.tag?, parts, Construct.parts,
        Construct.problemsOfBranch_eq first, Construct.problemsOfBranches_eq_flatMap,
        Construct.problemsOfElse_eq_flatMap, List.flatMap_map]
    | table id rows =>
      rw [parts, Construct.parts, List.flatMap_map]
      exact Construct.problemsOfRows_eq_flatMap rows

/-- At every part, what it is itself is visited before what it holds. -/
theorem walk_eq (p : Part) : p.walk = p.construct?.toList ++ p.parts.flatMap walk := by
  cases p with
  | template t | cell t | otherwise t =>
    rw [walk, Construct.walkSection_eq, parts, List.flatMap_map]
    rfl
  | link b =>
    rw [walk, Construct.walkBranch_eq, parts, List.flatMap_map]
    rfl
  | construct c =>
    cases c with
    | text | query | image | diagram => rfl
    | loop tag iterator source body =>
      simp [walk, Construct.walk, construct?, parts, Construct.parts,
        Construct.walkBody_eq_flatMap, List.flatMap_map]
    | conditional first links otherwise =>
      -- The conditional is visited once, and its conditions are only gone through.
      simp [walk, Construct.walk, construct?, parts, Construct.parts, Construct.walkBranch_eq,
        Construct.walkBranches_eq_flatMap, Construct.walkElse_eq_flatMap, List.flatMap_map]
    | table id rows =>
      rw [walk, Construct.walk, Construct.walkRows_eq_flatMap, parts, Construct.parts,
        List.flatMap_map]
      -- A cell is no construct itself.
      simp only [walk, Construct.walkSection_eq]
      rfl

end Part

namespace Template

/-- All parts of a template. -/
def parts (t : Template) : List Part := Part.hierarchy.all (.template t)

theorem inPreorder_parts (t : Template) : Part.hierarchy.InPreorder (.template t) t.parts :=
  Part.hierarchy.inPreorder_all (.template t)

/-- **The problems of a template are those of its tags,** each once and in pre-order. -/
theorem problems_eq_flatMap (t : Template) : t.problems = t.parts.flatMap Part.ownProblems :=
  (Part.hierarchy.flatMap_all Part.problems_eq (.template t)).symm

/-- A template is valid if no tag in it has a problem. -/
theorem isValid_iff (t : Template) :
    t.isValid = true ↔ ∀ p ∈ t.parts, ∀ tag, p.tag? = some tag → tag.problems = [] := by
  have hown : ∀ p : Part,
      p.ownProblems = [] ↔ ∀ tag, p.tag? = some tag → tag.problems = [] := by
    intro p
    cases h : p.tag? <;> simp [Part.ownProblems, h]
  rw [isValid, List.isEmpty_iff, t.problems_eq_flatMap, List.flatMap_eq_nil_iff]
  simp only [hown]

/-- **The walk visits every construct of a template,** each once and in pre-order. -/
theorem walk_eq_filterMap (t : Template) : t.walk = t.parts.filterMap Part.construct? := by
  have hwalk := Part.hierarchy.flatMap_all Part.walk_eq (.template t)
  rw [parts, List.filterMap_eq_flatMap_toList]
  exact hwalk.symm

end Template

end DocTemplate
