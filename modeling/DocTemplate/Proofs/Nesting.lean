import DocTemplate.Template.Basic

/-!
# How deep templates nest

The depth that a template takes: one for itself, one for the body of every repetition and of every
condition around, and one for each further condition on the way down a conditional. What follows
`m:else` lies as deep as the condition before it, and a cell one deeper than the body its table
stands in.
-/

namespace DocTemplate

namespace Construct

mutual

/-- How many bodies lie inside one another in a construct. -/
def nesting : Construct → Nat
  | .text _ | .query .. | .image .. | .diagram .. => 0
  | .loop _ _ _ body => 1 + nestingOfBody body
  | .conditional first links otherwise =>
    nestingOfBranch first (nestingOfLinks links (nestingOfElse otherwise))
  | .table _ rows => nestingOfRows rows

def nestingOfBody : List Construct → Nat
  | [] => 0
  | c :: cs => max (nesting c) (nestingOfBody cs)

/-- The same for a branch, with what its alternative takes. -/
def nestingOfBranch : Branch Construct → Nat → Nat
  | ⟨_, _, body⟩, alternative => max (1 + nestingOfBody body) alternative

/-- The same for further conditions: each lies one deeper than the one before. -/
def nestingOfLinks : List (Branch Construct) → Nat → Nat
  | [], alternative => alternative
  | b :: bs, alternative => 1 + nestingOfBranch b (nestingOfLinks bs alternative)

def nestingOfElse : Option (Section Construct) → Nat
  | none => 0
  | some ⟨_, body⟩ => 1 + nestingOfBody body

def nestingOfRows : List (List (Section Construct)) → Nat
  | [] => 0
  | r :: rs => max (nestingOfCells r) (nestingOfRows rs)

def nestingOfCells : List (Section Construct) → Nat
  | [] => 0
  | ⟨_, body⟩ :: cs => max (1 + nestingOfBody body) (nestingOfCells cs)

end

/-- A condition takes at least its own body. -/
theorem nestingOfBranch_pos (b : Branch Construct) (alternative : Nat) :
    0 < nestingOfBranch b alternative := by
  rw [nestingOfBranch]
  omega

end Construct

/-- How deep bodies must be allowed to nest for a template. -/
def Template.need (t : Template) : Nat := 1 + Construct.nestingOfBody t.body

end DocTemplate
