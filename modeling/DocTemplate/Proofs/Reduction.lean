import DocTemplate.Parse.Levels
import DocTemplate.Template.Survey
import Mathlib.Data.List.Forall2

/-!
# Templates reduced to what is compared

Two templates are often the same up to something: up to the numbers of runs, up to what a compiler
says, up to everything that a tag holds. A reduction says what is kept of the tags, the expressions,
the diagrams and the table numbers; the nesting and the order of the constructs, the iterators and
the displays of queries are kept by every reduction.

## Main statements

- `Construct.reduce_ofBranches`: a conditional is reduced branch by branch
- `Reduction.onResult_mapM`: results that agree one by one agree as a list
- `Template.problems_bare`: the problems of a template are those of the bare template
-/

namespace DocTemplate

/-- What is kept of the parts of a template. -/
structure Reduction where
  /-- Of the tag of a text. -/
  text : Tag → Tag
  /-- Of every other tag. -/
  tag : Tag → Tag
  expression : Option Expression → Option Expression
  diagram : Tag → ImageOptions → Option String → Dict OptionValue → Construct
  table : TableId → TableId
  /-- Of the error that stands in the place of a template. -/
  error : ParseError → ParseError

namespace Construct

mutual

/-- What is kept of a construct. -/
def reduce (r : Reduction) : Construct → Construct
  | .text tag => .text (r.text tag)
  | .query tag expression display => .query (r.tag tag) (r.expression expression) display
  | .image tag options => .image (r.tag tag) options
  | .diagram tag options provider extras => r.diagram tag options provider extras
  | .loop tag iterator source body =>
    .loop (r.tag tag) iterator (r.expression source) (reduceEach r body)
  | .conditional first links otherwise =>
    .conditional (reduceBranch r first) (reduceBranches r links) (reduceElse r otherwise)
  | .table id rows => .table (r.table id) (reduceRows r rows)

def reduceEach (r : Reduction) : List Construct → List Construct
  | [] => []
  | c :: cs => reduce r c :: reduceEach r cs

def reduceBranch (r : Reduction) : Branch Construct → Branch Construct
  | ⟨tag, condition, body⟩ => ⟨r.tag tag, r.expression condition, reduceEach r body⟩

def reduceBranches (r : Reduction) : List (Branch Construct) → List (Branch Construct)
  | [] => []
  | b :: bs => reduceBranch r b :: reduceBranches r bs

def reduceElse (r : Reduction) : Option (Section Construct) → Option (Section Construct)
  | none => none
  | some sec => some (reduceSection r sec)

def reduceSection (r : Reduction) : Section Construct → Section Construct
  | ⟨tag, body⟩ => ⟨r.tag tag, reduceEach r body⟩

def reduceRows (r : Reduction) : List (List (Section Construct)) → List (List (Section Construct))
  | [] => []
  | row :: rows => reduceCells r row :: reduceRows r rows

def reduceCells (r : Reduction) : List (Section Construct) → List (Section Construct)
  | [] => []
  | c :: cs => reduceSection r c :: reduceCells r cs

end

variable (r : Reduction)

theorem reduceEach_eq_map (cs : List Construct) : reduceEach r cs = cs.map (reduce r) := by
  induction cs with
  | nil => rfl
  | cons c cs ih => rw [reduceEach, ih, List.map_cons]

theorem reduceBranches_eq_map (bs : List (Branch Construct)) :
    reduceBranches r bs = bs.map (reduceBranch r) := by
  induction bs with
  | nil => rfl
  | cons b bs ih => rw [reduceBranches, ih, List.map_cons]

theorem reduceCells_eq_map (cells : List (Section Construct)) :
    reduceCells r cells = cells.map (reduceSection r) := by
  induction cells with
  | nil => rfl
  | cons c cs ih => rw [reduceCells, ih, List.map_cons]

theorem reduceRows_eq_map (rows : List (List (Section Construct))) :
    reduceRows r rows = rows.map (fun row => row.map (reduceSection r)) := by
  induction rows with
  | nil => rfl
  | cons row rows ih => rw [reduceRows, ih, List.map_cons, reduceCells_eq_map]

/-- Branches in document order make up a conditional. -/
theorem ofBranches_eq_conditional {last first : Branch Construct}
    {earlier links : List (Branch Construct)} (h : earlier.reverse ++ [last] = first :: links)
    (otherwise : Option (Section Construct)) :
    ofBranches last earlier otherwise = .conditional first links otherwise := by
  unfold ofBranches
  cases hearlier : earlier.reverse with
  | nil =>
    rw [hearlier] at h
    cases h
    rfl
  | cons b bs =>
    rw [hearlier] at h
    cases h
    rfl

theorem reduce_ofBranches (last : Branch Construct) (earlier : List (Branch Construct))
    (otherwise : Option (Section Construct)) :
    (ofBranches last earlier otherwise).reduce r =
      ofBranches (reduceBranch r last) (earlier.map (reduceBranch r)) (reduceElse r otherwise) := by
  unfold ofBranches
  rw [← List.map_reverse]
  cases earlier.reverse with
  | nil => simp [reduce, reduceBranches]
  | cons first links => simp [reduce, reduceBranches_eq_map]

end Construct

/-- What is kept of a template. -/
def Template.reduce (r : Reduction) (t : Template) : Template := Construct.reduceSection r t

/-! ## Results -/

section Results

variable {α : Type}

/-- What is kept of a result, if `f` tells what is kept of a value. -/
def Reduction.onResult (r : Reduction) (f : α → α) : Except ParseError α → Except ParseError α
  | .ok a => .ok (f a)
  | .error e => .error (r.error e)

variable {r : Reduction} {f : α → α}

theorem Reduction.onResult_eq_ok {x : Except ParseError α} {a : α}
    (h : r.onResult f x = .ok a) : ∃ b, x = .ok b ∧ f b = a := by
  cases x with
  | ok b => exact ⟨b, rfl, Except.ok.inj h⟩
  | error e => cases h

theorem Reduction.onResult_eq_error {x : Except ParseError α} {e : ParseError}
    (h : r.onResult f x = .error e) : ∃ e', x = .error e' ∧ r.error e' = e := by
  cases x with
  | ok b => cases h
  | error e' => exact ⟨e', rfl, Except.error.inj h⟩

theorem Reduction.onResult_mapM {β γ : Type} {g : β → Except ParseError α}
    {h : γ → Except ParseError α} {xs : List β} {ys : List γ}
    (hsame : List.Forall₂ (fun x y => r.onResult f (g x) = r.onResult f (h y)) xs ys) :
    r.onResult (List.map f) (xs.mapM g) = r.onResult (List.map f) (ys.mapM h) := by
  induction hsame with
  | nil => rfl
  | @cons x y xs ys hxy hrest ih =>
    rw [List.mapM_cons, List.mapM_cons]
    cases hg : g x with
    | error e =>
      rw [hg] at hxy
      obtain ⟨e', he', hsame⟩ := onResult_eq_error hxy.symm
      rw [he']
      exact congrArg Except.error hsame.symm
    | ok a =>
      rw [hg] at hxy
      obtain ⟨b, hb, hsame⟩ := onResult_eq_ok hxy.symm
      rw [hb]
      -- The first elements agree, so the rest of the two lists decides.
      cases hgs : xs.mapM g with
      | error e =>
        rw [hgs] at ih
        obtain ⟨e', he', hsame⟩ := onResult_eq_error ih.symm
        simp [bind, Except.bind, he', onResult, hsame]
      | ok as =>
        rw [hgs] at ih
        obtain ⟨bs, hbs, hmap⟩ := onResult_eq_ok ih.symm
        simp [bind, Except.bind, pure, Except.pure, hbs, onResult, hsame, hmap]

end Results

/-! ## Bare templates -/

/-- Of the tags only the problems are kept, and how many runs a text has. -/
def Reduction.bare : Reduction where
  text t := { runs := t.runs.map fun _ => 0, problems := t.problems }
  tag t := { problems := t.problems }
  expression e := e
  diagram t options provider extras := .diagram { problems := t.problems } options provider extras
  table _ := 0
  error e := e

/-- The problems of a tag are kept. -/
@[simp]
theorem Reduction.problems_tag_bare (t : Tag) : (Reduction.bare.tag t).problems = t.problems := rfl

namespace Construct

mutual

/-- The problems are all kept. -/
theorem problems_bare : ∀ c : Construct, (c.reduce .bare).problems = c.problems
  | .text _ | .query .. | .image .. | .diagram .. => rfl
  | .loop tag _ _ body => by simp [reduce, problems, problemsOfBody_bare body]
  | .conditional first links otherwise => by
    rw [reduce, problems, problemsOfBranch_bare first, problemsOfBranches_bare links,
      problemsOfElse_bare otherwise, problems]
  | .table _ rows => by rw [reduce, problems, problemsOfRows_bare rows, problems]

theorem problemsOfBody_bare :
    ∀ cs : List Construct, problemsOfBody (reduceEach .bare cs) = problemsOfBody cs
  | [] => rfl
  | c :: cs => by
    rw [reduceEach, problemsOfBody, problems_bare c, problemsOfBody_bare cs, problemsOfBody]

theorem problemsOfBranch_bare :
    ∀ b : Branch Construct, problemsOfBranch (reduceBranch .bare b) = problemsOfBranch b
  | ⟨tag, _, body⟩ => by
    simp [reduceBranch, problemsOfBranch, problemsOfBody_bare body]

theorem problemsOfBranches_bare :
    ∀ bs : List (Branch Construct), problemsOfBranches (reduceBranches .bare bs) =
      problemsOfBranches bs
  | [] => rfl
  | b :: bs => by
    rw [reduceBranches, problemsOfBranches, problemsOfBranch_bare b, problemsOfBranches_bare bs,
      problemsOfBranches]

theorem problemsOfElse_bare :
    ∀ o : Option (Section Construct), problemsOfElse (reduceElse .bare o) = problemsOfElse o
  | none => rfl
  | some sec => by rw [reduceElse, problemsOfElse, problemsOfSection_bare sec, problemsOfElse]

theorem problemsOfSection_bare :
    ∀ sec : Section Construct, problemsOfSection (reduceSection .bare sec) = problemsOfSection sec
  | ⟨tag, body⟩ => by
    simp [reduceSection, problemsOfSection, problemsOfBody_bare body]

theorem problemsOfRows_bare :
    ∀ rows : List (List (Section Construct)), problemsOfRows (reduceRows .bare rows) =
      problemsOfRows rows
  | [] => rfl
  | r :: rs => by
    rw [reduceRows, problemsOfRows, problemsOfCells_bare r, problemsOfRows_bare rs, problemsOfRows]

theorem problemsOfCells_bare :
    ∀ cells : List (Section Construct), problemsOfCells (reduceCells .bare cells) =
      problemsOfCells cells
  | [] => rfl
  | c :: cs => by
    rw [reduceCells, problemsOfCells, problemsOfSection_bare c, problemsOfCells_bare cs,
      problemsOfCells]

end

/-- The field that closes a branch is not to be seen. -/
theorem reduceBranch_absorb (tag : Tag) (role : FieldRole) (f : Field)
    (condition : Option Expression) (body : List Construct) :
    reduceBranch .bare ⟨tag.absorb role f, condition, body⟩ =
      reduceBranch .bare ⟨tag, condition, body⟩ := by
  cases role <;> rfl

end Construct

/-- The problems of a template are those of the bare template. -/
theorem Template.problems_bare (t : Template) : (t.reduce .bare).problems = t.problems :=
  Construct.problemsOfSection_bare t

end DocTemplate
