import DocTemplate.Problem
import DocTemplate.Text.Blank

/-!
# Fields and tags

A field is a stretch of runs from an opening mark to the next closing mark. A tag is what a node of
a template remembers of the fields that belong to it: the runs of its opening field, of the field
that closes it and of the stray fields swallowed inside it, the run whose formatting generated
content takes over, and the problems found.
-/

namespace DocTemplate

/-- A complete field: the run that opens it, the runs in between, and the run that closes it. -/
structure Field where
  opening : Run
  inner : List Run
  closing : Run
  deriving DecidableEq, Repr, Inhabited

namespace Field

/-- The numbers of all runs of the field. -/
def runs (f : Field) : List RunId := f.opening.id :: f.inner.map Run.id ++ [f.closing.id]

/-- How many runs the field takes. -/
def width (f : Field) : Nat := f.inner.length + 2

/-- The instruction: what the runs between the marks say, without blanks at the ends. -/
def instruction (f : Field) : List Char := Text.trim (f.inner.flatMap Run.instruction)

end Field

/-- What follows the first colon. -/
def afterColon? (cs : List Char) : Option (List Char) :=
  match cs.dropWhile (· ≠ ':') with
  | [] => none
  | _ :: rest => some rest

/-- The run whose formatting generated content takes over: the one that holds the character after
the first colon, however the instruction is cut over runs. -/
def styleRun? : List Run → Option RunId
  | [] => none
  | r :: rs => match afterColon? r.instruction with
    | none => styleRun? rs
    | some [] => (rs.find? (fun r => !r.instruction.isEmpty)).map Run.id
    | some (_ :: _) => some r.id

/-- What a node remembers of its fields. -/
structure Tag where
  /-- The runs of the opening field, followed by those of swallowed stray fields. -/
  runs : List RunId := []
  closingRuns : List RunId := []
  styleRun : Option RunId := none
  problems : List Problem := []
  deriving DecidableEq, Repr, Inhabited

/-- Whether a field opens or closes the node it belongs to. -/
inductive FieldRole where
  | opening
  | closing
  deriving DecidableEq, Repr, Inhabited

namespace Tag

/-- The run that problems of the tag are reported at: the one after the opening mark, or the only
one. -/
def anchor? (t : Tag) : Option RunId := t.runs[1]? <|> t.runs[0]?

/-- Add the runs of a field. The first field that has a style run settles it for the tag. -/
def absorb (t : Tag) (role : FieldRole) (f : Field) : Tag :=
  let styleRun := t.styleRun <|> styleRun? f.inner
  match role with
  | .opening => { t with runs := t.runs ++ f.runs, styleRun := styleRun }
  | .closing => { t with closingRuns := t.closingRuns ++ f.runs, styleRun := styleRun }

/-- The tag of a node that opens with a field. -/
def ofField (f : Field) : Tag := absorb {} .opening f

/-- Record a problem. -/
def report (t : Tag) (cause : Cause) (run : Option RunId) : Tag :=
  { t with problems := t.problems ++ [⟨cause, run⟩] }

/-- Record problems at the tag's anchor. -/
def reportAll (t : Tag) (causes : List Cause) : Tag :=
  { t with problems := t.problems ++ causes.map (fun c => ⟨c, t.anchor?⟩) }

/-- Take in a field that ends nothing here: it is reported at its opening run, and its runs become
runs of the tag. -/
def swallow (t : Tag) (k : Keyword) (f : Field) : Tag :=
  (t.report (.unexpected (.tag k)) (some f.opening.id)).absorb .opening f

/-- Take in several such fields, all at once. -/
def swallowAll (t : Tag) (strays : List (Keyword × Field)) : Tag :=
  { t with
    runs := t.runs ++ strays.flatMap (fun s => s.2.runs)
    styleRun := t.styleRun <|> strays.findSome? (fun s => styleRun? s.2.inner)
    problems := t.problems ++
      strays.map (fun s => ⟨.unexpected (.tag s.1), some s.2.opening.id⟩) }

theorem swallowAll_nil (t : Tag) : t.swallowAll [] = t := by
  simp [swallowAll]

/-- Taking in fields all at once is taking them in one by one. -/
theorem swallowAll_eq_foldl (t : Tag) (strays : List (Keyword × Field)) :
    t.swallowAll strays = strays.foldl (fun t s => t.swallow s.1 s.2) t := by
  induction strays generalizing t with
  | nil => simp [swallowAll]
  | cons s strays ih =>
    rw [List.foldl_cons, ← ih]
    cases t with
    | mk runs closingRuns styleRun problems =>
      cases styleRun with
      | some _ => simp [swallowAll, swallow, report, absorb]
      | none =>
        -- The stray itself may be the first field with a style run.
        simp [swallowAll, swallow, report, absorb, List.findSome?_cons]
        cases styleRun? s.2.inner <;> rfl

theorem swallowAll_concat (t : Tag) (strays : List (Keyword × Field)) (k : Keyword) (f : Field) :
    t.swallowAll (strays ++ [(k, f)]) = (t.swallowAll strays).swallow k f := by
  simp [swallowAll_eq_foldl]

end Tag

end DocTemplate
