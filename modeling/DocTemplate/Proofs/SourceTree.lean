import DocTemplate.Document.Draft
import DocTemplate.Parse.Header
import DocTemplate.Template.Survey

/-!
# Source trees

What an author has in mind when writing a template: texts, queries, repetitions, conditionals and
tables, without runs, marks or numbers. Rendering writes the tree down as a draft, one field for
each tag; the template of a tree is what parsing is expected to make of that. Of the tags nothing is
told in it but how many runs a text has.

## Main statements

- `Source.Item.problems_template`: the template of a tree has no problems
- `Source.Item.treeInduction`: induction on lists of items, through everything that holds items
-/

namespace DocTemplate

/-- What is written behind a query to tell how it is shown. -/
def Display.suffix : Display → String
  | .text => " text"
  | .label => " label"
  | .icon => " icon"

namespace Source

/-- A condition and what it guards. -/
structure Clause (α : Type) where
  condition : String
  body : List α

inductive Item where
  /-- One or more plain runs. -/
  | text (first : String) (more : List String)
  | query (source : String) (display : Display)
  | loop (iterator source : String) (body : List Item)
  | conditional (first : Clause Item) (links : List (Clause Item)) (otherwise : Option (List Item))
  | table (rows : List (List (List Item)))

namespace Item

def isText : Item → Bool
  | .text .. => true
  | _ => false

/-! ## Rendering -/

/-- A field, in a paragraph of its own. -/
def field (instruction : String) : Draft := .paragraph [.field [instruction]]

mutual

def render : Item → List Draft
  | .text first more => (first :: more).map fun s => .paragraph [.text s]
  | .query source display => [field ("m:" ++ source ++ display.suffix)]
  | .loop iterator source body =>
    field ("m:for " ++ iterator ++ " | " ++ source) :: (renderAll body ++ [field "m:endfor"])
  | .conditional ⟨condition, body⟩ links otherwise =>
    field ("m:if " ++ condition) ::
      (renderAll body ++ (renderLinks links ++ (renderElse otherwise ++ [field "m:endif"])))
  | .table rows => [.table (renderRows rows)]

def renderAll : List Item → List Draft
  | [] => []
  | i :: is => render i ++ renderAll is

def renderLinks : List (Clause Item) → List Draft
  | [] => []
  | ⟨condition, body⟩ :: cs =>
    field ("m:elseif " ++ condition) :: (renderAll body ++ renderLinks cs)

def renderElse : Option (List Item) → List Draft
  | none => []
  | some body => field "m:else" :: renderAll body

def renderRows : List (List (List Item)) → List (List (List Draft))
  | [] => []
  | r :: rs => renderCells r :: renderRows rs

def renderCells : List (List Item) → List (List Draft)
  | [] => []
  | c :: cs => renderAll c :: renderCells cs

end

/-! ## The expected template -/

mutual

def construct (s : Setting) : Item → Construct
  | .text _ more => .text { runs := List.replicate (more.length + 1) 0 }
  | .query source display => .query {} (some (s.compile source).expression) display
  | .loop iterator source body =>
    .loop {} (some iterator) (some (s.compile source).expression) (constructs s body)
  | .conditional first links otherwise =>
    .conditional (branch s first) (branches s links) (alternative s otherwise)
  | .table rows => .table 0 (rowTemplates s rows)

def constructs (s : Setting) : List Item → List Construct
  | [] => []
  | i :: is => construct s i :: constructs s is

def branch (s : Setting) : Clause Item → Branch Construct
  | ⟨condition, body⟩ => ⟨{}, some (s.compile condition).expression, constructs s body⟩

def branches (s : Setting) : List (Clause Item) → List (Branch Construct)
  | [] => []
  | c :: cs => branch s c :: branches s cs

def alternative (s : Setting) : Option (List Item) → Option (Section Construct)
  | none => none
  | some body => some ⟨{}, constructs s body⟩

def rowTemplates (s : Setting) : List (List (List Item)) → List (List Template)
  | [] => []
  | r :: rs => cellTemplates s r :: rowTemplates s rs

def cellTemplates (s : Setting) : List (List Item) → List Template
  | [] => []
  | c :: cs => ⟨{}, constructs s c⟩ :: cellTemplates s cs

end

/-- The template of a tree. -/
def template (s : Setting) (items : List Item) : Template := ⟨{}, constructs s items⟩

/-! ## The expected template has no problems -/

mutual

theorem problems_construct (s : Setting) : ∀ i : Item, (construct s i).problems = []
  | .text .. | .query .. => rfl
  | .loop _ _ body => by
    simp [construct, Construct.problems, problemsOfBody_constructs s body]
  | .conditional first links otherwise => by
    simp [construct, Construct.problems, problemsOfBranch_branch s first,
      problemsOfBranches_branches s links, problemsOfElse_alternative s otherwise]
  | .table rows => by
    simp [construct, Construct.problems, problemsOfRows_rowTemplates s rows]

theorem problemsOfBody_constructs (s : Setting) :
    ∀ is : List Item, Construct.problemsOfBody (constructs s is) = []
  | [] => rfl
  | i :: is => by
    simp [constructs, Construct.problemsOfBody, problems_construct s i,
      problemsOfBody_constructs s is]

theorem problemsOfBranch_branch (s : Setting) :
    ∀ c : Clause Item, Construct.problemsOfBranch (branch s c) = []
  | ⟨_, body⟩ => by simp [branch, Construct.problemsOfBranch, problemsOfBody_constructs s body]

theorem problemsOfBranches_branches (s : Setting) :
    ∀ cs : List (Clause Item), Construct.problemsOfBranches (branches s cs) = []
  | [] => rfl
  | c :: cs => by
    simp [branches, Construct.problemsOfBranches, problemsOfBranch_branch s c,
      problemsOfBranches_branches s cs]

theorem problemsOfElse_alternative (s : Setting) :
    ∀ o : Option (List Item), Construct.problemsOfElse (alternative s o) = []
  | none => rfl
  | some body => by
    simp [alternative, Construct.problemsOfElse, Construct.problemsOfSection,
      problemsOfBody_constructs s body]

theorem problemsOfRows_rowTemplates (s : Setting) :
    ∀ rows : List (List (List Item)), Construct.problemsOfRows (rowTemplates s rows) = []
  | [] => rfl
  | r :: rs => by
    simp [rowTemplates, Construct.problemsOfRows, problemsOfCells_cellTemplates s r,
      problemsOfRows_rowTemplates s rs]

theorem problemsOfCells_cellTemplates (s : Setting) :
    ∀ cells : List (List Item), Construct.problemsOfCells (cellTemplates s cells) = []
  | [] => rfl
  | c :: cs => by
    simp [cellTemplates, Construct.problemsOfCells, Construct.problemsOfSection,
      problemsOfBody_constructs s c, problemsOfCells_cellTemplates s cs]

end

theorem problems_template (s : Setting) (items : List Item) : (template s items).problems = [] := by
  simp [template, Template.problems, Construct.problemsOfSection, problemsOfBody_constructs]

/-! ## Sound trees -/

/-- The text has no blanks at its ends, and it compiles. -/
def Compiles (s : Setting) (source : String) : Prop :=
  Text.trimmed source = source ∧ (s.compile source).isValid = true

mutual

/-- What is written down can be read back: expressions compile and have no blanks at their ends, no
query looks like another tag, and no variable has a bar. -/
def Sound (s : Setting) : Item → Prop
  | .text .. => True
  | .query source _ =>
    Compiles s source ∧
      ∀ k : Keyword, k ≠ .query → ¬ k.spelling.toList <+: ("m:" ++ source).toList
  | .loop iterator source body =>
    Text.trimmed iterator = iterator ∧ iterator ≠ "" ∧ '|' ∉ iterator.toList ∧
      Compiles s source ∧ source ≠ "" ∧ SoundAll s body
  | .conditional first links otherwise =>
    SoundClause s first ∧ SoundLinks s links ∧ SoundElse s otherwise
  | .table rows => SoundRows s rows

/-- The same for a list, in which no two texts stand side by side. -/
def SoundAll (s : Setting) : List Item → Prop
  | [] => True
  | i :: is => Sound s i ∧ (i.isText = true → ∀ j ∈ is.head?, j.isText = false) ∧ SoundAll s is

def SoundClause (s : Setting) : Clause Item → Prop
  | ⟨condition, body⟩ => Compiles s condition ∧ SoundAll s body

def SoundLinks (s : Setting) : List (Clause Item) → Prop
  | [] => True
  | c :: cs => SoundClause s c ∧ SoundLinks s cs

def SoundElse (s : Setting) : Option (List Item) → Prop
  | none => True
  | some body => SoundAll s body

def SoundRows (s : Setting) : List (List (List Item)) → Prop
  | [] => True
  | r :: rs => SoundCells s r ∧ SoundRows s rs

def SoundCells (s : Setting) : List (List Item) → Prop
  | [] => True
  | c :: cs => SoundAll s c ∧ SoundCells s cs

end

/-! Whether a tree is sound can be computed. -/

instance (s : Setting) (source : String) : Decidable (Compiles s source) :=
  inferInstanceAs (Decidable (Text.trimmed source = source ∧ (s.compile source).isValid = true))

instance (p : Keyword → Prop) [DecidablePred p] : Decidable (∀ k, p k) :=
  decidable_of_iff (∀ k ∈ Keyword.order, p k)
    ⟨fun h k => h k (by cases k <;> decide), fun h k _ => h k⟩

mutual

def decidableSound (s : Setting) : (i : Item) → Decidable (Sound s i)
  | .text .. => .isTrue trivial
  | .query source _ =>
    inferInstanceAs (Decidable (Compiles s source ∧
      ∀ k : Keyword, k ≠ .query → ¬ k.spelling.toList <+: ("m:" ++ source).toList))
  | .loop iterator source body =>
    have := decidableSoundAll s body
    inferInstanceAs (Decidable (Text.trimmed iterator = iterator ∧ iterator ≠ "" ∧
      '|' ∉ iterator.toList ∧ Compiles s source ∧ source ≠ "" ∧ SoundAll s body))
  | .conditional first links otherwise =>
    have := decidableSoundClause s first
    have := decidableSoundLinks s links
    have := decidableSoundElse s otherwise
    inferInstanceAs (Decidable (SoundClause s first ∧ SoundLinks s links ∧ SoundElse s otherwise))
  | .table rows => decidableSoundRows s rows

def decidableSoundAll (s : Setting) : (is : List Item) → Decidable (SoundAll s is)
  | [] => .isTrue trivial
  | i :: is =>
    have := decidableSound s i
    have := decidableSoundAll s is
    inferInstanceAs (Decidable (Sound s i ∧ (i.isText = true → ∀ j ∈ is.head?, j.isText = false) ∧
      SoundAll s is))

def decidableSoundClause (s : Setting) : (c : Clause Item) → Decidable (SoundClause s c)
  | ⟨condition, body⟩ =>
    have := decidableSoundAll s body
    inferInstanceAs (Decidable (Compiles s condition ∧ SoundAll s body))

def decidableSoundLinks (s : Setting) : (cs : List (Clause Item)) → Decidable (SoundLinks s cs)
  | [] => .isTrue trivial
  | c :: cs =>
    have := decidableSoundClause s c
    have := decidableSoundLinks s cs
    inferInstanceAs (Decidable (SoundClause s c ∧ SoundLinks s cs))

def decidableSoundElse (s : Setting) : (o : Option (List Item)) → Decidable (SoundElse s o)
  | none => .isTrue trivial
  | some body => decidableSoundAll s body

def decidableSoundRows (s : Setting) :
    (rows : List (List (List Item))) → Decidable (SoundRows s rows)
  | [] => .isTrue trivial
  | r :: rs =>
    have := decidableSoundCells s r
    have := decidableSoundRows s rs
    inferInstanceAs (Decidable (SoundCells s r ∧ SoundRows s rs))

def decidableSoundCells (s : Setting) : (cs : List (List Item)) → Decidable (SoundCells s cs)
  | [] => .isTrue trivial
  | c :: cs =>
    have := decidableSoundAll s c
    have := decidableSoundCells s cs
    inferInstanceAs (Decidable (SoundAll s c ∧ SoundCells s cs))

end

instance (s : Setting) (items : List Item) : Decidable (SoundAll s items) :=
  decidableSoundAll s items

/-! ## Induction -/

theorem sizeOf_body_lt (c : Clause Item) : sizeOf c.body < sizeOf c := by
  cases c
  simp only [Clause.mk.sizeOf_spec]
  omega

/-- Induction on lists of items, through the bodies, the branches and the cells. -/
@[elab_as_elim]
theorem treeInduction {P : List Item → Prop} (nil : P [])
    (text : ∀ first more is, P is → P (.text first more :: is))
    (query : ∀ source display is, P is → P (.query source display :: is))
    (loop : ∀ iterator source body is, P body → P is → P (.loop iterator source body :: is))
    (conditional : ∀ first links otherwise is, P first.body → (∀ c ∈ links, P c.body) →
      (∀ body ∈ otherwise, P body) → P is → P (.conditional first links otherwise :: is))
    (table : ∀ rows is, (∀ r ∈ rows, ∀ c ∈ r, P c) → P is → P (.table rows :: is))
    (items : List Item) : P items := by
  -- Everything that an item holds is smaller than a list that begins with the item.
  have smaller : ∀ is : List Item, sizeOf is < sizeOf items → P is := fun is _ =>
    treeInduction nil text query loop conditional table is
  cases items with
  | nil => exact nil
  | cons i is =>
    have hrest : P is := smaller is (by simp only [List.cons.sizeOf_spec]; omega)
    cases i with
    | text first more => exact text first more is hrest
    | query source display => exact query source display is hrest
    | loop iterator source body =>
      refine loop iterator source body is (smaller body ?_) hrest
      simp only [List.cons.sizeOf_spec, Item.loop.sizeOf_spec]
      omega
    | conditional first links otherwise =>
      have hsize : sizeOf first + sizeOf links + sizeOf otherwise <
          sizeOf (Item.conditional first links otherwise :: is) := by
        simp only [List.cons.sizeOf_spec, Item.conditional.sizeOf_spec]
        omega
      refine conditional first links otherwise is (smaller _ ?_) (fun c hc => smaller _ ?_)
        (fun body hbody => smaller body ?_) hrest
      · have := sizeOf_body_lt first
        omega
      · have := sizeOf_body_lt c
        have := List.sizeOf_lt_of_mem hc
        omega
      · have hsome : sizeOf otherwise = 1 + sizeOf body := by
          rw [Option.mem_def.mp hbody, Option.some.sizeOf_spec]
        omega
    | table rows =>
      refine table rows is (fun r hr c hc => smaller c ?_) hrest
      have := List.sizeOf_lt_of_mem hr
      have := List.sizeOf_lt_of_mem hc
      simp only [List.cons.sizeOf_spec, Item.table.sizeOf_spec]
      omega
termination_by sizeOf items

end Item

end Source

end DocTemplate
