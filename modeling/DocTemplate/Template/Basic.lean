import DocTemplate.Dict
import DocTemplate.Expression.Basic
import DocTemplate.Template.Tag

/-!
# Templates

The tree that a document body is parsed into. A template is a section: a tag and a list of
constructs. Constructs nest through the bodies of repetitions, the branches of conditionals and the
cells of tables, each of which is a template of its own.
-/

namespace DocTemplate

/-- How the value of a query is shown. -/
inductive Display where
  | text
  | label
  | icon
  deriving DecidableEq, Repr, Inhabited

/-- Where a legend stands. -/
inductive LegendPosition where
  | above
  | below
  deriving DecidableEq, Repr, Inhabited

/-- What images and diagrams have in common. -/
structure ImageOptions where
  fileName : Option String := none
  legend : Option String := none
  legendPosition : LegendPosition := .below
  height : Option UInt32 := none
  width : Option UInt32 := none
  deriving DecidableEq, Repr, Inhabited

/-- The value of an option that is handed to a provider. -/
inductive OptionValue where
  | text (s : String)
  /-- Nothing when the expression is invalid. -/
  | expression (e : Option Expression)
  deriving DecidableEq, Repr, Inhabited

/-- A tag with a body: a whole template, a table cell, or what follows `m:else`. -/
structure Section (α : Type) where
  tag : Tag := {}
  body : List α := []
  deriving Inhabited

/-- A condition with the body that it guards. -/
structure Branch (α : Type) where
  tag : Tag := {}
  /-- Nothing when the expression is invalid. -/
  condition : Option Expression := none
  body : List α := []
  deriving Inhabited

/-- The parts that templates are made of. -/
inductive Construct where
  /-- Runs that are kept as they are. -/
  | text (tag : Tag)
  | query (tag : Tag) (expression : Option Expression) (display : Display)
  | image (tag : Tag) (options : ImageOptions)
  /-- A picture drawn by a provider; nothing is known of it when the provider is not found. -/
  | diagram (tag : Tag) (options : ImageOptions) (provider : Option String)
      (extras : Dict OptionValue)
  /-- A body that is repeated with `iterator` bound to each value of `source`. -/
  | loop (tag : Tag) (iterator : Option String) (source : Option Expression)
      (body : List Construct)
  /-- Guarded bodies, of which the first one whose condition holds is taken: `m:if`, each
  `m:elseif`, and what `m:else` offers if none holds. -/
  | conditional (first : Branch Construct) (links : List (Branch Construct))
      (otherwise : Option (Section Construct))
  /-- A table whose cells are templates. -/
  | table (id : TableId) (rows : List (List (Section Construct)))
  deriving Inhabited

/-- The template of a body. -/
abbrev Template := Section Construct

end DocTemplate
