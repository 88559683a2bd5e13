import DocTemplate.Dict

/-!
# Providers

A diagram tag names a provider by its qualified name. The registry resolves the name; the provider
says whether it can draw diagrams and which further options it takes.
-/

namespace DocTemplate

/-- How the value of a provider's option is understood. -/
inductive OptionType where
  /-- Compiled as an expression. -/
  | expression
  /-- Kept as it is. -/
  | text
  deriving DecidableEq, Repr, Inhabited

/-- A provider, described by data. -/
structure Provider where
  name : String
  /-- It can draw diagrams. -/
  diagram : Bool := true
  /-- The options it takes beside those of every diagram. -/
  options : Dict OptionType := {}

/-- The providers that tags can refer to, by qualified name. -/
structure Registry where
  byName : Dict Provider := {}

namespace Registry

/-- No provider at all. -/
def empty : Registry := {}

/-- Add a provider, which replaces one of the same name. -/
def register (r : Registry) (p : Provider) : Registry := ⟨r.byName.insert p.name p⟩

/-- Add providers one after another. -/
def ofList (ps : List Provider) : Registry := ps.foldl register empty

/-- The provider of a name. -/
def lookup? (r : Registry) (name : String) : Option Provider := r.byName.get? name

/-- How many providers there are. -/
def size (r : Registry) : Nat := r.byName.size

/-- There is no provider. -/
def isEmpty (r : Registry) : Bool := r.byName.isEmpty

/-- The names, in order. -/
def names (r : Registry) : List String := r.byName.keys

end Registry

end DocTemplate
