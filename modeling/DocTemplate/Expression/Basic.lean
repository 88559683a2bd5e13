/-!
# Expressions

Templates hold expressions of a query language that this library does not evaluate. A compiler for
that language is a parameter: it turns a text into an expression and says what is wrong with it.
-/

namespace DocTemplate

/-- An expression that a compiler has accepted or produced. -/
structure Expression where
  source : String
  deriving DecidableEq, Repr, Inhabited

/-- What a compiler makes of a text. -/
structure Compilation where
  expression : Expression
  /-- What is wrong with it; a valid expression has none. -/
  errors : List String
  deriving DecidableEq, Repr, Inhabited

/-- Nothing is wrong. -/
def Compilation.isValid (c : Compilation) : Bool := c.errors.isEmpty

/-- The expression, if nothing is wrong with it. -/
def Compilation.valid? (c : Compilation) : Option Expression :=
  if c.isValid then some c.expression else none

/-- A compiler for the expressions of a template. -/
abbrev Compiler := String → Compilation

/-- The compiler that takes every text as it stands and always reports the same errors. -/
def Compiler.fixed (errors : List String) : Compiler := fun text => ⟨⟨text⟩, errors⟩

end DocTemplate
