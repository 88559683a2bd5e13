/-!
# Limits

The fixed limits of a build, and where they were taken from. Nothing at run time can raise them; a
caller may only ask for a smaller nesting limit.
-/

namespace DocTemplate.Limits

/-- Largest document file accepted, in bytes. -/
def documentBytes : Nat := 52428800

/-- Most runs a document may have, table cells included. -/
def documentRuns : Nat := 1000000

/-- How deep bodies may nest inside one another. -/
def nestingDepth : Nat := 128

/-- Events an in-memory journal keeps unless it is told otherwise. -/
def journalEvents : Nat := 1000

/-- Bytes of a log message that are kept. -/
def messageBytes : Nat := 2048

/-- Name of the build profile the limits belong to. -/
def profile : String := "development"

/-- Directory that holds the build profiles. -/
def profileDirectory : String := "config"

/-- One line saying which file the limits were generated from. -/
def sourceLine : String := "Generated from " ++ profileDirectory ++ "/" ++ profile ++ ".toml"

end DocTemplate.Limits
