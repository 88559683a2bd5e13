import DocTemplate.Processing

/-!
# Summaries

What a reader is shown of a processed document: its problems with their places, up to a limit, then
how many constructs of which kind there are, and whether all is well.
-/

namespace DocTemplate

/-- A problem, its place, and an empty line. -/
def Problem.summary (path : String) (p : Problem) : List String :=
  let place := match p.run with
    | some id => runLabel id
    | none => "end of body"
  ["warning[" ++ p.code ++ "]: " ++ p.message, "  --> " ++ path ++ ", " ++ place, ""]

/-- A name in a column, and a count. -/
def countLine (name : String) (count : Nat) : String :=
  "  " ++ name ++ "".pushn ' ' (15 - name.length) ++ " " ++ toString count

/-- The lines on the problems of a document; a limit of zero is none. -/
def summaryOfProblems (path : String) (limit : Nat) (problems : List Problem) : List String :=
  let limit := if limit = 0 then problems.length else limit
  (problems.take limit).flatMap (Problem.summary path) ++
    if limit < problems.length then
      ["... and " ++ toString (problems.length - limit) ++ " more", ""]
    else []

namespace Stats

/-- The lines that count constructs and cells. -/
def summary (s : Stats) : List String :=
  s.constructs.entries.map (fun (kind, count) => countLine kind count) ++
    if 0 < s.tableCells then [countLine "table cells" s.tableCells] else []

end Stats

namespace Report

/-- The lines on a processed document. -/
def summary (path : String) (limit : Nat) (elapsed : Elapsed) (r : Report) : List String :=
  summaryOfProblems path limit r.template.problems ++
    ["Parsed " ++ toString r.stats.total ++ " constructs from " ++ toString r.runs ++ " runs in " ++
      elapsed.rounded ++ " ms"] ++
    r.stats.summary ++
    ["", if r.isValid then "SUCCESS: Template is valid"
      else "Template has " ++ toString r.stats.problems ++ " diagnostic(s)"]

end Report

end DocTemplate
