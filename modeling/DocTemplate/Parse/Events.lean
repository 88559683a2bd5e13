import DocTemplate.Log.Event
import DocTemplate.Parse.Reading
import DocTemplate.Template.Survey

/-!
# The events of a parse

A parse tells how it starts, which stray tags it passes over, and how it ends: with a warning for
each problem of the template and a word of success, or with the error that ended it.
-/

namespace DocTemplate

/-- A stray tag was passed over. -/
def Stray.event (s : Stray) : Event :=
  (Event.debug "Skipped stray tag").addingAll
    [("tag", s.keyword.spelling), ("depth", toString s.depth)]

/-- A template has a problem. -/
def Problem.event (p : Problem) : Event := (Event.warning p.code p.message).atRun p.run

/-- A parse ended early. -/
def ParseError.event (e : ParseError) : Event :=
  ((Event.error e.code "Template parse failed").atRun e.run?).adding "error" e.message

/-- A template was parsed. -/
def Template.event (t : Template) : Event :=
  (Event.success "I040" "Template parsed").addingAll
    [("constructs", toString t.body.length), ("errors", toString t.problems.length)]

/-- A body is about to be parsed. -/
def Body.startEvent (b : Body) (providers : Registry) : Event :=
  (Event.debug "Starting template parse").addingAll
    [("runs", toString b.runCount), ("providers", toString providers.size)]

/-- How a parse ended. -/
def Parsed.lastEvents (p : Parsed Template) : List Event :=
  match p.result with
  | .ok t => t.problems.map Problem.event ++ [t.event]
  | .error e => [e.event]

/-- Parse a body and tell about it. -/
def Body.parseLogged (s : Setting) (b : Body) : Logged (Except ParseError Template) :=
  let parsed := b.parse s
  ⟨parsed.result,
    b.startEvent s.providers :: (parsed.strays.map Stray.event ++ parsed.lastEvents)⟩

end DocTemplate
