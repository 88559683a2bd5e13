import DocTemplate.Numeral.Digits
import DocTemplate.Provider
import DocTemplate.Template.Basic
import DocTemplate.Template.Options

/-!
# What a single field says

Each tag is understood from its own field: the expression of a query, the variable and source of a
repetition, the condition of a branch, the options of an image or a diagram. What a header lacks is
reported at its tag and never keeps the tag from opening a body.
-/

namespace DocTemplate

/-- What a parse depends on beside the body: how expressions are compiled, which providers there
are, and how deep bodies may nest. -/
structure Setting where
  compile : Compiler
  providers : Registry := {}
  limit : Nat := 128

namespace Setting

/-- Compile a text for a tag. An invalid expression is no expression, and is reported at
`anchor`. -/
def compileFor (s : Setting) (tag : Tag) (anchor : Option RunId) (source : String) :
    Option Expression × Tag :=
  let c := s.compile source
  if c.isValid then (some c.expression, tag)
  else (none, tag.report (.invalidExpression source c.errors) anchor)

end Setting

/-! ## Queries -/

/-- Cut off the word that says how a query is shown. -/
def splitDisplay (cs : List Char) : List Char × Display :=
  match " label".toList.isSuffixOf? cs with
  | some source => (source, .label)
  | none => match " icon".toList.isSuffixOf? cs with
    | some source => (source, .icon)
    | none => match " text".toList.isSuffixOf? cs with
      | some source => (source, .text)
      | none => (cs, .text)

/-- A query: `m:` and an expression. -/
def readQuery (s : Setting) (f : Field) : Construct :=
  let tag := Tag.ofField f
  let (source, display) := splitDisplay (Keyword.query.strip f.instruction)
  let (expression, tag) :=
    s.compileFor tag (tag.styleRun <|> tag.anchor?) (String.ofList (Text.trim source))
  .query tag expression display

/-! ## Repetitions and conditions -/

/-- The text before and after the first bar. -/
def splitBar? (cs : List Char) : Option (List Char × List Char) :=
  match cs.dropWhile (· ≠ '|') with
  | [] => none
  | _ :: after => some (cs.takeWhile (· ≠ '|'), after)

/-- What the opening field of a repetition says. -/
structure LoopHeader where
  tag : Tag
  iterator : Option String := none
  source : Option Expression := none

/-- The header of a repetition: `m:for`, a variable, a bar and an expression. -/
def readLoop (s : Setting) (f : Field) : LoopHeader :=
  let tag := Tag.ofField f
  let anchor := tag.anchor?
  match splitBar? (Keyword.forEach.strip f.instruction) with
  | none => { tag := tag.report .loopWithoutSeparator anchor }
  | some (before, after) =>
    let name := Text.trim before
    let source := Text.trim after
    let (iterator, tag) :=
      if name.isEmpty then (none, tag.report .loopWithoutVariable anchor)
      else (some (String.ofList name), tag)
    let (source, tag) :=
      if source.isEmpty then (none, tag.report .loopWithoutSource anchor)
      else s.compileFor tag anchor (String.ofList source)
    ⟨tag, iterator, source⟩

/-- The header of a branch: `m:if` or `m:elseif` and an expression. -/
def readCondition (s : Setting) (f : Field) : Option Expression × Tag :=
  let tag := Tag.ofField f
  let keyword : Keyword :=
    if Keyword.ifThen.spelling.toList.isPrefixOf f.instruction then .ifThen else .elseIf
  s.compileFor tag tag.anchor? (String.ofList (Text.trim (keyword.strip f.instruction)))

/-! ## Images and diagrams -/

/-- Take over one option: legend, legend position, height or width. -/
def applyImageOption (key value : String) (target : ImageOptions) : ImageOptions × Option Cause :=
  let size? := (Numeral.unsignedBelow? UInt32.size value.toList).map UInt32.ofNat
  if key = OptionName.legend then ({ target with legend := some value }, none)
  else if key = OptionName.legendPosition then
    ({ target with legendPosition := if value = "above" then .above else .below }, none)
  else if key = OptionName.height then
    match size? with
    | some n => ({ target with height := some n }, none)
    | none => (target, some (.notAnInteger key value))
  else if key = OptionName.width then
    match size? with
    | some n => ({ target with width := some n }, none)
    | none => (target, some (.notAnInteger key value))
  else (target, none)

/-- Take over all options, in key order; a size that is no number is left out and reported. -/
def applyImageOptions (options : OptionMap) (target : ImageOptions) : ImageOptions × List Cause :=
  let (target, causes) := options.entries.foldl
    (fun (target, causes) e =>
      let (target, cause?) := applyImageOption e.1 e.2 target
      (target, causes ++ cause?.toList))
    (target, [])
  (target, causes)

/-- An image: `m:image` and its options. Without a file the image has no other option either. -/
def readImage (s : Field) : Construct :=
  let (options, causes) := readOptions Keyword.image.spelling.toList s.instruction
  let tag := ((Tag.ofField s).reportAll causes).reportAll (checkOptions OptionName.ofImage options)
  match options.get? OptionName.file with
  | none => .image (tag.reportAll [.imageWithoutFile]) {}
  | some file =>
    let (target, causes) := applyImageOptions options { fileName := some file }
    .image (tag.reportAll causes) target

/-- The provider that a diagram's options name, or what is wrong with the name. -/
def resolveProvider (providers : Registry) (options : OptionMap) : Except Cause Provider :=
  match options.get? OptionName.provider with
  | none => .error .diagramWithoutProvider
  | some name => match providers.lookup? name with
    | none => .error (.unknownProvider name)
    | some p => if p.diagram then .ok p else .error (.notADiagramProvider name)

/-- Take over the options for the provider, in key order: those that it declares as expressions are
compiled, all others are kept as they are. -/
def readExtras (s : Setting) (p : Provider) (tag : Tag) (options : OptionMap) :
    Dict OptionValue × Tag :=
  (options.entries.filter (fun e => !OptionName.handledByDiagram.contains e.1)).foldl
    (fun (extras, tag) (key, value) =>
      match p.options.get? key with
      | some .expression =>
        let (expression, tag) := s.compileFor tag tag.anchor? value
        (extras.insert key (.expression expression), tag)
      | some .text | none => (extras.insert key (.text value), tag))
    (Dict.empty, tag)

/-- A diagram: `m:diagram` and its options. Unless a provider that can draw is found, nothing but
that is reported and nothing is taken over. -/
def readDiagram (s : Setting) (f : Field) : Construct :=
  let (options, causes) := readOptions Keyword.diagram.spelling.toList f.instruction
  let tag := (Tag.ofField f).reportAll causes
  match resolveProvider s.providers options with
  | .error cause => .diagram (tag.reportAll [cause]) {} none {}
  | .ok p =>
    let tag := tag.reportAll (checkOptions (OptionName.ofDiagram ++ p.options.keys) options)
    let (target, causes) := applyImageOptions options {}
    let (extras, tag) := readExtras s p (tag.reportAll causes) options
    .diagram tag target (some p.name) extras

end DocTemplate
