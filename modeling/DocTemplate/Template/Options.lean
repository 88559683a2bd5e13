import DocTemplate.Dict
import DocTemplate.Problem
import DocTemplate.Text.Blank
import DocTemplate.Text.Measure

/-!
# Option lists

Image and diagram tags carry options as `key:"value"` pairs. A backslash inside a value takes the
next character as it is. No list is refused: what is malformed is reported, and a pair that the end
of the list cuts off still counts with what was read of it. Of two pairs with one key the later one
counts.
-/

namespace DocTemplate

/-- Options by key. -/
abbrev OptionMap := Dict String

/-! ## Reading a list -/

/-- Where a scan of an option list is. -/
inductive OptionPhase where
  | key
  /-- After a key's colon, before the opening quote. -/
  | beforeQuote
  | value
  /-- In a value, after a backslash. -/
  | escaped
  deriving DecidableEq, Repr

/-- A scan in progress. Collected characters are listed last first. -/
structure OptionScan where
  phase : OptionPhase := .key
  key : List Char := []
  value : List Char := []
  /-- Something other than a space was read since the last complete pair. -/
  pending : Bool := false
  /-- A stray character before the quote was reported for this key. -/
  reported : Bool := false
  found : OptionMap := {}
  /-- What is wrong, last first. -/
  causes : List Cause := []

namespace OptionScan

/-- The key read so far, without blanks at its ends. -/
def keyText (s : OptionScan) : List Char := Text.trim s.key.reverse

/-- A key is complete: it must not have a space inside. -/
def endKey (s : OptionScan) : OptionScan :=
  let key := s.keyText
  let causes := match Text.byteIndexOf? ' ' key with
    | some index => .blankInKey index (String.ofList key) :: s.causes
    | none => s.causes
  { s with phase := .beforeQuote, key := key.reverse, causes := causes }

/-- A value is complete, and the next pair begins. -/
def endValue (s : OptionScan) : OptionScan :=
  { found := s.found.insert (String.ofList s.key.reverse) (String.ofList s.value.reverse)
    causes := s.causes }

/-- One character. -/
def step (s : OptionScan) (c : Char) : OptionScan :=
  match s.phase with
  | .key =>
    if c = ':' then s.endKey
    else { s with key := c :: s.key, pending := s.pending || c ≠ ' ' }
  | .beforeQuote =>
    if c = '"' then { s with phase := .value }
    else if c ≠ ' ' && !s.reported then
      { s with reported := true
               causes := .strayBeforeQuote (String.ofList s.key.reverse) :: s.causes }
    else s
  | .value =>
    if c = '\\' then { s with phase := .escaped }
    else if c = '"' then s.endValue
    else { s with value := c :: s.value }
  | .escaped => { s with phase := .value, value := c :: s.value }

/-- The list has ended: a pair that is not complete is reported and kept. -/
def finish (s : OptionScan) : OptionMap × List Cause :=
  if s.pending || s.phase ≠ .key then
    let key := String.ofList s.keyText
    (s.found.insert key (String.ofList s.value.reverse),
      (.unfinishedOption key :: s.causes).reverse)
  else (s.found, s.causes.reverse)

end OptionScan

/-- The options of a list and what is wrong with it. -/
def readOptionList (list : List Char) : OptionMap × List Cause :=
  (list.foldl OptionScan.step {}).finish

/-- The options that follow a keyword in an instruction. An instruction that starts differently has
none. -/
def readOptions (keyword instruction : List Char) : OptionMap × List Cause :=
  match keyword.isPrefixOf? (Text.trim instruction) with
  | none => ({}, [])
  | some rest => readOptionList (Text.trim rest)

/-! ## Known options -/

namespace OptionName

def file : String := "file"
def height : String := "height"
def width : String := "width"
def legend : String := "legend"
def legendPosition : String := "legendPos"
def provider : String := "provider"

/-- The options of an image. -/
def ofImage : List String := [file, height, width, legend, legendPosition]

/-- The options of every diagram. -/
def ofDiagram : List String := ofImage ++ [provider]

/-- The options that a diagram handles itself; all others go to its provider. -/
def handledByDiagram : List String := [legend, legendPosition, height, width, provider]

end OptionName

/-- What is wrong with one option: its name is not among `known`, or it is a legend position other
than `above` and `below`. -/
def checkOption (known : List String) (key value : String) : Option Cause :=
  if !known.contains key then some (.unknownOption key)
  else if key = OptionName.legendPosition && value ≠ "above" && value ≠ "below" then
    some (.unknownOptionValue key value)
  else none

/-- What is wrong with the options, in key order. -/
def checkOptions (known : List String) (options : OptionMap) : List Cause :=
  options.entries.filterMap (fun e => checkOption known e.1 e.2)

end DocTemplate
