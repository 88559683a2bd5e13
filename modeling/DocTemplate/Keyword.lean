import DocTemplate.Text.Blank

/-!
# Keywords and kinds of tokens

A field is a template tag when its instruction starts with a keyword of the `m:` namespace. The
keywords overlap (`m:` starts every one of them, `m:else` starts `m:elseif`), so they are tried in a
fixed order and the first one that fits decides.

## Main statements

- `Keyword.match?_take`: the first few characters of an instruction decide
- `Keyword.match?_trimRight`: blanks at its end do not matter
-/

namespace DocTemplate

/-- The tags of the template language. -/
inductive Keyword where
  /-- Opens a repetition. -/
  | forEach
  | endFor
  /-- Opens a conditional. -/
  | ifThen
  | elseIf
  | otherwise
  | endIf
  /-- Reserved; refused wherever it stands. -/
  | element
  /-- Reserved; refused wherever it stands. -/
  | binding
  /-- Reserved; closes nothing. -/
  | endBinding
  | image
  | diagram
  /-- Any other tag of the namespace: an expression whose value is inserted. -/
  | query
  deriving DecidableEq, Repr, Inhabited

namespace Keyword

/-- How the tag starts. -/
def spelling : Keyword → String
  | forEach => "m:for"
  | endFor => "m:endfor"
  | ifThen => "m:if"
  | elseIf => "m:elseif"
  | otherwise => "m:else"
  | endIf => "m:endif"
  | element => "m:elt"
  | binding => "m:let"
  | endBinding => "m:endlet"
  | image => "m:image"
  | diagram => "m:diagram"
  | query => "m:"

/-- The name in capitals. -/
def title : Keyword → String
  | forEach => "FOR"
  | endFor => "ENDFOR"
  | ifThen => "IF"
  | elseIf => "ELSEIF"
  | otherwise => "ELSE"
  | endIf => "ENDIF"
  | element => "ELT"
  | binding => "LET"
  | endBinding => "ENDLET"
  | image => "IMAGE"
  | diagram => "DIAGRAM"
  | query => "AQL"

/-- Tags that make sense only as the end of something that was opened before. -/
def isTerminator : Keyword → Bool
  | elseIf | otherwise | endFor | endIf | endBinding => true
  | _ => false

/-- All keywords, in the order in which they are tried: `m:elseif` before `m:else`, and the bare
namespace last. -/
def order : List Keyword :=
  [forEach, endFor, ifThen, elseIf, otherwise, endIf, element, binding, endBinding, image, diagram,
    query]

/-- The first keyword that the instruction starts with. -/
def match? (instruction : List Char) : Option Keyword :=
  order.find? (fun k => k.spelling.toList.isPrefixOf instruction)

/-- The instruction after the keyword; the whole instruction if it starts differently. -/
def strip (k : Keyword) (instruction : List Char) : List Char :=
  (k.spelling.toList.isPrefixOf? instruction).getD instruction

/-- No keyword has more characters. -/
def maxLength : Nat := 9

theorem length_spelling_le (k : Keyword) : k.spelling.toList.length ≤ maxLength := by
  cases k <;> decide

theorem all_spelling_not_isBlank (k : Keyword) :
    k.spelling.toList.all (!Text.isBlank ·) = true := by
  cases k <;> decide

/-- The first few characters of an instruction decide which keyword it starts with. -/
theorem match?_take (cs : List Char) : match? (cs.take maxLength) = match? cs := by
  unfold match?
  congr 1
  funext k
  rw [Bool.eq_iff_iff, List.isPrefixOf_iff_prefix, List.isPrefixOf_iff_prefix, List.prefix_take_iff]
  exact and_iff_left k.length_spelling_le

/-- Blanks at the end of an instruction do not matter for its keyword. -/
theorem match?_trimRight (cs : List Char) : match? (Text.trimRight cs) = match? cs := by
  unfold match?
  congr 1
  funext k
  rw [Bool.eq_iff_iff, List.isPrefixOf_iff_prefix, List.isPrefixOf_iff_prefix]
  exact Text.prefix_trimRight_iff k.all_spelling_not_isBlank cs

end Keyword

/-- What stands at a place of a body, from the point of view of the template. -/
inductive TokenKind where
  /-- A run that belongs to no tag. -/
  | text
  | table
  | tag (keyword : Keyword)
  | endOfBody
  deriving DecidableEq, Repr, Inhabited

namespace TokenKind

/-- The name in capitals. -/
def title : TokenKind → String
  | text => "STATIC"
  | table => "TABLE"
  | tag k => k.title
  | endOfBody => "EOF"

/-- How a tag starts; other kinds have no spelling. -/
def spelling? : TokenKind → Option String
  | tag k => some k.spelling
  | _ => none

/-- How messages name the kind. -/
def display (k : TokenKind) : String := k.spelling?.getD k.title

/-- Whether it is a tag that can only end something. -/
def isTerminator : TokenKind → Bool
  | tag k => k.isTerminator
  | _ => false

/-- Every kind. -/
def all : List TokenKind := [text, table, endOfBody] ++ Keyword.order.map tag

theorem mem_all (k : TokenKind) : k ∈ all := by
  cases k with
  | tag k => cases k <;> decide
  | _ => decide

end TokenKind

end DocTemplate
