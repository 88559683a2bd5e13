import DocTemplate.Dict

/-!
# JSON values

The values that documents are read from and that results are written as. A numeral of plain digits
that fits 64 bits is a natural number; every other numeral is kept as it is spelled. Two texts are
spelled correctly and still stand for no value: a string that names half of a surrogate pair, and a
numeral beyond the range of double precision numbers. Both are read as `void`, so that whoever needs
the value can refuse it and whoever skips it need not care.
-/

namespace DocTemplate

/-- A JSON value. Objects keep their members in the order given, repeated keys included. -/
inductive Json where
  | null
  | bool (b : Bool)
  /-- A numeral of plain digits. -/
  | nat (n : Nat)
  /-- Any other numeral, as spelled. -/
  | numeral (spelling : String)
  | string (s : String)
  | array (items : List Json)
  | object (members : List (String × Json))
  /-- Spelled correctly, and no value. -/
  | void
  deriving Inhabited

namespace Json

/-- An object whose members are listed by key; of two equal keys the later one counts. -/
def ofMembers (members : List (String × Json)) : Json :=
  .object (Dict.ofList members).entries

/-- A dictionary as an object. -/
def ofDict {α : Type} (value : α → Json) (d : Dict α) : Json :=
  .object (d.entries.map (fun e => (e.1, value e.2)))

/-- A value that may be missing; `null` stands for nothing. -/
def ofOption {α : Type} (value : α → Json) : Option α → Json
  | none => .null
  | some a => value a

/-- An array of converted items. -/
def ofList {α : Type} (value : α → Json) (items : List α) : Json :=
  .array (items.map value)

mutual

/-- The value holds no `void`, and its arrays and objects nest at most `depth` deep. -/
def fits (depth : Nat) : Json → Bool
  | .array items => match depth with
    | 0 => false
    | d + 1 => allFit d items
  | .object members => match depth with
    | 0 => false
    | d + 1 => membersFit d members
  | .void => false
  | .null | .bool _ | .nat _ | .numeral _ | .string _ => true

/-- Every item fits. -/
def allFit (depth : Nat) : List Json → Bool
  | [] => true
  | j :: js => fits depth j && allFit depth js

/-- Every member's value fits. -/
def membersFit (depth : Nat) : List (String × Json) → Bool
  | [] => true
  | m :: ms => memberFits depth m && membersFit depth ms

/-- The member's value fits. -/
def memberFits (depth : Nat) : String × Json → Bool
  | (_, j) => fits depth j

end

end Json

end DocTemplate
