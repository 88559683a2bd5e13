/-!
# Lengths in bytes

Indices and length limits are counted in bytes of the UTF-8 form, while texts are cut between whole
characters only.
-/

namespace DocTemplate.Text

/-- Bytes a text takes in UTF-8. -/
def byteLength (cs : List Char) : Nat := (cs.map Char.utf8Size).foldr (· + ·) 0

theorem byteLength_nil : byteLength [] = 0 := rfl

theorem byteLength_cons (c : Char) (cs : List Char) :
    byteLength (c :: cs) = c.utf8Size + byteLength cs := rfl

theorem byteLength_append (cs ds : List Char) :
    byteLength (cs ++ ds) = byteLength cs + byteLength ds := by
  induction cs with
  | nil => exact (Nat.zero_add _).symm
  | cons c cs ih => rw [List.cons_append, byteLength_cons, byteLength_cons, ih, Nat.add_assoc]

/-- Byte offset of the first occurrence of `c`. -/
def byteIndexOf? (c : Char) (cs : List Char) : Option Nat := go 0 cs
where
  /-- The same for the rest of a text, `passed` bytes of which lie behind. -/
  go (passed : Nat) : List Char → Option Nat
    | [] => none
    | d :: ds => if d = c then some passed else go (passed + d.utf8Size) ds

/-- The last place between whole characters that lies at most `n` bytes from the start. It is looked
for from there back, byte by byte. -/
def lastPos (s : String) : Nat → s.Pos
  | 0 => s.startPos
  | n + 1 =>
    if h : (⟨n + 1⟩ : String.Pos.Raw).IsValid s then s.pos ⟨n + 1⟩ h else lastPos s n

/-- A text that takes at most `n` bytes is kept; a longer one keeps the whole characters that fit,
and three dots say that something is missing. -/
def clip (n : Nat) (s : String) : String :=
  if s.utf8ByteSize ≤ n then s else (s.sliceTo (lastPos s n)).copy ++ "..."

end DocTemplate.Text
