/-!
# Digits

Reading whole numbers from the texts of options, settings and documents. A text may have far more
digits than any number that is asked for, so a number is read only up to a cap: whoever asks for a
number below a bound learns all there is to know from the smaller of the two.

## Main statements

- `capped_eq_min`: what is read is the number or the cap, whichever is smaller
-/

namespace DocTemplate.Numeral

/-- The value of a hexadecimal digit, in either case; the decimal digits are among them. -/
def hexValue? (c : Char) : Option Nat :=
  if c.isDigit then some (c.toNat - '0'.toNat)
  else if 'a' ≤ c && c ≤ 'f' then some (c.toNat - 'a'.toNat + 10)
  else if 'A' ≤ c && c ≤ 'F' then some (c.toNat - 'A'.toNat + 10)
  else none

/-- The value of a character as a digit; what is no digit counts for nothing. -/
def digitValue (c : Char) : Nat := (hexValue? c).getD 0

/-- The number that digits of a base stand for. -/
def value (base : Nat) (ds : List Char) : Nat :=
  ds.foldl (fun n c => base * n + digitValue c) 0

/-- The number that digits of a base stand for, or `cap` where that is smaller. -/
def capped (base cap : Nat) (ds : List Char) : Nat :=
  ds.foldl (fun n c => min cap (base * n + digitValue c)) 0

/-- Capping early is capping at the end, since a number only grows with its digits. -/
theorem foldl_capped {base : Nat} (hb : 0 < base) (cap : Nat) (ds : List Char) (n : Nat) :
    ds.foldl (fun n c => min cap (base * n + digitValue c)) (min cap n) =
      min cap (ds.foldl (fun n c => base * n + digitValue c) n) := by
  induction ds generalizing n with
  | nil => rfl
  | cons c ds ih =>
    rw [List.foldl_cons, List.foldl_cons, ← ih]
    congr 1
    have grows : ∀ k, k ≤ base * k := fun k => Nat.le_mul_of_pos_left k hb
    rcases Nat.le_total cap n with h | h
    · have := grows cap
      have := grows n
      rw [Nat.min_eq_left h]
      omega
    · rw [Nat.min_eq_right h]

/-- What is read is the number or the cap, whichever is smaller. -/
theorem capped_eq_min {base : Nat} (hb : 0 < base) (cap : Nat) (ds : List Char) :
    capped base cap ds = min cap (value base ds) := by
  have := foldl_capped hb cap ds 0
  rwa [Nat.min_zero] at this

/-- An unsigned decimal numeral below `bound`: an optional plus sign and one or more ASCII digits,
with leading zeros allowed. -/
def unsignedBelow? (bound : Nat) (cs : List Char) : Option Nat :=
  let ds := match cs with
    | '+' :: ds => ds
    | ds => ds
  if ds.isEmpty || !ds.all Char.isDigit then none
  else some (capped 10 bound ds) |>.filter (· < bound)

end DocTemplate.Numeral
