import DocTemplate.Numeral.Digits

/-!
# The range of double precision

Floating point numbers are not calculated with anywhere, but a numeral can be too large to be one.
Two questions are answered here in whole numbers: whether a number written in decimal is, rounded to
the nearest, beyond the finite doubles, and whether the product of a whole number and a power of ten
is, when both are rounded before they are multiplied.
-/

namespace DocTemplate.Double

/-- How many binary digits a double has. -/
def precision : Nat := 53

/-- The least number that is beyond the finite doubles: the middle between the greatest double and
the power of two after it, where the nearest even one is the latter. -/
def bound : Nat := Nat.pow 2 1024 - Nat.pow 2 970

/-- How many decimal digits the bound has. -/
def boundDigits : Nat := 309

/-- The nearest number with no more binary digits than a double has; a tie goes to the even
significand. -/
def round (n : Nat) : Nat :=
  let unit := Nat.pow 2 (n.log2 + 1 - precision)
  let low := n / unit
  let rest := n % unit
  if 2 * rest < unit || (2 * rest = unit && low % 2 = 0) then low * unit else (low + 1) * unit

/-- The double of `significand` times the double of ten to `exponent` is beyond the finite doubles.
A power of ten beyond them counts as beyond, and a division never leads there. -/
def isBeyondProduct (significand : Nat) (exponent : Int) : Bool :=
  match exponent with
  | .ofNat e => significand ≠ 0 &&
      (boundDigits ≤ e || bound ≤ round significand * round (Nat.pow 10 e))
  | .negSucc _ => false

/-- A number in decimal: its digits, and how many of them stand before the point. The point may lie
outside of the digits. -/
structure Decimal where
  digits : List Char
  point : Int

/-- The number is beyond the finite doubles when rounded to the nearest. Numbers with as many digits
before the point as the bound has are compared with it, and all others differ by their length. -/
def Decimal.isBeyond (d : Decimal) : Bool :=
  let digits := d.digits.dropWhile (· = '0')
  let point := d.point - (d.digits.length - digits.length : Nat)
  if digits.isEmpty || point < boundDigits then false
  else if (boundDigits : Int) < point then true
  else
    let leading := digits.take boundDigits
    bound ≤ Numeral.value 10 leading * Nat.pow 10 (boundDigits - leading.length)

end DocTemplate.Double
