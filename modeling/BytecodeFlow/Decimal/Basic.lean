/-!
# Decimal numbers and how they are written

A decimal is a whole number of digits scaled by a power of ten.  It is written positionally unless
it is very large or very small, and with an exponent otherwise.

* `Decimal` — sign, digits and exponent.
* `Layout` — the range of numbers that is written positionally.
* `Decimal.render` — the text of a decimal, always with a decimal point or an exponent.
-/

namespace BytecodeFlow

/-- The number `digits * 10 ^ exponent`, negated if `negative`. -/
structure Decimal where
  negative : Bool
  digits : Nat
  exponent : Int
deriving DecidableEq, Repr

namespace Decimal

/-- Where positional notation ends.  The decimal point of a number stands behind its first `p`
digits, where `p` may be negative or larger than the number of digits; the number is written
positionally if `lowest < p ≤ highest`. -/
structure Layout where
  lowest : Int
  highest : Int
deriving DecidableEq, Repr

/-- Numbers are positional from `0.00001` up to sixteen digits before the point. -/
def jsonLayout : Layout := ⟨-5, 16⟩

/-- Whether a layout writes a number with its decimal point at `point` positionally. -/
def Layout.isPositional (layout : Layout) (point : Int) : Bool :=
  decide (layout.lowest < point) && decide (point ≤ layout.highest)

/-- A text of zeros. -/
def zeros (count : Nat) : List Char :=
  List.replicate count '0'

/-- Digits with the decimal point behind the first `point` of them, filled up with zeros on
either side so that a digit stands before and after the point. -/
def positional (digits : List Char) (point : Int) : List Char :=
  if point ≤ 0 then '0' :: '.' :: zeros (-point).toNat ++ digits
  else if digits.length ≤ point.toNat then
    digits ++ zeros (point.toNat - digits.length) ++ ['.', '0']
  else digits.take point.toNat ++ '.' :: digits.drop point.toNat

/-- Digits in scientific notation, with the decimal point of the number at `point`.  The exponent
always has a sign. -/
def scientific (digits : List Char) (point : Int) : List Char :=
  let fraction := match digits.drop 1 with
    | [] => []
    | rest => '.' :: rest
  let sign := if point ≤ 0 then '-' else '+'
  digits.take 1 ++ fraction ++ 'e' :: sign :: Nat.toDigits 10 (point - 1).natAbs

/-- **The text of a decimal** in a given layout. -/
def render (layout : Layout) (d : Decimal) : String :=
  let digits := Nat.toDigits 10 d.digits
  let point := if d.digits = 0 then 1 else (digits.length : Int) + d.exponent
  let magnitude :=
    if layout.isPositional point then positional digits point else scientific digits point
  String.ofList (if d.negative then '-' :: magnitude else magnitude)

end Decimal

end BytecodeFlow
