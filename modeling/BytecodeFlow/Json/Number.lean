import BytecodeFlow.Json.Basic

/-!
# Numbers of a JSON text

A number without fraction and exponent is whole if it fits a 64-bit word, signed if it is
negative and unsigned otherwise.  Every other number is a floating-point number, and so is the
negative zero.

* `Numeral` — a number as it is written, in parts.
* `Numeral.scaled` — its digits as far as they fit a word, and the power of ten they count for.
* `scale?` — that value in floating-point arithmetic: the digits are rounded to a floating-point
  number, which is multiplied or divided by the power of ten and rounded again.  So the result is
  near the number that is written, and not always the nearest.
* `Json.ofNumeral?` — the value that a number writes.
-/

namespace BytecodeFlow.Json

/-- A number as it is written. -/
structure Numeral where
  negative : Bool
  /-- The digits before the point. -/
  whole : List Nat
  /-- The digits behind the point, if there is one. -/
  fraction : Option (List Nat)
  /-- The exponent of ten, if there is one. -/
  exponent : Option Int
deriving DecidableEq, Repr

namespace Numeral

/-! ## The parts of a numeral -/

/-- The digits that a text starts with, and the rest of it. -/
def takeDigits (text : List Char) : List Nat × List Char :=
  let (digits, rest) := text.span Char.isDigit
  (digits.map fun c => c.toNat - '0'.toNat, rest)

/-- One digit or more at the start of a text, and the rest of it. -/
def someDigits? (text : List Char) : Option (List Nat × List Char) :=
  match takeDigits text with
  | ([], _) => none
  | result => some result

/-- The number that digits write. -/
def value (digits : List Nat) : Nat :=
  digits.foldl (fun value digit => value * 10 + digit) 0

/-- The sign that a text starts with, and the rest of it. -/
def takeSign (text : List Char) : Bool × List Char :=
  match text with
  | '-' :: rest => (true, rest)
  | _ => (false, text)

/-- The fraction that a text starts with, and the rest of it; a point needs a digit behind it. -/
def fraction? (text : List Char) : Option (Option (List Nat) × List Char) :=
  match text with
  | '.' :: rest => (someDigits? rest).map fun (digits, rest) => (some digits, rest)
  | _ => some (none, text)

/-- The exponent that a text starts with, and the rest of it; the sign may be left out. -/
def exponent? (text : List Char) : Option (Option Int × List Char) :=
  match text with
  | c :: rest =>
    if c = 'e' ∨ c = 'E' then
      let (negative, rest) := match rest with
        | '+' :: rest => (false, rest)
        | rest => takeSign rest
      (someDigits? rest).map fun (digits, rest) =>
        (some (if negative then -(value digits : Int) else value digits), rest)
    else some (none, text)
  | [] => some (none, [])

/-- **The parts of a number.**  A zero in front has no digit behind it. -/
def parse? (text : List Char) : Option Numeral := do
  let (negative, text) := takeSign text
  let (whole, text) ← someDigits? text
  if whole.head? = some 0 ∧ whole.length ≠ 1 then none
  let (fraction, text) ← fraction? text
  let (exponent, text) ← exponent? text
  if text.isEmpty then return ⟨negative, whole, fraction, exponent⟩ else none

/-! ## The value of a numeral -/

/-- A number with further digits behind it, as long as it fits a 64-bit word, and the digits that
are left. -/
def absorb (word : Nat) : List Nat → Nat × List Nat
  | [] => (word, [])
  | digit :: rest =>
    if word * 10 + digit < Text.wordBound then absorb (word * 10 + digit) rest
    else (word, digit :: rest)

/-- **The digits as far as they fit a word, and the power of ten they count for.**  Digits before
the point that do not fit raise the power, and digits behind it that fit lower it. -/
def scaled (n : Numeral) : Nat × Int :=
  let digits := n.fraction.getD []
  let (word, left) := absorb 0 n.whole
  let (word, unused) := absorb word digits
  (word, (left.length : Int) - ((digits.length : Int) - unused.length) + n.exponent.getD 0)

/-- The largest power of ten that is a finite floating-point number. -/
def greatestPower : Nat := 308

/-- A power of ten as a floating-point number. -/
def power (exponent : Nat) : Float :=
  Float.ofScientific 1 false exponent

/-- A floating-point number divided by a power of ten, which takes several divisions if the power
is not itself a finite number. -/
def shrink (x : Float) (exponent : Nat) : Float :=
  if exponent ≤ greatestPower then x / power exponent
  else if x == 0 then x
  else shrink (x / power greatestPower) (exponent - greatestPower)
termination_by exponent
decreasing_by
  simp only [greatestPower] at *
  omega

/-- **A word times a power of ten** in floating-point arithmetic, if that is finite. -/
def scale? (word : Nat) (exponent : Int) : Option Float :=
  let x := (UInt64.ofNat word).toFloat
  if exponent < 0 then some (shrink x exponent.natAbs)
  else if exponent.toNat ≤ greatestPower then
    let product := x * power exponent.toNat
    if product.isFinite then some product else none
  else if x == 0 then some x
  else none

/-- The floating-point number that a numeral writes. -/
def toFloat? (n : Numeral) : Option Float :=
  let (word, exponent) := n.scaled
  (scale? word exponent).map fun x => if n.negative then -x else x

/-- The whole number that a numeral writes, if it writes one that fits a word. -/
def toWord? (n : Numeral) : Option Int :=
  if n.fraction.isSome ∨ n.exponent.isSome then none
  else
    let magnitude := value n.whole
    if n.negative then
      if 0 < magnitude ∧ magnitude ≤ 0x8000000000000000 then some (-(magnitude : Int)) else none
    else if magnitude < Text.wordBound then some magnitude
    else none

end Numeral

/-- **The value that a number writes.** -/
def ofNumeral? (text : String) : Option Json := do
  let numeral ← Numeral.parse? text.toList
  match numeral.toWord? with
  | some value => return .integer value
  | none => return .decimal (Decimal.ofFloat (← numeral.toFloat?))

end BytecodeFlow.Json
