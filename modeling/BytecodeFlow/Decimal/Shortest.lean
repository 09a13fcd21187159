import BytecodeFlow.Decimal.Basic

/-!
# The shortest decimal of a floating-point number

A floating-point number stands for all the reals that round to it, which form an interval around
it.  Its shortest decimal is the decimal with the fewest digits in that interval, and of several
the one nearest to the number itself.

* `Binary` — a positive number `mantissa * 2 ^ exponent`, as a floating-point format holds it.
* `Binary.candidate?` — a decimal with a given number of digits that rounds to the number.
* `Binary.shortest` — the first such decimal as the number of digits grows.
* `Decimal.ofFloat` — the shortest decimal of a `Float`.

All arithmetic is on whole numbers: both the number and the ends of its interval are multiples of
`2 ^ (exponent - 2)`.
-/

namespace BytecodeFlow

/-- The positive number `mantissa * 2 ^ exponent`. -/
structure Binary where
  mantissa : Nat
  exponent : Int
  /-- Whether the next smaller number is only half a step away, as it is at the powers of two. -/
  narrowBelow : Bool
deriving DecidableEq, Repr

namespace Binary

/-- The factor that a power of ten or two contributes to the upper side of a fraction. -/
def upper (base : Nat) (exponent : Int) : Nat :=
  Nat.pow base exponent.toNat

/-- The factor that a power of ten or two contributes to the lower side of a fraction. -/
def lower (base : Nat) (exponent : Int) : Nat :=
  Nat.pow base (-exponent).toNat

/-- The number of quarter steps in the number. -/
def quarters (b : Binary) : Nat :=
  4 * b.mantissa

/-- The quotient of `n` quarter steps by `10 ^ e`, as a numerator and a denominator. -/
def ratio (b : Binary) (n : Nat) (e : Int) : Nat × Nat :=
  (n * upper 2 (b.exponent - 2) * lower 10 e, lower 2 (b.exponent - 2) * upper 10 e)

/-- Whether `digits * 10 ^ e` rounds to the number: it lies between the midpoints to the two
neighbours, and on a midpoint only if the mantissa is even, because a tie goes to even. -/
def admits (b : Binary) (digits : Nat) (e : Int) : Bool :=
  let low := b.ratio (b.quarters - if b.narrowBelow then 1 else 2) e
  let high := b.ratio (b.quarters + 2) e
  if b.mantissa % 2 = 0 then low.1 ≤ digits * low.2 && digits * high.2 ≤ high.1
  else low.1 < digits * low.2 && digits * high.2 < high.1

/-- The decimal on the grid of multiples of `10 ^ e` that rounds to the number, the nearer one if
both neighbours of the number do. -/
def candidate? (b : Binary) (e : Int) : Option Nat :=
  let exact := b.ratio b.quarters e
  let below := exact.1 / exact.2
  let remainder := exact.1 % exact.2
  match b.admits below e, b.admits (below + 1) e with
  | true, true =>
    if 2 * remainder < exact.2 ∨ (2 * remainder = exact.2 ∧ below % 2 = 0) then some below
    else some (below + 1)
  | true, false => some below
  | false, true => some (below + 1)
  | false, false => none

/-- The first grid, as it gets finer by powers of ten, that has a decimal for the number.  `steps`
bounds the number of grids; the decimal of the last one is used without a test. -/
def refine (b : Binary) : (steps : Nat) → (e : Int) → Nat × Int
  | 0, e =>
    let exact := b.ratio b.quarters e
    (exact.1 / exact.2, e)
  | steps + 1, e =>
    match b.candidate? e with
    | some digits => (digits, e)
    | none => b.refine steps (e - 1)

/-- An exponent of ten that is too coarse for the number by at least one digit. -/
def coarsest (b : Binary) : Int :=
  ((b.mantissa.log2 : Int) + b.exponent) * 3 / 10 + 2

/-- Drops the zeros at the end of a number, at most `steps` of them. -/
def dropZeros : (steps : Nat) → Nat × Int → Nat × Int
  | 0, n => n
  | steps + 1, (digits, e) =>
    if digits ≠ 0 ∧ digits % 10 = 0 then dropZeros steps (digits / 10, e + 1) else (digits, e)

/-- **The shortest decimal of a number**, as digits and an exponent of ten. -/
def shortest (b : Binary) : Nat × Int :=
  dropZeros 20 (b.refine 40 b.coarsest)

end Binary

namespace Decimal

/-- The bit `2 ^ 52` that the mantissa of a floating-point number has unless the number is very
small, and that its representation leaves out. -/
def hiddenBit : Nat := 0x10000000000000

/-- The shortest decimal of a finite floating-point number. -/
def ofFloat (x : Float) : Decimal :=
  let bits := x.toBits.toNat
  let negative := 0x8000000000000000 ≤ bits
  let field : Nat := bits / hiddenBit % 0x800
  let fraction : Nat := bits % hiddenBit
  if field = 0 ∧ fraction = 0 then ⟨negative, 0, 0⟩
  else
    let number : Binary :=
      if field = 0 then ⟨fraction, -1074, false⟩
      else ⟨hiddenBit + fraction, (field : Int) - 1075, fraction = 0 && 1 < field⟩
    let (digits, exponent) := number.shortest
    ⟨negative, digits, exponent⟩

end Decimal

end BytecodeFlow
