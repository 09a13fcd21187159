/-!
# Numerals

Numbers as the reports write them and as the command line reads them.

* `hex`, `hexOffset`, `hexPadded` — lowercase hexadecimal, plain, behind `0x`, or of a least width.
* `padRight`, `padLeft`, `cut` — a text brought to a least or a greatest number of characters.
* `unsigned?` — an unsigned numeral in a given base: an optional plus sign and at least one digit.
-/

namespace BytecodeFlow.Text

/-! ## Writing -/

/-- The lowercase hexadecimal digits of a number, `0` for zero. -/
def hex (n : Nat) : String :=
  String.ofList (Nat.toDigits 16 n)

/-- A number in hexadecimal behind the mark `0x`. -/
def hexOffset (n : Nat) : String :=
  "0x" ++ hex n

/-- A number in hexadecimal with zeros in front up to `width` digits. -/
def hexPadded (width n : Nat) : String :=
  let digits := Nat.toDigits 16 n
  String.ofList (List.replicate (width - digits.length) '0' ++ digits)

/-- A text with spaces behind it up to `width` characters. -/
def padRight (width : Nat) (text : String) : String :=
  String.ofList (text.toList ++ List.replicate (width - text.toList.length) ' ')

/-- A text with spaces in front of it up to `width` characters. -/
def padLeft (width : Nat) (text : String) : String :=
  String.ofList (List.replicate (width - text.toList.length) ' ' ++ text.toList)

/-- The first `width` characters of a text, or all of it when it is shorter. -/
def cut (width : Nat) (text : String) : String :=
  String.ofList (text.toList.take width)

/-! ## Reading -/

/-- Counts and offsets are 64-bit numbers: they are below `2 ^ 64`. -/
def wordBound : Nat := 0x10000000000000000

/-- The value of a digit, where letters of either case go on after `9`. -/
def digitValue? (c : Char) : Option Nat :=
  if '0' ≤ c ∧ c ≤ '9' then some (c.toNat - '0'.toNat)
  else if 'a' ≤ c ∧ c ≤ 'z' then some (c.toNat - 'a'.toNat + 10)
  else if 'A' ≤ c ∧ c ≤ 'Z' then some (c.toNat - 'A'.toNat + 10)
  else none

/-- The value of a digit in a given base; letters that stand for larger values are refused. -/
def digitInBase? (base : Nat) (c : Char) : Option Nat :=
  (digitValue? c).filter (· < base)

/-- The number that a list of digits writes, most significant digit first, when all of them are
digits of the base.  The empty list writes zero. -/
def digits? (base : Nat) (text : List Char) : Option Nat :=
  text.foldlM (fun value c => (digitInBase? base c).map (value * base + ·)) 0

/-- **An unsigned numeral** in a given base and below a given limit: an optional plus sign and one
digit or more.  Zeros in front are accepted, a minus sign is not. -/
def unsigned? (base limit : Nat) (text : List Char) : Option Nat :=
  let digits := match text with
    | '+' :: rest => rest
    | _ => text
  if digits.isEmpty then none else (digits? base digits).filter (· < limit)

end BytecodeFlow.Text
