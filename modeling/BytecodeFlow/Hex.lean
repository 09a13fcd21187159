import BytecodeFlow.Text.Blank
import BytecodeFlow.Text.Quote

/-!
# Bytes written in hexadecimal

A byte is written as two hexadecimal digits, the high half first.  Writing always uses lowercase
letters; reading accepts either case.

* `encode` — the digits of a list of bytes.
* `decode` — the bytes that a text of digits writes, or the reason why it writes none.
* `parse` — the same for a text as people write it: padded with blanks, behind an optional `0x`,
  and with blanks anywhere among the digits.

**Which error is reported.**  The number of digits is looked at first, so a text of odd length
fails for that reason even when it also holds characters that are no digits.  Both the length and
the position of a bad character count the bytes of the UTF-8 form of the text.
-/

namespace BytecodeFlow.Hex

/-- Why a text writes no bytes. -/
inductive Error where
  /-- The digits do not pair up. -/
  | oddLength
  /-- The byte at this position of the text is no hexadecimal digit. -/
  | badDigit (byte : UInt8) (position : Nat)
deriving DecidableEq, Repr

/-- The wording of an error.  A bad byte is shown as the character with its number. -/
def Error.message : Error → String
  | .oddLength => "Odd number of digits"
  | .badDigit byte position =>
    "Invalid character " ++ Text.quoteChar (Char.ofNat byte.toNat) ++ " at position "
      ++ toString position

/-! ## Writing -/

/-- The two digits of a byte, high half first. -/
def byteDigits (byte : UInt8) : List Char :=
  [Nat.digitChar (byte.toNat / 16), Nat.digitChar (byte.toNat % 16)]

/-- The digits of a list of bytes, in order. -/
def digits (bytes : List UInt8) : List Char :=
  bytes.flatMap byteDigits

/-- A list of bytes as a text of lowercase digits. -/
def encode (bytes : List UInt8) : String :=
  String.ofList (digits bytes)

/-! ## Reading -/

/-- The value of an ASCII digit of either case. -/
def nibble? (byte : UInt8) : Option UInt8 :=
  if 0x30 ≤ byte ∧ byte ≤ 0x39 then some (byte - 0x30)
  else if 0x61 ≤ byte ∧ byte ≤ 0x66 then some (byte - 0x61 + 10)
  else if 0x41 ≤ byte ∧ byte ≤ 0x46 then some (byte - 0x41 + 10)
  else none

/-- The value of the digit at a position, or the complaint about that position. -/
def nibble (position : Nat) (byte : UInt8) : Except Error UInt8 :=
  match nibble? byte with
  | some value => .ok value
  | none => .error (.badDigit byte position)

/-- Reads digits two at a time, from left to right; `position` is that of the first one. -/
def decodePairs (position : Nat) : List UInt8 → Except Error (List UInt8)
  | [] => .ok []
  | [_] => .error .oddLength
  | high :: low :: rest => do
    let h ← nibble position high
    let l ← nibble (position + 1) low
    let bytes ← decodePairs (position + 2) rest
    return (h * 16 + l) :: bytes

/-- The bytes of the UTF-8 form of a text. -/
def utf8 (text : List Char) : List UInt8 :=
  text.flatMap String.utf8EncodeChar

/-- The bytes that a text of digits writes.  Nothing but digits is accepted. -/
def decode (text : List Char) : Except Error (List UInt8) :=
  let bytes := utf8 text
  if bytes.length % 2 = 1 then .error .oddLength else decodePairs 0 bytes

/-- A text without the mark `0x` or `0X` at its front, which is removed once. -/
def dropMark : List Char → List Char
  | '0' :: 'x' :: rest => rest
  | '0' :: 'X' :: rest => rest
  | text => text

/-- The digits of a text as people write it: trimmed, without its mark and without the blanks
among the digits.  A mark counts only at the very front, so blanks may not split it. -/
def significant (text : List Char) : List Char :=
  (dropMark (Text.trim text)).filter fun c => !Text.isBlank c

/-- **The bytes that a text writes**, blanks and an optional mark aside. -/
def parse (text : String) : Except Error (List UInt8) :=
  decode (significant text.toList)

end BytecodeFlow.Hex
