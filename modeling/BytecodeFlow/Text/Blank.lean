/-!
# Blank characters

Input texts may be padded with blanks, and a bytecode text may hold them between its digits.
"Blank" is the `White_Space` property of the Unicode character database, which is wider than the
four characters of `Char.isWhitespace`.

* `blankRanges` — the property, as ranges of code points.
* `isBlank` — membership in one of the ranges.
* `trim` — a text without the blanks at its two ends.
-/

namespace BytecodeFlow.Text

/-- **The `White_Space` property**, as inclusive ranges of code points in ascending order. -/
def blankRanges : List (Nat × Nat) :=
  [(0x09, 0x0d), (0x20, 0x20), (0x85, 0x85), (0xa0, 0xa0), (0x1680, 0x1680), (0x2000, 0x200a),
    (0x2028, 0x2029), (0x202f, 0x202f), (0x205f, 0x205f), (0x3000, 0x3000)]

/-- Whether a character is blank: whether one of the ranges holds its code point. -/
def isBlank (c : Char) : Bool :=
  blankRanges.any fun range => range.1 ≤ c.toNat && c.toNat ≤ range.2

/-- A text without the blanks at its front. -/
def trimFront (text : List Char) : List Char :=
  text.dropWhile isBlank

/-- A text without the blanks at its two ends. -/
def trim (text : List Char) : List Char :=
  (trimFront (trimFront text).reverse).reverse

end BytecodeFlow.Text
