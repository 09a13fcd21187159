import BytecodeFlow.Text.Numeral
import BytecodeFlow.Text.Printable

/-!
# Quoted characters and texts

Messages show the character or text they complain about between quotes, with whatever could not
be read off a screen escaped.

* `escape` — a character, escaped if it is a control character, a backslash, or not printable.
* `quoteChar`, `quoteText` — between apostrophes, between quotation marks; each escapes its own
  delimiter and leaves the other alone.
-/

namespace BytecodeFlow.Text

/-- The code point of a character between braces, for characters that are not printable. -/
def escapeCode (c : Char) : String :=
  "\\u\x7b" ++ hex c.toNat ++ "\x7d"

/-- A character as a message shows it: the usual two-character escapes, `escapeCode` for what is
not printable, and itself otherwise.  The delimiter in use is escaped as well. -/
def escape (delimiter c : Char) : String :=
  if c = '\x00' then "\\0"
  else if c = '\t' then "\\t"
  else if c = '\r' then "\\r"
  else if c = '\n' then "\\n"
  else if c = '\x5c' ∨ c = delimiter then String.ofList ['\x5c', c]
  else if isPrintable c then c.toString
  else escapeCode c

/-- A character between apostrophes. -/
def quoteChar (c : Char) : String :=
  "'" ++ escape '\x27' c ++ "'"

/-- A text between quotation marks. -/
def quoteText (text : String) : String :=
  "\"" ++ String.join (text.toList.map (escape '\x22')) ++ "\""

end BytecodeFlow.Text
