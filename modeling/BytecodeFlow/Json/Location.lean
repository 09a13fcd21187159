import BytecodeFlow.Text.Numeral

/-!
# Locations at the end of messages

A message about a JSON text may say where the text is wrong: it then ends in a line and a column.
A message about a JSON value has no such place, but whatever it quotes last may look like one.

* `Located` — a message and the place it speaks of.
* `locate?` — a message taken apart, if it ends in a location.
* `Located.text` — the two put together.  Lines are counted from one, so line zero is no place,
  and the location is left out.
* `relocate` — one after the other: a location is written without zeros in front, and one at line
  zero is dropped.
-/

namespace BytecodeFlow.Json

/-- A message about a place in a text. -/
structure Located where
  message : List Char
  line : Nat
  column : Nat
deriving DecidableEq, Repr

/-- What stands before the line of a location. -/
def lineMark : List Char := " at line ".toList

/-- What stands before the column of a location. -/
def columnMark : List Char := " column ".toList

/-- What a text starts with up to its last digit, and the digits behind that. -/
def splitDigits (text : List Char) : List Char × List Char :=
  let (digits, rest) := text.reverse.span Char.isDigit
  (rest.reverse, digits.reverse)

/-- A text without a given ending, if it has that ending. -/
def dropEnding? (ending text : List Char) : Option (List Char) :=
  if ending.isSuffixOf text then some (text.take (text.length - ending.length)) else none

/-- A number at the end of a text behind a given mark, and what stands before the mark. -/
def markedNumber? (mark text : List Char) : Option (List Char × Nat) := do
  let (before, digits) := splitDigits text
  let before ← dropEnding? mark before
  return (before, ← Text.unsigned? 10 Text.wordBound digits)

/-- **A message that ends in a location**, taken apart. -/
def locate? (text : List Char) : Option Located := do
  let (before, column) ← markedNumber? columnMark text
  let (message, line) ← markedNumber? lineMark before
  return ⟨message, line, column⟩

/-- The text of a message, with its location unless that is at line zero. -/
def Located.text (l : Located) : List Char :=
  if l.line = 0 then l.message
  else
    l.message ++ lineMark ++ Nat.toDigits 10 l.line ++ columnMark ++ Nat.toDigits 10 l.column

/-- **A message with the location at its end written anew.** -/
def relocate (text : String) : String :=
  match locate? text.toList with
  | some located => String.ofList located.text
  | none => text

end BytecodeFlow.Json
