import BytecodeFlow.Decimal.Shortest
import BytecodeFlow.Text.Numeral

/-!
# JSON values and their text

* `Json` — a value.  An object keeps its members in the order in which they were put there, since
  that is the order in which they are written.
* `Json.compact` — a value on one line, without blanks.
* `Json.pretty` — a value over several lines, two spaces for every level.
-/

namespace BytecodeFlow

/-- A JSON value.  A number is whole or a decimal, and the two differ even where their values
agree. -/
inductive Json where
  | null
  | bool (value : Bool)
  | integer (value : Int)
  | decimal (value : Decimal)
  | string (value : String)
  | array (items : List Json)
  | object (members : List (String × Json))
deriving Inhabited

namespace Json

/-- A natural number as a value. -/
def nat (n : Nat) : Json :=
  .integer n

/-- A list of texts as a value. -/
def strings (texts : List String) : Json :=
  .array (texts.map .string)

/-- A text, or `null` where there is none. -/
def stringOrNull : Option String → Json
  | some text => .string text
  | none => .null

/-! ## Writing -/

/-- A character inside a quoted text: quotation mark, backslash and control characters are
escaped, everything else stands for itself. -/
def escapeChar (c : Char) : List Char :=
  if c = '\x22' then ['\x5c', '\x22']
  else if c = '\x5c' then ['\x5c', '\x5c']
  else if c = '\x08' then ['\x5c', 'b']
  else if c = '\x0c' then ['\x5c', 'f']
  else if c = '\n' then ['\x5c', 'n']
  else if c = '\r' then ['\x5c', 'r']
  else if c = '\t' then ['\x5c', 't']
  else if c.toNat < 0x20 then '\x5c' :: 'u' :: (Text.hexPadded 4 c.toNat).toList
  else [c]

/-- A text between quotation marks. -/
def quote (text : String) : String :=
  String.ofList ('\x22' :: text.toList.flatMap escapeChar ++ ['\x22'])

mutual

/-- **A value on one line**, without blanks. -/
def compact : Json → String
  | .null => "null"
  | .bool value => if value then "true" else "false"
  | .integer value => toString value
  | .decimal value => value.render Decimal.jsonLayout
  | .string value => quote value
  | .array items => "[" ++ String.intercalate "," (compactItems items) ++ "]"
  | .object members => "\x7b" ++ String.intercalate "," (compactMembers members) ++ "\x7d"

/-- The items of an array, each on one line. -/
def compactItems : List Json → List String
  | [] => []
  | item :: rest => item.compact :: compactItems rest

/-- The members of an object, each on one line. -/
def compactMembers : List (String × Json) → List String
  | [] => []
  | (key, value) :: rest => (quote key ++ ":" ++ value.compact) :: compactMembers rest

end

/-- The line break and the indentation of a level. -/
def newline (level : Nat) : String :=
  String.ofList ('\n' :: List.replicate (2 * level) ' ')

/-- Parts between brackets, each on lines of its own one level further in.  Without parts the
brackets close at once. -/
def enclose (opening closing : String) (level : Nat) (parts : List String) : String :=
  if parts.isEmpty then opening ++ closing
  else
    opening ++ newline (level + 1) ++ String.intercalate ("," ++ newline (level + 1)) parts
      ++ newline level ++ closing

mutual

/-- A value over several lines, whose first line stands at a given level. -/
def prettyAt (level : Nat) : Json → String
  | .null => "null"
  | .bool value => if value then "true" else "false"
  | .integer value => toString value
  | .decimal value => value.render Decimal.jsonLayout
  | .string value => quote value
  | .array items => enclose "[" "]" level (prettyItems (level + 1) items)
  | .object members => enclose "\x7b" "\x7d" level (prettyMembers (level + 1) members)

/-- The items of an array at a given level. -/
def prettyItems (level : Nat) : List Json → List String
  | [] => []
  | item :: rest => item.prettyAt level :: prettyItems level rest

/-- The members of an object at a given level. -/
def prettyMembers (level : Nat) : List (String × Json) → List String
  | [] => []
  | (key, value) :: rest => (quote key ++ ": " ++ value.prettyAt level) :: prettyMembers level rest

end

/-- **A value over several lines**, two spaces for every level and no line break at the end. -/
def pretty (value : Json) : String :=
  value.prettyAt 0

end Json

end BytecodeFlow
