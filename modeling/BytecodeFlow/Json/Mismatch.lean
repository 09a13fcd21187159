import BytecodeFlow.Hex
import BytecodeFlow.Json.Basic
import BytecodeFlow.Json.Location
import BytecodeFlow.Opcode.Mnemonic
import BytecodeFlow.Text.Quote

/-!
# JSON values of the wrong shape

* `Json.Mismatch` — why a value is not of an expected shape, and the wording of each reason.
* `Json.Reader` — a partial reading of values, which gives such a reason where it fails.
* `offset`, `text`, `sequence`, `variant` — the readings that all shapes are built from.
* `Record` — a record read from an object, or from an array that lists its fields in order.

**Which reason is reported.**  The fields of a record are read in order, and a field whose value
is wrong is reported before one that is missing.
-/

namespace BytecodeFlow.Json

/-- A value as a message names it. -/
def describe : Json → String
  | .null => "null"
  | .bool value => "boolean `" ++ (if value then "true" else "false") ++ "`"
  | .integer value => "integer `" ++ toString value ++ "`"
  | .decimal value => "floating point `" ++ value.render Decimal.jsonLayout ++ "`"
  | .string value => "string " ++ Text.quoteText value
  | .array _ => "sequence"
  | .object _ => "map"

/-- Why a value is not of the expected shape. -/
inductive Mismatch where
  /-- A value of the wrong kind. -/
  | wrongType (found expected : String)
  /-- A value of the right kind that is out of range. -/
  | wrongValue (found expected : String)
  /-- An array with the wrong number of items. -/
  | wrongLength (length : Nat) (expected : String)
  | missingField (field : String)
  | unknownVariant (found : String) (allowed : List String)
  | unknownOpcode (cause : Opcode.ParseError)
  | badHex (cause : Hex.Error)
deriving DecidableEq, Repr

/-- A text between backticks. -/
def tick (text : String) : String :=
  "`" ++ text ++ "`"

/-- The choices that a message offers. -/
def choices : List String → String
  | [a, b] => tick a ++ " or " ++ tick b
  | allowed => "one of " ++ String.intercalate ", " (allowed.map tick)

/-- The wording of a reason, with the texts in it as they were given. -/
def Mismatch.wording : Mismatch → String
  | .wrongType found expected => "invalid type: " ++ found ++ ", expected " ++ expected
  | .wrongValue found expected => "invalid value: " ++ found ++ ", expected " ++ expected
  | .wrongLength length expected =>
    "invalid length " ++ toString length ++ ", expected " ++ expected
  | .missingField field => "missing field " ++ tick field
  | .unknownVariant found allowed =>
    "unknown variant " ++ tick found ++ ", expected " ++ choices allowed
  | .unknownOpcode cause => cause.message
  | .badHex cause => cause.message

/-- **The message for a reason.**  A text at its end that reads like a location is taken for
one. -/
def Mismatch.message (m : Mismatch) : String :=
  relocate m.wording

/-- A partial reading of values. -/
abbrev Reader (α : Type) := Json → Except Mismatch α

/-- The failure to find a value of the expected kind. -/
def refuse {α : Type} (found : Json) (expected : String) : Except Mismatch α :=
  .error (.wrongType found.describe expected)

/-! ## Plain values -/

/-- An offset or a count: a natural number below `2 ^ 64`. -/
def offset : Reader Nat
  | .integer value =>
    if value < 0 then .error (.wrongValue (integer value).describe "usize")
    else if value < Text.wordBound then .ok value.toNat
    else refuse (.integer value) "usize"
  | found => refuse found "usize"

/-- A text. -/
def text : Reader String
  | .string value => .ok value
  | found => refuse found "a string"

/-- Bytes in hexadecimal, neither marked nor padded. -/
def bytes : Reader (List UInt8)
  | .string value => (Hex.decode value.toList).mapError .badHex
  | found => refuse found "a hex encoded string"

/-- An opcode by its name. -/
def opcode : Reader Opcode := fun value => do
  (Opcode.parse (← text value)).mapError .unknownOpcode

/-- A list, whose items are read from left to right. -/
def sequence {α : Type} (item : Reader α) : Reader (List α)
  | .array items => items.mapM item
  | found => refuse found "a sequence"

/-! ## Variants -/

/-- The choice that a name makes. -/
def choose {α : Type} (choice : List (String × α)) (found : String) : Except Mismatch α :=
  match choice.lookup found with
  | some value => .ok value
  | none => .error (.unknownVariant found (choice.map (·.1)))

/-- One of several named choices: its name, or an object whose only key is the name and whose only
value is `null`. -/
def variant {α : Type} (choice : List (String × α)) : Reader α
  | .string found => choose choice found
  | .object [(found, content)] => do
    let value ← choose choice found
    match content with
    | .null => return value
    | content => refuse content "unit"
  | .object members =>
    .error (.wrongValue (object members).describe "map with a single key")
  | found => refuse found "string or map"

/-! ## Records -/

/-- A record of named fields, read one after the other: from the members of an object, or from
the items of an array. -/
structure Record where
  /-- What a message calls the record. -/
  title : String
  /-- The names of the fields, in order. -/
  fields : List String

/-- The length that a message asks for when an array is too short. -/
def Record.expectedLength (r : Record) : String :=
  "struct " ++ r.title ++ " with " ++ toString r.fields.length ++ " elements"

/-- The value of a field, where the object has it. -/
def member? (members : List (String × Json)) (field : String) : Option Json :=
  members.lookup field

/-- Reads a field of an object if it is there; whether it has to be is asked later. -/
def optional {α : Type} (members : List (String × Json)) (field : String) (value : Reader α) :
    Except Mismatch (Option α) :=
  (member? members field).mapM value

/-- The value of a field that has to be there. -/
def required {α : Type} (field : String) : Option α → Except Mismatch α
  | some value => .ok value
  | none => .error (.missingField field)

/-- Reads the item at a position of an array that lists the fields of a record. -/
def positional {α : Type} (r : Record) (items : List Json) (position : Nat) (value : Reader α) :
    Except Mismatch α :=
  match items[position]? with
  | some item => value item
  | none => .error (.wrongLength position r.expectedLength)

/-- Refuses an array with more items than the record has fields. -/
def noMore (r : Record) (items : List Json) : Except Mismatch Unit :=
  if r.fields.length < items.length then
    .error (.wrongLength items.length "fewer elements in array")
  else .ok ()

end BytecodeFlow.Json
