import BytecodeFlow.Opcode.Basic
import BytecodeFlow.Text.Blank
import BytecodeFlow.Text.Numeral

/-!
# Mnemonics

The assigned opcodes fill eight runs of consecutive bytes, and the table follows them.

* `runs`, `mnemonic?` — the name assigned to an opcode, if there is one.
* `text` — the name of any opcode; an unassigned byte is written with its number.
* `parse` — the opcode that a text names: any name that `text` writes, in either case, or one of
  three older names.
-/

namespace BytecodeFlow.Opcode

/-! ## The table -/

/-- The names `stem`*first*, `stem`*first + 1*, …, `count` of them. -/
def numbered (stem : String) (first count : Nat) : List String :=
  (List.range count).map fun i => stem ++ toString (first + i)

/-- **The assigned mnemonics**, as runs of consecutive bytes: the first byte of a run, and the
names from there on. -/
def runs : List (Nat × List String) :=
  [(0x00, ["STOP", "ADD", "MUL", "SUB", "DIV", "SDIV", "MOD", "SMOD", "ADDMOD", "MULMOD", "EXP",
      "SIGNEXTEND"]),
    (0x10, ["LT", "GT", "SLT", "SGT", "EQ", "ISZERO", "AND", "OR", "XOR", "NOT", "BYTE", "SHL",
      "SHR", "SAR"]),
    (0x20, ["SHA3"]),
    (0x30, ["ADDRESS", "BALANCE", "ORIGIN", "CALLER", "CALLVALUE", "CALLDATALOAD", "CALLDATASIZE",
      "CALLDATACOPY", "CODESIZE", "CODECOPY", "GASPRICE", "EXTCODESIZE", "EXTCODECOPY",
      "RETURNDATASIZE", "RETURNDATACOPY", "EXTCODEHASH", "BLOCKHASH", "COINBASE", "TIMESTAMP",
      "NUMBER", "PREVRANDAO", "GASLIMIT", "CHAINID", "SELFBALANCE", "BASEFEE", "BLOBHASH",
      "BLOBBASEFEE"]),
    (0x50, ["POP", "MLOAD", "MSTORE", "MSTORE8", "SLOAD", "SSTORE", "JUMP", "JUMPI", "PC", "MSIZE",
      "GAS", "JUMPDEST", "TLOAD", "TSTORE", "MCOPY"]
      ++ numbered "PUSH" 0 33 ++ numbered "DUP" 1 16 ++ numbered "SWAP" 1 16
      ++ numbered "LOG" 0 5),
    (0xf0, ["CREATE", "CALL", "CALLCODE", "RETURN", "DELEGATECALL", "CREATE2"]),
    (0xfa, ["STATICCALL"]),
    (0xfd, ["REVERT", "INVALID", "SELFDESTRUCT"])]

/-- The bytes with an assigned mnemonic, each with its name, in ascending order. -/
def assigned : List (Nat × String) :=
  runs.flatMap fun run => run.2.zipIdx.map fun entry => (run.1 + entry.2, entry.1)

/-- The mnemonic of every byte, `none` where no instruction is assigned. -/
def table : Array (Option String) :=
  assigned.foldl (fun names entry => names.setIfInBounds entry.1 (some entry.2))
    (Array.replicate 256 none)

/-- The mnemonic assigned to an opcode. -/
def mnemonic? (op : Opcode) : Option String :=
  (table[op.byte.toNat]?).join

/-- Whether an instruction is assigned to the byte.  The byte set aside to be invalid counts as
assigned. -/
def isDefined (op : Opcode) : Bool :=
  op.mnemonic?.isSome

/-! ## Writing -/

/-- The name shared by all unassigned bytes. -/
def unknownName : String := "UNKNOWN"

/-- The mnemonic, or the name shared by the unassigned bytes. -/
def name (op : Opcode) : String :=
  op.mnemonic?.getD unknownName

/-- **The text of an opcode.**  An unassigned byte is written with its number, so every opcode has
a text of its own. -/
def text (op : Opcode) : String :=
  match op.mnemonic? with
  | some mnemonic => mnemonic
  | none => unknownName ++ "(0x" ++ Text.hexPadded 2 op.byte.toNat ++ ")"

/-! ## Reading -/

/-- Names that an opcode had before its present one. -/
def formerNames : List (String × String) :=
  [("KECCAK256", "SHA3"), ("DIFFICULTY", "PREVRANDAO"), ("SUICIDE", "SELFDESTRUCT")]

/-- The present form of a name. -/
def currentName (wanted : String) : String :=
  (formerNames.lookup wanted).getD wanted

/-- What stands between the opening `UNKNOWN(0X` and the closing parenthesis of a text. -/
def unknownNumeral? (upper : List Char) : Option (List Char) :=
  let opening := "UNKNOWN(0X".toList
  if opening.isPrefixOf upper then
    match (upper.drop opening.length).reverse with
    | ')' :: numeral => some numeral.reverse
    | _ => none
  else none

/-- A text that names no opcode. -/
structure ParseError where
  /-- The text as it was given. -/
  given : String
deriving DecidableEq, Repr

/-- The wording of the error. -/
def ParseError.message (e : ParseError) : String :=
  "Unknown opcode mnemonic: " ++ e.given

/-- The opcode whose mnemonic is `wanted`, found by its place in the table. -/
def ofMnemonic? (wanted : String) : Option Opcode :=
  (table.findIdx? (· = some wanted)).map fun byte => ⟨UInt8.ofNat byte⟩

/-- The opcode that a trimmed text in upper case names. -/
def ofUpper? (upper : List Char) : Option Opcode :=
  match unknownNumeral? upper with
  | some numeral => (Text.unsigned? 16 256 numeral).map fun byte => ⟨UInt8.ofNat byte⟩
  | none => ofMnemonic? (currentName (String.ofList upper))

/-- **The opcode that a text names.**  Blanks around the text and the case of its ASCII letters do
not matter. -/
def parse (given : String) : Except ParseError Opcode :=
  match ofUpper? ((Text.trim given.toList).map Char.toUpper) with
  | some op => .ok op
  | none => .error ⟨given⟩

end BytecodeFlow.Opcode
