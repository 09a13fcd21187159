import BytecodeFlow.Instruction
import BytecodeFlow.Json.Mismatch

/-!
# What can go wrong

The causes for which an analysis, a graph or one of its passes gives no result, and their wording.
-/

namespace BytecodeFlow

/-- A cause of failure. -/
inductive Error where
  /-- There is no code to read. -/
  | emptyInput
  /-- There is no instruction to build a graph from. -/
  | noInstructions
  /-- Two neighbouring instructions whose offsets do not ascend. -/
  | unorderedInstructions (previous offset : Nat)
  /-- A text that writes no bytes. -/
  | invalidHex (cause : Hex.Error)
  /-- A JSON value of the wrong shape. -/
  | serialization (cause : Json.Mismatch)
  /-- A node number that names no node, given by a caller or by an edge. -/
  | missingNode (id : Nat)
deriving DecidableEq, Repr

/-- The wording of a cause. -/
def Error.message : Error → String
  | .emptyInput => "Cannot decompile an empty byte buffer"
  | .noInstructions => "Cannot build a control-flow graph from zero instructions"
  | .unorderedInstructions previous offset =>
    "Instruction offsets must be strictly ascending: " ++ Text.hexOffset previous
      ++ " is followed by " ++ Text.hexOffset offset
  | .invalidHex cause => "Invalid hex input: " ++ cause.message
  | .serialization cause => "Serialization error: " ++ cause.message
  | .missingNode id => "The graph has no node " ++ toString id

/-- The bytes that a text of code writes. -/
def parseCode (text : String) : Except Error (List UInt8) :=
  (Hex.parse text).mapError .invalidHex

end BytecodeFlow
