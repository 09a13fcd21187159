import Mathlib
import BytecodeFlow.Report.Table
import BytecodeFlow.Proofs.Session
import BytecodeFlow.Proofs.Spelling
import BytecodeFlow.Proofs.Totality

/-!
# The table gives back the instructions

Splitting the table at its line breaks and commas gives one row for every instruction, and the instruction
can be read off its row (`rows_describe_instructions`).

**Splitting.**  No field of a row has a comma, a quotation mark or a line break in it
(`unquoted_namedRow`), so the fields can be told apart (`cells_unlines`).

**Reading.**  Offset, opcode and operand are read from what is written for them (`instruction?_namedRow`).

**Blocks and loops.**  Two tables give the block and the loop of a node.  Later blocks overwrite earlier
ones (`getElem?_blockStarts`), which makes no difference because each node is in one block
(`exists_filter_eq_singleton`).  Later loops do not (`getElem?_loopHeaders`), and nodes can be in several.
-/

namespace BytecodeFlow

/-! ## Splitting -/

/-- Whether a text has no character for which a field would be put between quotation marks. -/
def Text.Unquoted (text : String) : Prop :=
  ∀ c ∈ text.toList, c ∉ [',', '\x22', '\n', '\r']

/-- The number that is written behind the mark `0x`. -/
def Text.readOffset? (text : String) : Option Nat :=
  match text.toList with
  | '0' :: 'x' :: digits => if digits.isEmpty then none else digits? 16 digits
  | _ => none

lemma Text.toList_hexOffset (n : Nat) : (hexOffset n).toList = '0' :: 'x' :: Nat.toDigits 16 n := by
  simp [hexOffset, hex]

lemma Text.readOffset?_hexOffset (n : Nat) : readOffset? (hexOffset n) = some n := by
  have hread : digits? 16 (Nat.toDigits 16 n) = some n := digits?_toDigits (by decide) (by decide) n
  simp [readOffset?, toList_hexOffset, Nat.toDigits_ne_nil, hread]

lemma Text.unquoted_of_isPlain {text : String} (h : ∀ c ∈ text.toList, isPlain c = true) :
    Unquoted text := by
  intro c hc hmem
  have hplain := h c hc
  fin_cases hmem <;> simp [isPlain] at hplain

namespace Report.Table

/-- The fields of the lines of a text. -/
def cells (text : String) : List (List String) :=
  (Text.lines text).map fun line => (line.toList.splitOn ',').map String.ofList

lemma splitOn_line {fields : List String} (hfields : ∀ field ∈ fields, Text.Unquoted field)
    (hsome : fields ≠ []) :
    ((String.intercalate "," fields).toList.splitOn ',').map String.ofList = fields := by
  have hcomma : ∀ field ∈ fields.map String.toList, ',' ∉ field := by
    rw [List.forall_mem_map]
    exact fun field hfield hmem => hfields field hfield ',' hmem (by simp)
  have hsplit := List.splitOn_intercalate ',' hcomma (by simpa using hsome)
  rw [String.toList_intercalate, show ",".toList = [','] from rfl, hsplit]
  simp

/-- **Fields can be told apart if none has to be quoted.** -/
lemma cells_unlines {rows : List (List String)}
    (h : ∀ fields ∈ rows, fields ≠ [] ∧ ∀ field ∈ fields, Text.Unquoted field) :
    cells (Text.unlines (rows.map (String.intercalate ","))) = rows := by
  have hlines : ∀ line ∈ rows.map (String.intercalate ","), '\n' ∉ line.toList := by
    rw [List.forall_mem_map]
    intro fields hfields hmem
    obtain ⟨first, rest, rfl⟩ := List.exists_cons_of_ne_nil (h fields hfields).1
    have hnewline : ∀ field ∈ first :: rest, '\n' ∉ field.toList := fun field hfield hmem =>
      (h _ hfields).2 field hfield '\n' hmem (by simp)
    rw [String.toList_intercalate, List.map_cons, intercalate_cons_eq] at hmem
    obtain ⟨field, hfield, hmem⟩ : ∃ field ∈ rest, '\n' ∈ field.toList := by
      simpa [hnewline first] using hmem
    exact hnewline field (List.mem_cons_of_mem _ hfield) hmem
  rw [cells, Text.lines_unlines hlines, List.map_map]
  refine (List.map_congr_left fun fields hfields => ?_).trans (List.map_id rows)
  exact splitOn_line (h fields hfields).2 (h fields hfields).1

/-! ## Blocks and loops -/

variable {k : Nat}

lemma getElem?_foldl_insert (nodes : List Nat) (start : Nat) (starts : Std.HashMap Nat Nat) :
    (nodes.foldl (fun starts id => starts.insert id start) starts)[k]? =
      if k ∈ nodes then some start else starts[k]? := by
  induction nodes generalizing starts with
  | nil => simp
  | cons id nodes ih =>
      rw [List.foldl_cons, ih, Std.HashMap.getElem?_insert]
      by_cases hid : id = k
      · simp [hid]
      · have hne : ¬k = id := fun h => hid h.symm
        simp [hid, hne]

/-- **A node has the start of the last block that it is in.** -/
lemma getElem?_blockStarts (blocks : List Block) :
    (blockStarts blocks)[k]? = ((blocks.filter (k ∈ ·.nodes)).getLast?).map (·.start) := by
  induction blocks using List.reverseRecOn with
  | nil => simp [blockStarts]
  | append_singleton blocks b ih =>
      rw [blockStarts] at ih ⊢
      rw [List.foldl_concat, getElem?_foldl_insert, ih, List.filter_append]
      by_cases hk : k ∈ b.nodes <;> simp [hk]

lemma getElem?_foldl_insertIfNew (nodes : List Nat) (header : Nat) (headers : Std.HashMap Nat Nat) :
    (nodes.foldl (fun headers id => headers.insertIfNew id header) headers)[k]? =
      headers[k]?.or (if k ∈ nodes then some header else none) := by
  induction nodes generalizing headers with
  | nil => simp
  | cons id nodes ih =>
      rw [List.foldl_cons, ih, Std.HashMap.getElem?_insertIfNew]
      by_cases hid : id = k
      · subst hid
        cases hheader : headers[id]? <;> simp [Std.HashMap.mem_iff_isSome_getElem?, hheader]
      · have hne : ¬k = id := fun h => hid h.symm
        simp [hid, hne]

/-- **A node has the header of the first loop that it is in.** -/
lemma getElem?_loopHeaders (loops : List Loop) :
    (loopHeaders loops)[k]? = (loops.find? (k ∈ ·.nodes)).map (·.header) := by
  induction loops using List.reverseRecOn with
  | nil => simp [loopHeaders]
  | append_singleton loops l ih =>
      rw [loopHeaders] at ih ⊢
      rw [List.foldl_concat, getElem?_foldl_insertIfNew, ih, List.find?_append]
      by_cases hk : k ∈ l.nodes <;> simp [hk]

/-- **A node of lists without repetitions is in one of them.** -/
lemma exists_filter_eq_singleton {blocks : List Block} (hnodup : (blocks.flatMap Block.nodes).Nodup)
    (hk : k ∈ blocks.flatMap Block.nodes) : ∃ b, blocks.filter (k ∈ ·.nodes) = [b] := by
  induction blocks with
  | nil => simp at hk
  | cons b blocks ih =>
      rw [List.flatMap_cons] at hnodup hk
      obtain ⟨_, hrest, hapart⟩ := List.nodup_append.mp hnodup
      by_cases hb : k ∈ b.nodes
      · have hnone : blocks.filter (k ∈ ·.nodes) = [] := by
          simp only [List.filter_eq_nil_iff, decide_eq_true_eq]
          exact fun c hc hmem => hapart k hb k (List.mem_flatMap.mpr ⟨c, hc, hmem⟩) rfl
        exact ⟨b, by simp [hb, hnone]⟩
      · obtain ⟨c, hc⟩ := ih hrest ((List.mem_append.mp hk).resolve_left hb)
        exact ⟨c, by simp [hb, hc]⟩

/-! ## Rows -/

/-- The fields of a row, by their names. -/
structure Row where
  offset : String
  block : String
  opcode : String
  operand : String
  size : String
  category : String
  inLoop : String
  isExit : String

namespace Row

/-- The fields in the order of the table. -/
def fields (r : Row) : List String :=
  [r.offset, r.block, r.opcode, r.operand, r.size, r.category, r.inLoop, r.isExit]

/-- The instruction that a row stands for, if there is one. -/
def instruction? (r : Row) : Option Instruction := do
  let offset ← Text.readOffset? r.offset
  let opcode ← (Opcode.parse r.opcode).toOption
  let operand ← (Hex.decode r.operand.toList).toOption
  return ⟨offset, opcode, operand⟩

lemma instruction?_eq_some {r : Row} {i : Instruction} (hoffset : Text.readOffset? r.offset = some i.offset)
    (hopcode : Opcode.parse r.opcode = .ok i.opcode) (hoperand : Hex.decode r.operand.toList = .ok i.operand) :
    r.instruction? = some i := by
  simp [instruction?, hoffset, hopcode, hoperand, Except.toOption]

/-- **What a row says about the instruction at a position.** -/
structure Describes (r : Row) (a : Analysis) (k : Nat) (i : Instruction) : Prop where
  unquoted : ∀ field ∈ r.fields, Text.Unquoted field
  instruction?_eq : r.instruction? = some i
  block : ∃ b, a.blocks.filter (k ∈ ·.nodes) = [b] ∧ r.block = Text.hexOffset b.start
  size_eq : r.size = toString i.size
  category_eq : r.category = i.opcode.category.text
  inLoop : ∀ l, a.loops.find? (k ∈ ·.nodes) = some l →
    ∃ j, a.disassembly.instructions[l.header]? = some j ∧ r.inLoop = Text.hexOffset j.offset
  noLoop : a.loops.find? (k ∈ ·.nodes) = none → r.inLoop = ""
  isExit_eq : r.isExit = if i.opcode ∈ [.ret, .revert, .selfdestruct] then "true" else "false"

end Row

/-- The row of an instruction and its position. -/
def namedRow (a : Analysis) (entry : Instruction × Nat) : Row where
  offset := Text.hexOffset entry.1.offset
  block := offsetField (blockStarts a.blocks)[entry.2]?
  opcode := entry.1.opcode.text
  operand := entry.1.operandHex
  size := toString entry.1.size
  category := entry.1.opcode.category.text
  inLoop := offsetField (a.flow.bind fun f => ((loopHeaders a.loops)[entry.2]?).map f.graph.offsetD)
  isExit := if a.flow.any (·.graph.isExit entry.2) then "true" else "false"

lemma rows_eq_map (a : Analysis) :
    rows a = a.disassembly.instructions.toList.zipIdx.map fun entry => (namedRow a entry).fields := by
  rw [rows]
  exact List.map_congr_left fun entry _ => by rw [row, Row.fields, namedRow]

lemma unquoted_hexOffset (n : Nat) : Text.Unquoted (Text.hexOffset n) := by
  refine Text.unquoted_of_isPlain ?_
  rw [Text.toList_hexOffset]
  exact List.forall_mem_cons.mpr ⟨rfl, List.forall_mem_cons.mpr ⟨rfl, Text.isPlain_of_mem_toDigits n⟩⟩

lemma unquoted_offsetField (offset : Option Nat) : Text.Unquoted (offsetField offset) := by
  cases offset with
  | none => simp [offsetField, Text.Unquoted]
  | some n => exact unquoted_hexOffset n

/-- **No field has to be quoted.** -/
lemma unquoted_namedRow (a : Analysis) (entry : Instruction × Nat) :
    ∀ field ∈ (namedRow a entry).fields, Text.Unquoted field := by
  have hoperand : Text.Unquoted entry.1.operandHex := by
    refine Text.unquoted_of_isPlain ?_
    rw [Instruction.operandHex, Hex.encode, String.toList_ofList]
    exact Hex.isPlain_of_mem_digits entry.1.operand
  have hsize : Text.Unquoted (toString entry.1.size) := by
    refine Text.unquoted_of_isPlain fun c hc => ?_
    have hdigit : c.isDigit = true :=
      Nat.isDigit_of_mem_toDigits (b := 10) (by decide) (by decide) (by simpa using hc)
    simp [Text.isPlain, Char.isAlphanum, hdigit]
  have hcategory : ∀ family : Opcode.Category, Text.Unquoted family.text := by
    intro family
    cases family <;> simp [Opcode.Category.text, Text.Unquoted]
  have hflag : ∀ b : Bool, Text.Unquoted (if b then "true" else "false") := by
    intro b
    cases b <;> simp [Text.Unquoted]
  simp only [Row.fields, namedRow, List.forall_mem_cons]
  exact ⟨unquoted_hexOffset _, unquoted_offsetField _,
    Text.unquoted_of_isPlain fun c => Opcode.isPlain_of_mem_text, hoperand, hsize, hcategory _,
    unquoted_offsetField _, hflag _, by simp⟩

/-- **The instruction can be read off its row.** -/
lemma instruction?_namedRow (a : Analysis) (entry : Instruction × Nat) :
    (namedRow a entry).instruction? = some entry.1 := by
  have hoperand : Hex.decode entry.1.operandHex.toList = .ok entry.1.operand := by
    rw [Instruction.operandHex, Hex.encode, String.toList_ofList, Hex.decode_digits]
  have hopcode : Opcode.parse (namedRow a entry).opcode = .ok entry.1.opcode := by
    simp only [namedRow, Opcode.parse_text]
  exact Row.instruction?_eq_some (Text.readOffset?_hexOffset _) hopcode hoperand

lemma mapM_instruction?_namedRow (a : Analysis) (entries : List (Instruction × Nat)) :
    (entries.map (namedRow a)).mapM Row.instruction? = some (entries.map Prod.fst) := by
  induction entries with
  | nil => rfl
  | cons entry entries ih => simp [instruction?_namedRow, ih]

/-- **The rows can be told apart.** -/
lemma cells_render {a : Analysis} (hsome : a.disassembly.instructions ≠ #[]) :
    cells (render a) = header :: rows a := by
  have hrows : rows a ≠ [] := by simpa [rows] using hsome
  have hrender : render a = Text.unlines ((header :: rows a).map (String.intercalate ",")) := by
    rw [render, if_neg (by simpa using hrows), Text.unlines, List.map_map]
    rfl
  rw [hrender, cells_unlines]
  refine List.forall_mem_cons.mpr ⟨⟨by simp [header], by simp [header, Text.Unquoted]⟩, ?_⟩
  rw [rows_eq_map, List.forall_mem_map]
  exact fun entry _ => ⟨by simp [Row.fields], unquoted_namedRow a entry⟩

section Described

variable {image : Image} {options : Analysis.Options} {a : Analysis} {i : Instruction}

lemma describes_namedRow (h : a.MadeOf image options)
    (hi : a.disassembly.instructions[k]? = some i) : (namedRow a (i, k)).Describes a k i := by
  obtain ⟨hlt, -⟩ := Array.getElem?_eq_some_iff.mp hi
  obtain ⟨flow, hflow⟩ : ∃ flow, a.flow = some flow := by
    cases hflow : a.flow with
    | none => simp [(h.nothing hflow).1] at hlt
    | some flow => exact ⟨flow, rfl⟩
  have hcharts := (h.charts flow hflow).2
  have hloops : a.loops = flow.loops := by rw [Analysis.loops, hflow]; rfl
  obtain ⟨b, hb⟩ : ∃ b, a.blocks.filter (k ∈ ·.nodes) = [b] := by
    rw [Analysis.blocks, hflow]
    refine exists_filter_eq_singleton ?_ ?_
    · exact hcharts.blocks ▸ List.nodup_range
    · rw [Option.map_some, Option.getD_some, hcharts.blocks, Graph.ids, List.mem_range, hcharts.size_eq]
      exact hlt
  refine ⟨unquoted_namedRow a _, instruction?_namedRow a _, ⟨b, hb, ?_⟩, by rw [namedRow],
    by rw [namedRow], ?_, ?_, ?_⟩
  · simp [namedRow, getElem?_blockStarts, hb, offsetField]
  · intro l hl
    have hheader := (hcharts.loops l (hloops ▸ List.mem_of_find?_eq_some hl)).1
    rw [hcharts.size_eq] at hheader
    have hj := Array.getElem?_eq_getElem hheader
    refine ⟨_, hj, ?_⟩
    simp [namedRow, getElem?_loopHeaders, hl, hflow, hcharts.offsetD_eq hj, offsetField]
  · intro hnone
    simp [namedRow, getElem?_loopHeaders, hnone, hflow, offsetField]
  · have hexit : flow.graph.isExit k = i.opcode.isTerminal := by
      rw [Graph.isExit, hcharts.instruction?_eq, hi]
      rfl
    simp [namedRow, hflow, hexit, Opcode.isTerminal_iff]

end Described

/-- **The table gives back the instructions.**  Split at its line breaks and commas, it has a row of names
and below it a row of eight fields for every instruction, none of which had to be quoted.  The instructions
can be read off the rows.  A row also has the start of the one block that the instruction is in, the offset
of the header of the first loop that it is in, and whether it leaves the contract. -/
theorem rows_describe_instructions (image : Image) (options : Analysis.Options) {a : Analysis}
    (h : analyze image options = .ok a) (hsome : a.disassembly.instructions ≠ #[]) :
    ∃ rows : List Row, cells (render a) = header :: rows.map Row.fields ∧
      rows.length = a.disassembly.instructions.size ∧
      rows.mapM Row.instruction? = some a.disassembly.instructions.toList ∧
      ∀ k (r : Row) i, rows[k]? = some r → a.disassembly.instructions[k]? = some i → r.Describes a k i := by
  have hmade := madeOf_of_analyze h
  refine ⟨a.disassembly.instructions.toList.zipIdx.map (namedRow a), ?_, by simp, ?_, ?_⟩
  · rw [cells_render hsome, rows_eq_map, List.map_map]
    rfl
  · rw [mapM_instruction?_namedRow, List.zipIdx_map_fst]
  · intro k r i hr hi
    have hentry : a.disassembly.instructions.toList.zipIdx[k]? = some (i, k) := by
      simpa using hi
    rw [List.getElem?_map, hentry] at hr
    obtain rfl := Option.some.inj hr
    exact describes_namedRow hmade hi

/-- A loop with a byte behind it that is no opcode, and an exit. -/
def loopAndExit : Image := #[0x5b, 0x60, 0x00, 0x57, 0x0c, 0xf3]

/-- The instructions of this code. -/
def loopAndExitListing : Array Instruction :=
  #[⟨0, .jumpdest, []⟩, ⟨1, ⟨0x60⟩, [0x00]⟩, ⟨3, .jumpi, []⟩, ⟨4, ⟨0x0c⟩, []⟩, ⟨5, .ret, []⟩]

/-- The five instructions are read off the table of this code, and the last row is that of an exit. -/
theorem rows_describe_loopAndExit :
    ∃ (a : Analysis) (rows : List Row), analyze loopAndExit .standard = .ok a ∧
      cells (render a) = header :: rows.map Row.fields ∧
      rows.mapM Row.instruction? = some loopAndExitListing.toList ∧
      ∃ last, rows[4]? = some last ∧ last.isExit = "true" := by
  have himage : loopAndExit ≠ #[] := by decide
  obtain ⟨a, ha, hmade⟩ := exists_madeOf himage .standard
  have hread : Strategy.linear.disassemble loopAndExit = .ok ⟨loopAndExitListing, 0⟩ := by cbv
  have hlisting : a.disassembly = ⟨loopAndExitListing, 0⟩ :=
    Except.ok.inj (hmade.read.symm.trans hread)
  obtain ⟨rows, hcells, hlength, hread, hdescribes⟩ :=
    rows_describe_instructions loopAndExit .standard ha (by simp [hlisting, loopAndExitListing])
  rw [hlisting] at hlength hread hdescribes
  have hlast := List.getElem?_eq_getElem (hlength ▸ (by decide : 4 < loopAndExitListing.size))
  exact ⟨a, rows, ha, hcells, hread, _, hlast, (hdescribes 4 _ _ hlast rfl).isExit_eq⟩

end Report.Table

end BytecodeFlow
