import Mathlib
import BytecodeFlow.Analysis
import BytecodeFlow.Proofs.LoopCycles
import BytecodeFlow.Proofs.Offsets
import BytecodeFlow.Proofs.Passes
import BytecodeFlow.Proofs.Strategies

/-!
# The analysis of an image always has a result

Reading an image fails only if it is empty.  A graph is not built if there are no instructions or if
they do not ascend, and a pass over it fails where it comes to a node that does not exist.  This file
shows that none of this happens between reading an image and reporting on it.

**From bytes to a graph.**  Both strategies give instructions that share no byte (`Strategy.faithful`), so
they ascend and a graph can be built of them (`Flow.Charts.exists_ofInstructions`).  There is nothing to
build it from exactly if the image starts with a push that is cut short (`StartsCutShort`).

**Node numbers.**  Blocks, loops and paths name nodes by their numbers.  All of them are numbers of nodes
of the graph: the blocks hold every node once (`flatMap_nodes_of_blocks`), a loop is a way through the
code (`Closed.lt_of_mem_loops`), and a path is a way to an exit, wherever the limits cut the search
(`Closed.exitWalk_of_mem_paths`).

**The result.**  `Analysis.MadeOf` says what an analysis is made of, and every analysis that there is has
these parts (`madeOf_of_analyze`).  `Analysis.Complete` collects what an analysis has to be, and
`analyze_total` shows that there is one for every image that is not empty.
-/

namespace BytecodeFlow

/-! ## Blocks -/

/-- What a function that can fail keeps of its arguments, the list of its results keeps of theirs. -/
lemma map_of_mapM_eq_ok {α β : Type} {f : α → Except Error β} {key : β → α}
    (hkey : ∀ x y, f x = .ok y → key y = x) (list : List α) :
    ∀ ys, list.mapM f = .ok ys → ys.map key = list := by
  induction list with
  | nil =>
      intro ys h
      obtain rfl : [] = ys := Except.ok.inj h
      rfl
  | cons x list ih =>
      intro ys h
      rw [List.mapM_cons] at h
      obtain ⟨y, hy, h⟩ := exists_of_bind_eq_ok h
      obtain ⟨rest, hrest, h⟩ := exists_of_bind_eq_ok h
      obtain rfl : y :: rest = ys := Except.ok.inj h
      rw [List.map_cons, hkey x y hy, ih rest hrest]

namespace Graph

variable {g : Graph}

lemma nodes_of_blockOf (nodes : List Nat) (block : Block) (h : g.blockOf nodes = .ok block) :
    block.nodes = nodes := by
  cases nodes with
  | nil =>
      obtain rfl : ⟨0, [], []⟩ = block := Except.ok.inj h
      rfl
  | cons first rest =>
      simp only [blockOf, List.head?_cons] at h
      obtain ⟨start, _, h⟩ := exists_of_bind_eq_ok h
      obtain ⟨targets, _, h⟩ := exists_of_bind_eq_ok h
      obtain rfl : ⟨start, first :: rest, targets⟩ = block := Except.ok.inj h
      rfl

/-- **The blocks hold every node once**, in the order of the code. -/
lemma flatMap_nodes_of_blocks {blocks : List Block} (h : g.blocks = .ok blocks) :
    blocks.flatMap Block.nodes = g.ids := by
  rw [List.flatMap_def, map_of_mapM_eq_ok nodes_of_blockOf _ _ h, flatten_cutBehind]

/-! ## Loops -/

lemma Closed.lt_of_mem_loops (hg : g.Closed) (hentry : g.entry < g.size) {loops : List Loop}
    (h : g.loops = .ok loops) :
    ∀ l ∈ loops, l.header < g.size ∧ (∀ id ∈ l.nodes, id < g.size) ∧
      ∀ exit ∈ l.exit, exit < g.size := by
  obtain ⟨found, hfound, hrange⟩ := hg.loops_in_range hentry
  obtain ⟨last, hlast, ⟨hsound, _⟩, _⟩ := (Scan.kept_account g).loops hg
  obtain rfl : found = loops := Except.ok.inj (hfound.symm.trans h)
  obtain rfl : last.loops.toList = found := Except.ok.inj (hlast.symm.trans h)
  intro l hl
  obtain ⟨hheader, hexit⟩ := hrange l hl
  obtain ⟨tail, body, hchain, hbody⟩ := hsound l hl
  refine ⟨hheader, ?_, hexit⟩
  rw [hbody]
  exact hg.lt_of_mem_chain hheader hchain

end Graph

/-! ## Paths -/

/-- Whatever the limits, nothing is recorded that was not tried. -/
lemma Limits.mem_of_mem_cut {limits : Limits} {path : List Nat} (list : List (Option (List Nat))) :
    ∀ (steps : Nat) (found : Array (List Nat)), path ∈ (limits.cut steps found list).paths →
      path ∈ found ∨ some path ∈ list := by
  induction list with
  | nil => exact fun steps found h => Or.inl h
  | cons entry list ih =>
      intro steps found h
      rw [cut.eq_def] at h
      dsimp only at h
      split at h
      · exact Or.inl h
      · split at h
        · exact (ih _ _ h).imp_right (List.mem_cons_of_mem _)
        · split at h
          · exact Or.inl h
          · rcases ih _ _ h with hpath | hpath
            · rcases Array.mem_push.mp hpath with hpath | rfl
              · exact Or.inl hpath
              · exact Or.inr List.mem_cons_self
            · exact Or.inr (List.mem_cons_of_mem _ hpath)

namespace Graph

variable {g : Graph} {loops : List Loop}

/-- **Whatever the limits, every path is a way from the entry to an exit.** -/
lemma Closed.exitWalk_of_mem_paths (hg : g.Closed) (hentry : g.entry < g.size)
    (hloops : ∀ l ∈ loops, ∀ exit ∈ l.exit, exit < g.size) {limits : Limits} {found : PathSet}
    (h : g.paths loops limits = .ok found) : ∀ path ∈ found.paths, g.ExitWalk loops g.entry path := by
  intro path hpath
  cases hexit : g.isExit g.entry with
  | true =>
      rw [exitWalk_of_isExit hexit]
      rw [paths, if_pos hexit] at h
      split_ifs at h
      · obtain rfl := Except.ok.inj h
        simp at hpath
      · obtain rfl := Except.ok.inj h
        simpa using hpath
  | false =>
      rw [hg.paths_eq hloops hentry hexit] at h
      obtain rfl := Except.ok.inj h
      have hfree : ¬(g.entry ∈ ([] : List Nat) ∨ g.size ≤ g.entry) := by simpa using hentry
      have htried := (Limits.mem_of_mem_cut _ _ _ hpath).resolve_left (by simp)
      have hsearch : path ∈ search g.size (g.choices loops) g.isExit [] g.entry := by
        obtain ⟨child, hchild, htried⟩ := List.mem_flatMap.mp htried
        rw [search, if_neg hfree, if_neg (by simp [hexit]), List.mem_flatMap]
        refine ⟨child, hchild, ?_⟩
        rw [← filterMap_tries]
        exact List.mem_filterMap.mpr ⟨_, htried, rfl⟩
      obtain ⟨walk, rfl, hwalk, _⟩ :=
        (mem_search (fun id x => hg.lt_of_mem_choices hloops) hentry).mp hsearch
      exact hwalk

/-- A way goes through nodes of the graph only. -/
lemma ExitWalk.lt_size (hg : g.Closed) (hloops : ∀ l ∈ loops, ∀ exit ∈ l.exit, exit < g.size)
    {start : Nat} {walk : List Nat} (h : g.ExitWalk loops start walk) (hstart : start < g.size) :
    ∀ id ∈ walk, id < g.size := by
  obtain ⟨tail, rfl⟩ := List.head?_eq_some_iff.mp h.starts
  have hlinked := h.linked
  clear h
  induction tail generalizing start with
  | nil => simpa using hstart
  | cons child tail ih =>
      obtain ⟨hchild, hrest⟩ := List.isChain_cons_cons.mp hlinked
      intro id hid
      rcases List.mem_cons.mp hid with rfl | hid
      · exact hstart
      · exact ih (hg.lt_of_mem_choices hloops hchild) hrest id hid

end Graph

/-! ## The graph with its blocks and loops -/

/-- **What the graph of a list of instructions is, with its blocks and loops**: it has one node for every
instruction, and all numbers name nodes. -/
structure Flow.Charts (instructions : Array Instruction) (flow : Flow) : Prop where
  instructions_eq : flow.graph.instructions = instructions
  size_eq : flow.graph.size = instructions.size
  closed : flow.graph.Closed
  entry_lt : flow.graph.entry < flow.graph.size
  blocks : flow.blocks.flatMap Block.nodes = flow.graph.ids
  loops : ∀ l ∈ flow.loops, l.header < flow.graph.size ∧ (∀ id ∈ l.nodes, id < flow.graph.size) ∧
    ∀ exit ∈ l.exit, exit < flow.graph.size

lemma Flow.Charts.exists_ofInstructions {instructions : Array Instruction}
    (hsome : instructions ≠ #[]) (hascending : Ascending Instruction.offset instructions) :
    ∃ flow, Flow.ofInstructions instructions = .ok flow ∧ flow.Charts instructions := by
  have hbuild := Graph.build_eq_ok_iff.mpr ⟨hsome, hascending, rfl⟩
  generalize Graph.mk (instructions.mapIdx (Graph.nodeOf instructions)) = g at hbuild
  have hinstructions := Graph.instructions_of_build hbuild
  have hclosed := Graph.closed_of_build hbuild
  have hsize := Graph.size_of_build hbuild
  have hentry : g.entry < g.size := hsize ▸ Array.size_pos_iff.mpr hsome
  obtain ⟨blocks, hblocks⟩ := hclosed.blocks_eq_ok
  obtain ⟨loops, hloops, _⟩ := hclosed.loops_in_range hentry
  refine ⟨⟨g, blocks, loops⟩, ?_, hinstructions, hsize, hclosed, hentry,
    Graph.flatMap_nodes_of_blocks hblocks, hclosed.lt_of_mem_loops hentry hloops⟩
  simp only [Flow.ofInstructions, hbuild, hblocks, hloops, bind, Except.bind, pure, Except.pure]

lemma Flow.Charts.instruction?_eq {instructions : Array Instruction} {flow : Flow}
    (h : flow.Charts instructions) (id : Nat) : flow.graph.instruction? id = instructions[id]? := by
  rw [← h.instructions_eq, Graph.getElem?_instructions]

lemma Flow.Charts.offsetD_eq {instructions : Array Instruction} {flow : Flow}
    (h : flow.Charts instructions) {id : Nat} {i : Instruction} (hi : instructions[id]? = some i) :
    flow.graph.offsetD id = i.offset := by
  rw [← h.instruction?_eq, Graph.instruction?, Option.map_eq_some_iff] at hi
  obtain ⟨node, hnode, rfl⟩ := hi
  rw [Graph.offsetD, hnode]
  rfl

/-- **The paths can be found, within any limits**, and lead through nodes of the graph. -/
lemma Flow.Charts.exists_paths {instructions : Array Instruction} {flow : Flow}
    (h : flow.Charts instructions) (limits : Limits) :
    ∃ found, flow.graph.paths flow.loops limits = .ok found ∧
      ∀ path ∈ found.paths, ∀ id ∈ path, id < flow.graph.size := by
  have hexits := fun l hl => (h.loops l hl).2.2
  obtain ⟨found, hfound⟩ := h.closed.paths_eq_ok h.entry_lt hexits limits
  refine ⟨found, hfound, fun path hpath => ?_⟩
  have hwalk := h.closed.exitWalk_of_mem_paths h.entry_lt hexits hfound path hpath
  exact hwalk.lt_size h.closed hexits h.entry_lt

/-! ## The analysis -/

/-- Whether an image starts with a push of one to thirty-two bytes and has no more bytes behind it than
these. -/
def StartsCutShort (image : Image) : Prop :=
  ∃ byte n, image[0]? = some byte ∧ byte.toNat = 0x5f + n ∧ 1 ≤ n ∧ n ≤ 32 ∧ image.size ≤ 1 + n

lemma Opcode.isPush_iff {op : Opcode} :
    op.isPush = true ↔ 1 ≤ op.byte.toNat - 0x5f ∧ op.byte.toNat - 0x5f ≤ 32 := by
  simp only [isPush, Bool.and_eq_true, decide_eq_true_eq, UInt8.le_iff_toNat_le]
  have : (0x60 : UInt8).toNat = 0x60 := rfl
  have : (0x7f : UInt8).toNat = 0x7f := rfl
  omega

lemma decodeAt?_zero_eq_none_iff {image : Image} (himage : image ≠ #[]) :
    decodeAt? image 0 = none ↔ StartsCutShort image := by
  obtain ⟨byte, rest, hlist⟩ : ∃ byte rest, image.toList = byte :: rest := by
    exact List.exists_cons_of_ne_nil (by simpa using himage)
  have hdrop : image.toList.drop 0 = byte :: rest := hlist
  have hfirst := (getElem?_of_drop hdrop).1
  have hsize := size_of_drop hdrop
  rw [decodeAt?_of_drop hdrop]
  constructor
  · intro h
    split_ifs at h with hcut
    obtain ⟨hpush, hshort⟩ := hcut
    obtain ⟨hlow, hhigh⟩ := Opcode.isPush_iff.mp hpush
    rw [Opcode.operandSize, if_pos hpush] at hshort
    dsimp only at hlow hhigh hshort
    exact ⟨byte, byte.toNat - 0x5f, hfirst, by omega, hlow, hhigh, by omega⟩
  · rintro ⟨other, n, hother, hbyte, hlow, hhigh, hshort⟩
    obtain rfl : byte = other := Option.some.inj (hfirst.symm.trans hother)
    have hpush : (Opcode.mk byte).isPush = true := by
      rw [Opcode.isPush_iff]
      dsimp only
      omega
    rw [if_pos]
    refine ⟨hpush, ?_⟩
    rw [Opcode.operandSize, if_pos hpush]
    dsimp only
    omega

/-- **What the analysis of an image has to be.**  It accounts for all bytes.  There is no graph exactly if
no instruction was read, which happens exactly if the image starts with a push that is cut short, and
then nothing else was found either; otherwise the graph, its blocks, its loops and its paths name nodes
that there are. -/
structure Analysis.Complete (image : Image) (options : Analysis.Options) (a : Analysis) : Prop where
  read : options.strategy.disassemble image = .ok a.disassembly
  decodedBytes_le : a.disassembly.decodedBytes ≤ image.size
  inputLength_eq : a.inputLength = image.size
  flow_eq_none_iff : a.flow = none ↔ a.disassembly.instructions = #[]
  nothing_iff : a.disassembly.instructions = #[] ↔ StartsCutShort image
  paths_isSome : a.paths.isSome = options.enumeratePaths
  nothing : a.flow = none → a.blocks = [] ∧ a.loops = [] ∧ ∀ found ∈ a.paths, found = .empty
  charts : ∀ flow ∈ a.flow, Flow.ofInstructions a.disassembly.instructions = .ok flow ∧
    flow.Charts a.disassembly.instructions
  paths : ∀ flow ∈ a.flow, ∀ found ∈ a.paths,
    flow.graph.paths flow.loops options.limits = .ok found ∧
      ∀ path ∈ found.paths, ∀ id ∈ path, id < flow.graph.size

section Steps

variable {image : Image} {options : Analysis.Options} {reading : Disassembly.Reading}

/-- The analysis of an image from which nothing is read. -/
lemma analyze_of_empty (hread : options.strategy.read image = .ok reading)
    (hempty : reading.disassembly.instructions = #[]) :
    analyze image options = .ok ⟨options.strategy, reading.disassembly, .ofInstructions #[], none,
      if options.enumeratePaths then some .empty else none,
      reading.refused.map .overlap ++ [.nothingDecoded image.size]⟩ := by
  simp only [analyze, hread, hempty, bind, Except.bind, pure, Except.pure]
  rfl

/-- Otherwise the analysis goes on to the graph, and to the paths if they are asked for. -/
lemma analyze_of_flow {flow : Flow} {found : PathSet}
    (hread : options.strategy.read image = .ok reading)
    (hsome : reading.disassembly.instructions ≠ #[])
    (hflow : Flow.ofInstructions reading.disassembly.instructions = .ok flow)
    (hpaths : flow.graph.paths flow.loops options.limits = .ok found) :
    analyze image options = .ok ⟨options.strategy, reading.disassembly,
      .ofInstructions reading.disassembly.instructions, some flow,
      if options.enumeratePaths then some found else none, reading.refused.map .overlap⟩ := by
  have hempty : reading.disassembly.instructions.isEmpty = false := by simpa using hsome
  simp only [analyze, hread, hempty, hflow, hpaths, bind, Except.bind, pure, Except.pure]
  cases options.enumeratePaths <;> rfl

/-- **What an analysis is made of**: the instructions that were read, and their graph if there are any. -/
structure Analysis.MadeOf (image : Image) (options : Analysis.Options) (a : Analysis) : Prop where
  strategy_eq : a.strategy = options.strategy
  read : options.strategy.disassemble image = .ok a.disassembly
  index_eq : a.index = .ofInstructions a.disassembly.instructions
  ascending : Ascending Instruction.offset a.disassembly.instructions
  nothing : a.flow = none → a.disassembly.instructions = #[] ∧ ∀ found ∈ a.paths, found.paths = #[]
  charts : ∀ flow ∈ a.flow, Flow.ofInstructions a.disassembly.instructions = .ok flow ∧
    flow.Charts a.disassembly.instructions
  path_lt : ∀ flow ∈ a.flow, ∀ found ∈ a.paths, ∀ path ∈ found.paths, ∀ id ∈ path,
    id < flow.graph.size

/-- **An image that is not empty has an analysis.** -/
lemma exists_madeOf (himage : image ≠ #[]) (options : Analysis.Options) :
    ∃ a, analyze image options = .ok a ∧ a.MadeOf image options := by
  obtain ⟨reading, hread, hfaithful⟩ := options.strategy.faithful himage
  have hdisassemble : options.strategy.disassemble image = .ok reading.disassembly := by
    rw [Strategy.disassemble, hread]
    rfl
  by_cases hempty : reading.disassembly.instructions = #[]
  · refine ⟨_, analyze_of_empty hread hempty, rfl, hdisassemble, by rw [hempty], hfaithful.offset_lt,
      fun _ => ⟨hempty, ?_⟩, by simp, by simp⟩
    cases options.enumeratePaths <;> simp [PathSet.empty]
  · obtain ⟨flow, hflow, hcharts⟩ := Flow.Charts.exists_ofInstructions hempty hfaithful.offset_lt
    obtain ⟨found, hfound, hrange⟩ := hcharts.exists_paths options.limits
    refine ⟨_, analyze_of_flow hread hempty hflow hfound, rfl, hdisassemble, rfl, hfaithful.offset_lt,
      by simp, by simp [hflow, hcharts], ?_⟩
    cases options.enumeratePaths with
    | false => simp
    | true => simpa using hrange

lemma madeOf_of_analyze {a : Analysis} (h : analyze image options = .ok a) :
    a.MadeOf image options := by
  have himage : image ≠ #[] := by
    rintro rfl
    rw [analyze] at h
    cases hstrategy : options.strategy <;> rw [hstrategy] at h <;> cases h
  obtain ⟨b, hb, hmade⟩ := exists_madeOf himage options
  obtain rfl : a = b := Except.ok.inj (h.symm.trans hb)
  exact hmade

end Steps

/-- **The analysis of an image fails only if the image is empty.**  Otherwise it has a result, whatever
the strategy and the limits are, and the result is complete. -/
theorem analyze_total (image : Image) (options : Analysis.Options) :
    (image = #[] → analyze image options = .error .emptyInput) ∧
      (image ≠ #[] → ∃ a, analyze image options = .ok a ∧ a.Complete image options) := by
  refine ⟨?_, fun himage => ?_⟩
  · rintro rfl
    rw [analyze]
    cases options.strategy <;> rfl
  · obtain ⟨reading, hread, hfaithful⟩ := options.strategy.faithful himage
    have hnothing : reading.disassembly.instructions = #[] ↔ StartsCutShort image :=
      hfaithful.empty_iff.trans (decodeAt?_zero_eq_none_iff himage)
    have hdisassemble : options.strategy.disassemble image = .ok reading.disassembly := by
      rw [Strategy.disassemble, hread]
      rfl
    by_cases hempty : reading.disassembly.instructions = #[]
    · refine ⟨_, analyze_of_empty hread hempty, hdisassemble, hfaithful.decodedBytes_le,
        hfaithful.decodedBytes_add, by simp [hempty], hnothing, ?_, fun _ => ⟨rfl, rfl, ?_⟩, by simp,
        by simp⟩
      · cases options.enumeratePaths <;> rfl
      · cases options.enumeratePaths <;> simp
    · obtain ⟨flow, hflow, hcharts⟩ := Flow.Charts.exists_ofInstructions hempty hfaithful.offset_lt
      obtain ⟨found, hfound, hrange⟩ := hcharts.exists_paths options.limits
      refine ⟨_, analyze_of_flow hread hempty hflow hfound, hdisassemble, hfaithful.decodedBytes_le,
        hfaithful.decodedBytes_add, by simp [hempty], hnothing, ?_, by simp, ?_, ?_⟩
      · cases options.enumeratePaths <;> rfl
      · intro chart hchart
        obtain rfl : flow = chart := Option.some.inj hchart
        exact ⟨hflow, hcharts⟩
      · intro chart hchart other hother
        obtain rfl : flow = chart := Option.some.inj hchart
        cases henumerate : options.enumeratePaths with
        | false => simp [henumerate] at hother
        | true =>
            obtain rfl : found = other := by simpa [henumerate] using hother
            exact ⟨hfound, hrange⟩

/-- An empty image, a push without its operand, and a jump read along control flow. -/
theorem analyze_total_sample :
    analyze #[] .standard = .error .emptyInput ∧
      (∃ a, analyze #[0x61, 0x5b] .standard = .ok a ∧ a.flow = none ∧ a.inputLength = 2) ∧
      ∃ a flow, analyze Disassembly.skipping ⟨.recursive, true, .none⟩ = .ok a ∧
        a.flow = some flow ∧ flow.graph.size = a.disassembly.instructions.size ∧
        a.inputLength = 6 := by
  refine ⟨(analyze_total #[] .standard).1 rfl, ?_, ?_⟩
  · obtain ⟨a, ha, hcomplete⟩ := (analyze_total #[0x61, 0x5b] .standard).2 (by decide)
    refine ⟨a, ha, hcomplete.flow_eq_none_iff.mpr (hcomplete.nothing_iff.mpr ?_),
      hcomplete.inputLength_eq⟩
    exact ⟨0x61, 2, rfl, rfl, by decide, by decide, by decide⟩
  · obtain ⟨a, ha, hcomplete⟩ :=
      (analyze_total Disassembly.skipping ⟨.recursive, true, .none⟩).2 (by decide)
    cases hflow : a.flow with
    | none =>
        obtain ⟨byte, n, hbyte, hpush, _, _, hsize⟩ :=
          hcomplete.nothing_iff.mp (hcomplete.flow_eq_none_iff.mp hflow)
        obtain rfl : 0x60 = byte := Option.some.inj hbyte
        have hpush : 0x60 = 0x5f + n := hpush
        have hsize : 6 ≤ 1 + n := hsize
        omega
    | some flow =>
        exact ⟨a, flow, ha, hflow, (hcomplete.charts flow hflow).2.size_eq, hcomplete.inputLength_eq⟩

end BytecodeFlow
