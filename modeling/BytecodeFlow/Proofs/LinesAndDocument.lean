import Mathlib
import BytecodeFlow.Report.Document
import BytecodeFlow.Proofs.JsonText
import BytecodeFlow.Proofs.Totality

/-!
# What the two JSON reports tell apart

Two analyses of one image can differ in how the image was read and in the paths that were found.  This file
shows which of this the reports show.

**From texts to values.**  Both reports are made of values without decimals, so equal texts come from equal
values (`Lines.render_eq_iff`, `Document.render_eq_iff`).

**From values to analyses.**  The strategy determines everything but the paths (`MadeOf.parts_eq`), and its
title is in both reports.  A path is written as the offsets of its nodes, which determine the nodes
(`nodesJson_injective`).

**The difference.**  The records have nothing to tell a search that was cut short from one that was not, and
the document has (`lines_and_document_tell_apart`).
-/

namespace BytecodeFlow

/-! ## One image, two analyses -/

/-- **The strategy determines everything but the paths.** -/
lemma Analysis.MadeOf.parts_eq {image : Image} {o₁ o₂ : Analysis.Options} {a₁ a₂ : Analysis}
    (h₁ : a₁.MadeOf image o₁) (h₂ : a₂.MadeOf image o₂) (hstrategy : a₁.strategy = a₂.strategy) :
    a₁.disassembly = a₂.disassembly ∧ a₁.index = a₂.index ∧ a₁.flow = a₂.flow := by
  have hread : a₁.disassembly = a₂.disassembly := by
    refine Except.ok.inj (h₁.read.symm.trans (Eq.trans ?_ h₂.read))
    rw [← h₁.strategy_eq, ← h₂.strategy_eq, hstrategy]
  refine ⟨hread, by rw [h₁.index_eq, h₂.index_eq, hread], ?_⟩
  -- A graph is there exactly if there are instructions, and they determine it.
  have hsome : ∀ flow : Flow, ¬flow.Charts #[] := fun flow hcharts => by
    have := hcharts.entry_lt
    simp [hcharts.size_eq] at this
  cases hflow₁ : a₁.flow with
  | none =>
      cases hflow₂ : a₂.flow with
      | none => rfl
      | some flow =>
          have hcharts := (h₂.charts flow hflow₂).2
          rw [← hread, (h₁.nothing hflow₁).1] at hcharts
          exact absurd hcharts (hsome flow)
  | some flow =>
      obtain ⟨hof, hcharts⟩ := h₁.charts flow hflow₁
      cases hflow₂ : a₂.flow with
      | none =>
          rw [hread, (h₂.nothing hflow₂).1] at hcharts
          exact absurd hcharts (hsome flow)
      | some other =>
          have hother := (h₂.charts other hflow₂).1
          rw [← hread, hof] at hother
          rw [Except.ok.inj hother]

/-- The strategies have different titles. -/
lemma Strategy.title_injective : Function.Injective Strategy.title := by
  intro s t h
  cases s <;> cases t <;> first | rfl | exact absurd h (by decide)

/-- Lists are equal if what a function gives for their elements is, as far as it tells them apart. -/
lemma eq_of_map_eq_map {α β : Type} {f : α → β} {p : α → Prop}
    (hinj : ∀ x y, p x → p y → f x = f y → x = y) {xs ys : List α} (hxs : ∀ x ∈ xs, p x)
    (hys : ∀ y ∈ ys, p y) (h : xs.map f = ys.map f) : xs = ys := by
  induction xs generalizing ys with
  | nil => exact (List.map_eq_nil_iff.mp h.symm).symm
  | cons x xs ih =>
      cases ys with
      | nil => exact absurd h (by simp)
      | cons y ys =>
          simp only [List.map_cons, List.cons.injEq, List.forall_mem_cons] at h hxs hys
          rw [hinj x y hxs.1 hys.1 h.1, ih hxs.2 hys.2 h.2]

/-! ## Nodes by their offsets -/

/-- Nodes are told by their offsets, since the instructions ascend. -/
lemma Flow.Charts.offsetD_injective {instructions : Array Instruction} {flow : Flow}
    (h : flow.Charts instructions) (hascending : Ascending Instruction.offset instructions) {m n : Nat}
    (hm : m < flow.graph.size) (hn : n < flow.graph.size)
    (heq : flow.graph.offsetD m = flow.graph.offsetD n) : m = n := by
  rw [h.size_eq] at hm hn
  have hi := Array.getElem?_eq_getElem hm
  have hj := Array.getElem?_eq_getElem hn
  rw [h.offsetD_eq hi, h.offsetD_eq hj] at heq
  exact hascending.eq_of_key_eq hi hj heq

namespace Report

/-- **The offsets of nodes determine them.** -/
lemma nodesJson_injective {instructions : Array Instruction} {flow : Flow}
    (h : flow.Charts instructions) (hascending : Ascending Instruction.offset instructions)
    (xs ys : List Nat) (hxs : ∀ id ∈ xs, id < flow.graph.size) (hys : ∀ id ∈ ys, id < flow.graph.size)
    (heq : nodesJson flow.graph xs = nodesJson flow.graph ys) : xs = ys := by
  have hoffsets := List.map_injective_iff.mpr (fun _ _ h => Text.hexOffset_injective (Json.string.inj h))
    (Json.array.inj heq)
  exact eq_of_map_eq_map (fun m n => h.offsetD_injective hascending) hxs hys hoffsets

/-! ## Values -/

@[simp] lemma whole_offsetJson (offset : Nat) : (offsetJson offset).Whole :=
  .string _

@[simp] lemma whole_offsetsJson (offsets : List Nat) : (offsetsJson offsets).Whole := by
  simp [offsetsJson]

@[simp] lemma whole_nodesJson (g : Graph) (nodes : List Nat) : (nodesJson g nodes).Whole :=
  whole_offsetsJson _

@[simp] lemma whole_stringOrNull (text : Option String) : (Json.stringOrNull text).Whole := by
  cases text <;> simp [Json.stringOrNull]

@[simp] lemma whole_strings (texts : List String) : (Json.strings texts).Whole := by
  simp [Json.strings]

lemma whole_of_mem_categoryMember (i : Instruction) : ∀ member ∈ categoryMember i, member.2.Whole := by
  unfold categoryMember
  split_ifs <;> simp

lemma whole_of_mem_instructionMembers (i : Instruction) :
    ∀ member ∈ instructionMembers i, member.2.Whole := by
  simp [instructionMembers]

namespace Lines

lemma whole_summary (a : Analysis) : (summary a).Whole := by
  cases hpaths : a.paths <;> simp [summary, kind, hpaths]

lemma whole_instruction (i : Instruction) : (instruction i).Whole := by
  simp only [instruction, Json.whole_object_iff, List.forall_mem_append]
  exact ⟨⟨whole_of_mem_categoryMember i, whole_of_mem_instructionMembers i⟩, by simp [kind]⟩

lemma whole_of_mem_flowRecords (flow : Flow) (paths : Option PathSet) :
    ∀ record ∈ flowRecords flow paths, record.Whole := by
  simp only [flowRecords, List.forall_mem_append, List.forall_mem_map]
  refine ⟨⟨by simp [block, kind], by simp [loop, kind]⟩, ?_⟩
  cases paths with
  | none => simp
  | some found =>
      rw [List.forall_mem_map]
      simp [path, kind]

/-- Nothing in a record is a fraction. -/
lemma whole_of_mem_records (a : Analysis) : ∀ record ∈ records a, record.Whole := by
  simp only [records, List.forall_mem_append, List.forall_mem_cons, List.forall_mem_map]
  refine ⟨⟨whole_summary a, fun i _ => whole_instruction i⟩, ?_⟩
  cases a.flow with
  | none => simp
  | some flow => exact whole_of_mem_flowRecords flow a.paths

/-- The records as texts. -/
def texts (a : Analysis) : List String :=
  (records a).map Json.compact

/-- The report in lines has one line for each record. -/
lemma render_eq_unlines (a : Analysis) : render a = Text.unlines (texts a) := by
  rw [render, Text.unlines, texts, List.map_map]
  rfl

/-- No record is spread over two lines. -/
lemma newline_not_mem_of_mem_texts (a : Analysis) : ∀ line ∈ texts a, '\n' ∉ line.toList :=
  List.forall_mem_map.mpr fun record hrecord =>
    Json.newline_not_mem_compact (whole_of_mem_records a record hrecord)

/-- **The records can be read off the report.** -/
lemma render_eq_iff {a b : Analysis} : render a = render b ↔ records a = records b := by
  refine ⟨fun h => ?_, fun h => by rw [render, h, render]⟩
  have htexts : texts a = texts b := by
    rw [← Text.lines_unlines (newline_not_mem_of_mem_texts a), ← render_eq_unlines, h, render_eq_unlines,
      Text.lines_unlines (newline_not_mem_of_mem_texts b)]
  exact eq_of_map_eq_map (fun _ _ => Json.compact_injective) (whole_of_mem_records a)
    (whole_of_mem_records b) htexts

end Lines

namespace Document

lemma whole_flowMembers (a : Analysis) : ∀ member ∈ flowMembers a, member.2.Whole := by
  unfold flowMembers
  cases a.flow with
  | none => simp
  | some flow =>
      have hblock : ∀ b, (block flow.graph b).Whole := fun b => by simp [block]
      have hloop : ∀ l, (loop flow.graph l).Whole := fun l => by simp [loop]
      simp [hblock, hloop]

lemma whole_paths (flow : Option Flow) (found : PathSet) : (paths flow found).Whole := by
  cases flow <;> simp [paths]

/-- Nothing in the document is a fraction. -/
lemma whole_value (a : Analysis) : (value a).Whole := by
  have hinstruction : ∀ i, (instruction i).Whole := fun i => by
    simp only [instruction, Json.whole_object_iff, List.forall_mem_append]
    exact ⟨whole_of_mem_instructionMembers i, whole_of_mem_categoryMember i⟩
  simp only [value, Json.whole_object_iff, List.forall_mem_append]
  refine ⟨⟨by simp [hinstruction], whole_flowMembers a⟩, ?_⟩
  cases a.paths <;> simp [whole_paths]

/-- **The value can be read off the report.** -/
lemma render_eq_iff {a b : Analysis} : render a = render b ↔ value a = value b :=
  ⟨Json.pretty_injective (whole_value a) (whole_value b), fun h => by rw [render, h, render]⟩

end Document

/-! ## Analyses -/

section TwoAnalyses

variable {image : Image} {o₁ o₂ : Analysis.Options} {a₁ a₂ : Analysis} {found₁ found₂ : PathSet}

/-- **Paths are told apart by the offsets of their nodes.** -/
lemma paths_eq_of_nodesJson_eq (h₁ : a₁.MadeOf image o₁) (h₂ : a₂.MadeOf image o₂)
    (hflow : a₁.flow = a₂.flow) (hfound₁ : a₁.paths = some found₁) (hfound₂ : a₂.paths = some found₂)
    (h : ∀ flow, a₁.flow = some flow →
      found₁.paths.toList.map (nodesJson flow.graph) = found₂.paths.toList.map (nodesJson flow.graph)) :
    found₁.paths = found₂.paths := by
  cases hgraph : a₁.flow with
  | none => rw [(h₁.nothing hgraph).2 _ hfound₁, (h₂.nothing (hflow ▸ hgraph)).2 _ hfound₂]
  | some flow =>
      have hcharts := (h₁.charts flow hgraph).2
      have hlists := eq_of_map_eq_map (nodesJson_injective hcharts h₁.ascending)
        (by simpa using h₁.path_lt flow hgraph found₁ hfound₁)
        (by simpa using h₂.path_lt flow (hflow ▸ hgraph) found₂ hfound₂) (h flow hgraph)
      exact Array.toList_inj.mp hlists

/-- Records of paths are told by the paths and not by their numbers alone. -/
lemma Lines.nodesJson_eq_of_path_eq (g : Graph) (n : Nat) {xs ys : List (List Nat)}
    (h : (xs.zipIdx n).map (Lines.path g) = (ys.zipIdx n).map (Lines.path g)) :
    xs.map (nodesJson g) = ys.map (nodesJson g) := by
  induction xs generalizing ys n with
  | nil => simpa using h
  | cons x xs ih =>
      cases ys with
      | nil => simp at h
      | cons y ys =>
          obtain ⟨hfirst, hrest⟩ := List.cons.inj h
          have hnodes : nodesJson g x = nodesJson g y := by simpa [path] using hfirst
          rw [List.map_cons, List.map_cons, hnodes, ih (n + 1) hrest]

/-- **What the records of an analysis show**: the strategy and the paths. -/
lemma Lines.records_eq_iff (h₁ : a₁.MadeOf image o₁) (h₂ : a₂.MadeOf image o₂) :
    Lines.records a₁ = Lines.records a₂ ↔
      a₁.strategy = a₂.strategy ∧ a₁.paths.map (·.paths) = a₂.paths.map (·.paths) := by
  constructor
  · intro h
    have hsummary := (List.cons.inj h).1
    simp only [Lines.summary, Json.object.injEq, List.cons.injEq, Prod.mk.injEq, Json.string.injEq,
      true_and, and_true] at hsummary
    obtain ⟨-, -, -, hcount, htitle, -⟩ := hsummary
    have hstrategy := Strategy.title_injective htitle
    obtain ⟨hdisassembly, -, hflow⟩ := h₁.parts_eq h₂ hstrategy
    refine ⟨hstrategy, ?_⟩
    cases hfound₁ : a₁.paths with
    | none =>
        cases hfound₂ : a₂.paths with
        | none => rfl
        | some found₂ => simp [hfound₁, hfound₂, Json.nat] at hcount
    | some found₁ =>
        cases hfound₂ : a₂.paths with
        | none => simp [hfound₁, hfound₂, Json.nat] at hcount
        | some found₂ =>
            refine congrArg some (paths_eq_of_nodesJson_eq h₁ h₂ hflow hfound₁ hfound₂ ?_)
            intro flow hgraph
            simp only [Lines.records, Lines.flowRecords, ← hflow, hgraph, ← hdisassembly, hfound₁, hfound₂,
              List.cons_append, List.cons.injEq, List.append_assoc, List.append_cancel_left_eq] at h
            exact Lines.nodesJson_eq_of_path_eq flow.graph 0 h.2
  · rintro ⟨hstrategy, hpaths⟩
    obtain ⟨hdisassembly, -, hflow⟩ := h₁.parts_eq h₂ hstrategy
    cases hfound₁ : a₁.paths <;> cases hfound₂ : a₂.paths <;>
      simp_all [Lines.records, Lines.summary, Lines.flowRecords, Analysis.blocks, Analysis.loops]

/-- **What the document shows**: the strategy, the paths and whether the search was cut short. -/
lemma Document.value_eq_iff (h₁ : a₁.MadeOf image o₁) (h₂ : a₂.MadeOf image o₂) :
    Document.value a₁ = Document.value a₂ ↔
      (a₁.strategy = a₂.strategy ∧ a₁.paths.map (·.paths) = a₂.paths.map (·.paths)) ∧
        a₁.paths.map (·.truncated) = a₂.paths.map (·.truncated) := by
  constructor
  · intro h
    have hmembers := Json.object.inj h
    have hstrategy : a₁.strategy = a₂.strategy :=
      Strategy.title_injective (Json.string.inj (Prod.mk.inj (List.cons.inj hmembers).1).2)
    obtain ⟨hdisassembly, hindex, hflow⟩ := h₁.parts_eq h₂ hstrategy
    simp only [Document.flowMembers, hstrategy, hdisassembly, hindex, hflow,
      List.append_cancel_left_eq] at hmembers
    cases hfound₁ : a₁.paths with
    | none =>
        cases hfound₂ : a₂.paths with
        | none => exact ⟨⟨hstrategy, rfl⟩, rfl⟩
        | some found₂ => simp [hfound₁, hfound₂] at hmembers
    | some found₁ =>
        cases hfound₂ : a₂.paths with
        | none => simp [hfound₁, hfound₂] at hmembers
        | some found₂ =>
            simp only [hfound₁, hfound₂, Document.paths, List.cons.injEq, Prod.mk.injEq, Json.object.injEq,
              Json.bool.injEq, Json.array.injEq, true_and, and_true] at hmembers
            obtain ⟨-, htruncated, hlisted⟩ := hmembers
            have hpaths : found₁.paths = found₂.paths := by
              refine paths_eq_of_nodesJson_eq h₁ h₂ hflow hfound₁ hfound₂ fun flow hgraph => ?_
              simpa only [← hflow, hgraph] using hlisted
            exact ⟨⟨hstrategy, congrArg some hpaths⟩, congrArg some htruncated⟩
  · rintro ⟨⟨hstrategy, hpaths⟩, htruncated⟩
    obtain ⟨hdisassembly, hindex, hflow⟩ := h₁.parts_eq h₂ hstrategy
    cases hfound₁ : a₁.paths <;> cases hfound₂ : a₂.paths <;>
      simp_all [Document.value, Document.flowMembers, Document.paths]

end TwoAnalyses

/-- **What the two reports of one image tell apart.**  The records show the strategy and the paths, and
with them everything else that the document shows, except for whether the search was cut short. -/
theorem lines_and_document_tell_apart (image : Image) (o₁ o₂ : Analysis.Options) {a₁ a₂ : Analysis}
    (h₁ : analyze image o₁ = .ok a₁) (h₂ : analyze image o₂ = .ok a₂) :
    (Lines.render a₁ = Lines.render a₂ ↔
      a₁.strategy = a₂.strategy ∧ a₁.paths.map (·.paths) = a₂.paths.map (·.paths)) ∧
    (Document.render a₁ = Document.render a₂ ↔
      Lines.render a₁ = Lines.render a₂ ∧ a₁.paths.map (·.truncated) = a₂.paths.map (·.truncated)) := by
  have hmade₁ := madeOf_of_analyze h₁
  have hmade₂ := madeOf_of_analyze h₂
  have hlines := Lines.render_eq_iff.trans (Lines.records_eq_iff hmade₁ hmade₂)
  refine ⟨hlines, ?_⟩
  rw [hlines, Document.render_eq_iff, Document.value_eq_iff hmade₁ hmade₂]

/-- Code that halts at once, with an instruction behind it.  No path leads to an exit. -/
def twoStops : Image := #[0x00, 0x00]

/-- The graph of this code, with its block. -/
def twoStopsFlow : Flow where
  graph := ⟨#[⟨⟨0, .stop, []⟩, some 1, none, none⟩, ⟨⟨1, .stop, []⟩, none, none, none⟩]⟩
  blocks := [⟨0, [0, 1], []⟩]
  loops := []

/-- The analysis of this code with the paths that were found, if they were asked for. -/
def twoStopsAnalysis (paths : Option PathSet) : Analysis where
  strategy := .linear
  disassembly := ⟨#[⟨0, .stop, []⟩, ⟨1, .stop, []⟩], 0⟩
  index := .ofInstructions #[⟨0, .stop, []⟩, ⟨1, .stop, []⟩]
  flow := some twoStopsFlow
  paths := paths
  warnings := []

lemma analyze_twoStops (enumerate : Bool) {limits : Limits} {found : PathSet}
    (hfound : twoStopsFlow.graph.paths twoStopsFlow.loops limits = .ok found) :
    analyze twoStops ⟨.linear, enumerate, limits⟩ =
      .ok (twoStopsAnalysis (if enumerate then some found else none)) := by
  have hread : (Analysis.Options.mk .linear enumerate limits).strategy.read twoStops =
      .ok ⟨(twoStopsAnalysis none).disassembly, []⟩ := by cbv
  have hsome : (twoStopsAnalysis none).disassembly.instructions ≠ #[] := by decide
  have hflow : Flow.ofInstructions (twoStopsAnalysis none).disassembly.instructions = .ok twoStopsFlow := by
    cbv
  exact analyze_of_flow hread hsome hflow hfound

/-- A limit that is not reached shows in neither report, and that no paths were asked for shows in both. -/
theorem lines_and_document_tell_apart_twoStops :
    ∃ a b c, analyze twoStops ⟨.linear, true, .none⟩ = .ok a ∧
      analyze twoStops ⟨.linear, true, ⟨none, some 5⟩⟩ = .ok b ∧
      analyze twoStops ⟨.linear, false, .none⟩ = .ok c ∧
      (Lines.render a = Lines.render b ∧ Document.render a = Document.render b) ∧
      Lines.render a ≠ Lines.render c ∧ Document.render a ≠ Document.render c := by
  have hunlimited : twoStopsFlow.graph.paths twoStopsFlow.loops .none = .ok ⟨#[], false⟩ := by cbv
  have hlimited : twoStopsFlow.graph.paths twoStopsFlow.loops ⟨none, some 5⟩ = .ok ⟨#[], false⟩ := by cbv
  have ha := analyze_twoStops true hunlimited
  have hb := analyze_twoStops true hlimited
  have hc := analyze_twoStops false hunlimited
  obtain ⟨hlines, hdocument⟩ := lines_and_document_tell_apart twoStops _ _ ha hb
  obtain ⟨hlines', hdocument'⟩ := lines_and_document_tell_apart twoStops _ _ ha hc
  have hdiffer : Lines.render (twoStopsAnalysis (some ⟨#[], false⟩)) ≠ Lines.render (twoStopsAnalysis none) :=
    fun h => absurd (hlines'.mp h).2 (by decide)
  exact ⟨_, _, _, ha, hb, hc, ⟨hlines.mpr ⟨rfl, rfl⟩, hdocument.mpr ⟨hlines.mpr ⟨rfl, rfl⟩, rfl⟩⟩, hdiffer,
    fun h => hdiffer (hdocument'.mp h).1⟩

/-- **A search that is cut short before its first step has the records of one that is not**, although the
documents differ. -/
theorem lines_hide_truncation :
    ∃ a b, analyze twoStops ⟨.linear, true, ⟨none, some 0⟩⟩ = .ok a ∧
      analyze twoStops ⟨.linear, true, .none⟩ = .ok b ∧
      Lines.render a = Lines.render b ∧ Document.render a ≠ Document.render b := by
  have hlimited : twoStopsFlow.graph.paths twoStopsFlow.loops ⟨none, some 0⟩ = .ok ⟨#[], true⟩ := by cbv
  have hunlimited : twoStopsFlow.graph.paths twoStopsFlow.loops .none = .ok ⟨#[], false⟩ := by cbv
  have ha := analyze_twoStops true hlimited
  have hb := analyze_twoStops true hunlimited
  have hrecords := Lines.records_eq_iff (madeOf_of_analyze ha) (madeOf_of_analyze hb)
  have hvalue := Document.value_eq_iff (madeOf_of_analyze ha) (madeOf_of_analyze hb)
  refine ⟨_, _, ha, hb, Lines.render_eq_iff.mpr (hrecords.mpr ⟨rfl, rfl⟩), fun h => ?_⟩
  exact absurd (hvalue.mp (Document.render_eq_iff.mp h)).2 (by decide)

end Report

end BytecodeFlow
