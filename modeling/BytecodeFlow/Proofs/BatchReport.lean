import Mathlib
import BytecodeFlow.CommandLine.Run
import BytecodeFlow.Proofs.LinesAndDocument
import BytecodeFlow.Proofs.Passes

/-!
# The lines of a batch report

A batch report puts a line break between the sections of two pieces of code.  The section of JSON Lines
already ends with one, so this file finds an empty line between any two of them
(`Settings.report_batch_lines`).

**Sections.**  If every line of the input is hexadecimal there is a report, and its sections are those of
the analyses that succeed, in order (`Settings.report_of_allHexadecimal`).

**Lines.**  Joining texts of lines with line breaks is the same as putting an empty line between them
(`Text.intercalate_unlines`).
-/

namespace BytecodeFlow

/-! ## Texts of lines with line breaks between them -/

namespace Text

lemma unlines_append (a b : List String) : unlines (a ++ b) = unlines a ++ unlines b := by
  simp [unlines, String.join_append]

/-- **A line break between texts of lines is an empty line.** -/
lemma intercalate_unlines (blocks : List (List String)) :
    String.intercalate "\n" (blocks.map unlines) = unlines ([""].intercalate blocks) := by
  induction blocks with
  | nil => rfl
  | cons block blocks ih =>
      cases blocks with
      | nil => simp
      | cons next blocks =>
          simp only [List.map_cons, String.intercalate_cons_cons, List.intercalate_cons_cons,
            unlines_append] at ih ⊢
          rw [ih]
          rfl

/-- Texts with line breaks between them are longer than without, unless there is one text at most. -/
lemma intercalate_eq_join_iff (texts : List String) :
    String.intercalate "\n" texts = String.join texts ↔ texts.length ≤ 1 := by
  cases texts with
  | nil => simp
  | cons first rest =>
      constructor
      · intro h
        have hlength := congrArg (fun text => text.toList.length) h
        simp only [String.toList_intercalate, String.toList_join, List.map_cons, intercalate_cons_eq,
          List.flatMap_cons, List.flatMap_map, List.length_append, List.length_flatMap,
          List.sum_map_add] at hlength
        obtain rfl : rest = [] := by simpa using hlength
        simp
      · intro h
        obtain rfl : rest = [] := by simpa using h
        simp

end Text

/-! ## Sections -/

namespace CommandLine.Settings

variable {s : Settings} {text : String}

/-- The analysis of a piece of code, if it is hexadecimal and can be analysed. -/
def analysisOf? (s : Settings) (line : List Char) : Option Analysis := do
  let bytes ← (Hex.parse (String.ofList line)).toOption
  (analyze bytes.toArray s.analysisOptions).toOption

/-- **The analyses of a batch**: those of its pieces that can be analysed, in order. -/
def analyses (s : Settings) (text : String) : List Analysis :=
  (contractLines text).filterMap s.analysisOf?

/-- Whether all pieces of code in a batch are hexadecimal. -/
def AllHexadecimal (text : String) : Prop :=
  ∀ line ∈ contractLines text, ∃ bytes, Hex.parse (String.ofList line) = .ok bytes

lemma exists_contracts (hvalid : AllHexadecimal text) :
    ∃ images, contracts text = .ok images ∧ List.Forall₂ (fun line image => ∃ bytes,
      Hex.parse (String.ofList line) = .ok bytes ∧ bytes.toArray = image) (contractLines text) images := by
  obtain ⟨images, himages⟩ : ∃ images, contracts text = .ok images := by
    refine exists_mapM_eq_ok _ ?_
    rintro ⟨line, i⟩ hmem
    obtain ⟨bytes, hbytes⟩ := hvalid line (List.fst_mem_of_mem_zipIdx hmem)
    exact ⟨bytes.toArray, by simp [hbytes, Except.mapError, Except.map]⟩
  refine ⟨images, himages, ?_⟩
  rw [← List.zipIdx_map_fst 0 (contractLines text), List.forall₂_map_left_iff]
  refine (mapM_eq_ok_iff.mp himages).imp ?_
  rintro ⟨line, i⟩ image hline
  dsimp only at hline ⊢
  cases hparse : Hex.parse (String.ofList line) with
  | error e => simp [hparse, Except.mapError, Except.map] at hline
  | ok bytes =>
      rw [hparse] at hline
      exact ⟨bytes, rfl, Except.ok.inj hline⟩

lemma sections_analyzeAll {lines : List (List Char)} {images : List Image}
    (h : List.Forall₂ (fun line image => ∃ bytes,
      Hex.parse (String.ofList line) = .ok bytes ∧ bytes.toArray = image) lines images) :
    s.sections (analyzeAll images s.analysisOptions) = (lines.filterMap s.analysisOf?).map s.render := by
  induction h with
  | nil => rfl
  | @cons line _ lines images hfirst _ ih =>
      obtain ⟨bytes, hbytes, rfl⟩ := hfirst
      rw [sections, analyzeAll] at ih ⊢
      cases hanalysis : analyze bytes.toArray s.analysisOptions with
      | error e =>
          have hnone : s.analysisOf? line = none := by
            simp [analysisOf?, hbytes, Except.toOption, hanalysis]
          simpa [hanalysis, hnone] using ih
      | ok a =>
          have hsome : s.analysisOf? line = some a := by
            simp [analysisOf?, hbytes, Except.toOption, hanalysis]
          simpa [hanalysis, hsome] using ih

/-- **A batch of hexadecimal lines has a report**, with a section for every analysis. -/
lemma report_of_allHexadecimal (hbatch : s.batch = true) (hvalid : AllHexadecimal text) :
    ∃ product, s.report text = .ok product ∧
      product.text = String.intercalate "\n" ((s.analyses text).map s.render) := by
  obtain ⟨images, himages, hparsed⟩ := exists_contracts hvalid
  rw [report, if_pos hbatch]
  simp only [reportBatch, himages, bind, Except.bind, pure, Except.pure]
  refine ⟨_, rfl, ?_⟩
  dsimp only
  rw [sections_analyzeAll hparsed, analyses]

/-! ## Lines -/

/-- The lines of a batch report in JSON Lines: the records of each analysis, with an empty line between
those of two analyses. -/
def batchLines (analyses : List Analysis) : List String :=
  [""].intercalate (analyses.map Report.Lines.texts)

lemma batchLines_cons (a : Analysis) (rest : List Analysis) :
    batchLines (a :: rest) =
      Report.Lines.texts a ++ rest.flatMap fun b => "" :: Report.Lines.texts b := by
  rw [batchLines, List.map_cons, intercalate_cons_eq, List.flatMap_map]
  rfl

/-- **Every record is an object.** -/
lemma exists_object_of_mem_texts {a : Analysis} :
    ∀ line ∈ Report.Lines.texts a, ∃ members, line = (Json.object members).compact := by
  simp only [Report.Lines.texts, Report.Lines.records, List.forall_mem_map, List.forall_mem_append,
    List.forall_mem_cons]
  refine ⟨⟨⟨_, rfl⟩, fun _ _ => ⟨_, rfl⟩⟩, ?_⟩
  cases a.flow with
  | none => simp
  | some flow =>
      simp only [Report.Lines.flowRecords, List.forall_mem_append, List.forall_mem_map]
      refine ⟨⟨fun _ _ => ⟨_, rfl⟩, fun _ _ => ⟨_, rfl⟩⟩, ?_⟩
      cases a.paths with
      | none => simp
      | some found =>
          rw [List.forall_mem_map]
          exact fun _ _ => ⟨_, rfl⟩

lemma empty_not_mem_texts (a : Analysis) : "" ∉ Report.Lines.texts a := by
  intro h
  obtain ⟨members, hline⟩ := exists_object_of_mem_texts _ h
  have hlist := congrArg String.toList hline
  simp [Json.compact] at hlist

section BatchLines

variable {list : List Analysis}

lemma eq_or_mem_of_mem_batchLines {line : String} (h : line ∈ batchLines list) :
    line = "" ∨ ∃ a ∈ list, line ∈ Report.Lines.texts a := by
  cases list with
  | nil => simp [batchLines] at h
  | cons a rest =>
      rw [batchLines_cons] at h
      simp only [List.mem_append, List.mem_flatMap, List.mem_cons] at h
      rcases h with h | ⟨b, hb, rfl | h⟩
      · exact Or.inr ⟨a, List.mem_cons_self, h⟩
      · exact Or.inl rfl
      · exact Or.inr ⟨b, List.mem_cons_of_mem _ hb, h⟩

/-- **There is an empty line as soon as there are two analyses.** -/
lemma empty_mem_batchLines_iff : "" ∈ batchLines list ↔ 2 ≤ list.length := by
  cases list with
  | nil => simp [batchLines]
  | cons a rest =>
      cases rest <;> simp [batchLines_cons, empty_not_mem_texts]

lemma length_batchLines : (batchLines list).length =
    (list.map fun a => (Report.Lines.records a).length).sum + (list.length - 1) := by
  cases list with
  | nil => rfl
  | cons a rest =>
      rw [batchLines_cons]
      simp [Report.Lines.texts, List.length_flatMap, List.sum_map_add]
      omega

lemma intercalate_render :
    String.intercalate "\n" (list.map Report.Lines.render) = Text.unlines (batchLines list) := by
  rw [batchLines, ← Text.intercalate_unlines, List.map_map]
  congr 1
  exact List.map_congr_left fun a _ => Report.Lines.render_eq_unlines a

lemma lines_batchLines : Text.lines (Text.unlines (batchLines list)) = batchLines list := by
  refine Text.lines_unlines fun line hline => ?_
  rcases eq_or_mem_of_mem_batchLines hline with rfl | ⟨a, _, hline⟩
  · simp
  · exact Report.Lines.newline_not_mem_of_mem_texts a line hline

end BatchLines

/-- **What a batch report in JSON Lines is.**  If all pieces of code are hexadecimal there is a report.  Its
lines are the records of the analyses that succeed, in order, with an empty line between those of two
analyses.  All others are objects.  So there are as many lines as records only if there is at most one
analysis, and only then the report consists of the reports of the analyses alone. -/
theorem report_batch_lines (s : Settings) (text : String) (hbatch : s.batch = true)
    (hformat : s.format = .lines) (hvalid : AllHexadecimal text) :
    ∃ product, s.report text = .ok product ∧
      Text.lines product.text = batchLines (s.analyses text) ∧
      (∀ line ∈ Text.lines product.text, line ≠ "" →
        ∃ members, line = (Json.object members).compact) ∧
      ("" ∈ Text.lines product.text ↔ 2 ≤ (s.analyses text).length) ∧
      (Text.lines product.text).length =
        ((s.analyses text).map fun a => (Report.Lines.records a).length).sum
          + ((s.analyses text).length - 1) ∧
      (product.text = String.join ((s.analyses text).map Report.Lines.render) ↔
        (s.analyses text).length ≤ 1) := by
  have hrender : s.render = Report.Lines.render := by
    funext a
    rw [render, hformat, Report.Format.render]
  obtain ⟨product, hproduct, htext⟩ := report_of_allHexadecimal hbatch hvalid
  rw [hrender] at htext
  have hlines : Text.lines product.text = batchLines (s.analyses text) := by
    rw [htext, intercalate_render, lines_batchLines]
  refine ⟨product, hproduct, hlines, ?_, ?_, ?_, ?_⟩
  · rw [hlines]
    intro line hline hne
    obtain ⟨a, _, hline⟩ := (eq_or_mem_of_mem_batchLines hline).resolve_left hne
    exact exists_object_of_mem_texts line hline
  · rw [hlines, empty_mem_batchLines_iff]
  · rw [hlines, length_batchLines]
  · rw [htext, Text.intercalate_eq_join_iff, List.length_map]

/-- A batch run in JSON Lines with the default settings. -/
def batchInLines : Settings :=
  ⟨"in.txt", .linear, .lines, none, false, 10000, 1000000, 3, false, true, false⟩

/-- The smallest code that can be analysed. -/
lemma exists_analysisOf?_zeros :
    ∃ a, batchInLines.analysisOf? ['0', '0'] = some a := by
  have himage : (#[0x00] : Image) ≠ #[] := by decide
  obtain ⟨a, ha, _⟩ := exists_madeOf himage batchInLines.analysisOptions
  have hparse : Hex.parse (String.ofList ['0', '0']) = .ok [0x00] := by cbv
  exact ⟨a, by simp [analysisOf?, hparse, Except.toOption, ha]⟩

lemma allHexadecimal_of_zeros (h : ∀ line ∈ contractLines text, line = ['0', '0']) :
    AllHexadecimal text := by
  intro line hline
  rw [h line hline]
  exact ⟨[0x00], by cbv⟩

/-- One piece of code behind a comment is reported without an empty line. -/
theorem report_batch_lines_single :
    ∃ product a, batchInLines.report "# one\n00\n" = .ok product ∧
      batchInLines.analyses "# one\n00\n" = [a] ∧ "" ∉ Text.lines product.text ∧
      product.text = Report.Lines.render a := by
  have hlines : contractLines "# one\n00\n" = [['0', '0']] := by cbv
  obtain ⟨a, ha⟩ := exists_analysisOf?_zeros
  have hanalyses : batchInLines.analyses "# one\n00\n" = [a] := by simp [analyses, hlines, ha]
  obtain ⟨product, hproduct, _, _, hempty, _, hjoin⟩ :=
    report_batch_lines batchInLines "# one\n00\n" rfl rfl (allHexadecimal_of_zeros (by simp [hlines]))
  rw [hanalyses] at hempty hjoin
  exact ⟨product, a, hproduct, hanalyses, by simp [hempty], by simpa using hjoin⟩

/-- **Two pieces of code are reported with an empty line between them**, so that the report is more than
the reports of the two. -/
theorem batch_lines_gap :
    ∃ product a, batchInLines.report "00\n00\n" = .ok product ∧
      batchInLines.analyses "00\n00\n" = [a, a] ∧ "" ∈ Text.lines product.text ∧
      product.text ≠ String.join [Report.Lines.render a, Report.Lines.render a] := by
  have hlines : contractLines "00\n00\n" = [['0', '0'], ['0', '0']] := by cbv
  obtain ⟨a, ha⟩ := exists_analysisOf?_zeros
  have hanalyses : batchInLines.analyses "00\n00\n" = [a, a] := by simp [analyses, hlines, ha]
  have hvalid : AllHexadecimal "00\n00\n" := allHexadecimal_of_zeros (by simp [hlines])
  obtain ⟨product, hproduct, htext⟩ := report_of_allHexadecimal (s := batchInLines) rfl hvalid
  have hrender : batchInLines.render = Report.Lines.render := rfl
  rw [hanalyses, hrender] at htext
  refine ⟨product, a, hproduct, hanalyses, ?_, ?_⟩
  · rw [htext, intercalate_render, lines_batchLines, empty_mem_batchLines_iff]
    simp
  · rw [htext]
    exact fun h => absurd ((Text.intercalate_eq_join_iff _).mp h) (by simp)

end CommandLine.Settings

end BytecodeFlow
