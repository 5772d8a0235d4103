import BinForge.JsonReport

/-!
# The notice of a truncated report

All tables of a report share one counter, and the notice is derived from it
after the last of them.  The notice is wrong for exactly one number of items:
the limit itself, where every item is listed and the counter is full.
-/

namespace BinForge
namespace BinaryReportWriter

open StatefulExcept
open BinaryLoader
open Json

variable {options : ReportOptions}

/-! ## The tables of a text

A table is its title with its lines. -/

abbrev TextTable := Bytes × List Bytes

def tableText (table : TextTable) : Bytes :=
  ascii "\n[" ++ table.1 ++ ascii "]\n" ++ table.2.flatten

def itemTotal (tables : List TextTable) : ℕ :=
  (tables.map fun table => table.2.length).sum

/-- What is listed when the tables share this much room. -/
def shownTables : ℕ → List TextTable → List TextTable
  | _, [] => []
  | room, table :: rest =>
      (table.1, table.2.take room) ::
        shownTables (room - table.2.length) rest

@[simp] theorem itemTotal_nil : itemTotal [] = 0 := rfl

@[simp] theorem itemTotal_cons (table : TextTable) (rest : List TextTable) :
    itemTotal (table :: rest) = table.2.length + itemTotal rest := rfl

@[simp] theorem itemTotal_append (first second : List TextTable) :
    itemTotal (first ++ second) = itemTotal first + itemTotal second := by
  simp [itemTotal]

/-- Nothing is left out exactly when there is room for all lines. -/
theorem shownTables_eq_iff {room : ℕ} {tables : List TextTable} :
    shownTables room tables = tables ↔ itemTotal tables ≤ room := by
  induction tables generalizing room with
  | nil => simp [shownTables]
  | cons table rest ih =>
      rw [shownTables, List.cons.injEq, ih, Prod.ext_iff, itemTotal_cons,
        List.take_eq_self_iff]
      constructor
      · rintro ⟨⟨-, hfit⟩, hrest⟩
        omega
      · intro hroom
        exact ⟨⟨rfl, by omega⟩, by omega⟩

def titled (included : Bool) (title : Bytes) (lines : List Bytes) :
    List TextTable :=
  if included then [(title, lines)] else []

@[simp] theorem itemTotal_titled (included : Bool) (title : Bytes)
    (lines : List Bytes) :
    itemTotal (titled included title lines) =
      if included then lines.length else 0 := by
  cases included <;> rfl

/-- The tables the options include, with all their lines. -/
def includedTables (image : BinaryImage) (options : ReportOptions)
    (hardening : Option HardeningReport) : List TextTable :=
  titled options.includeSections "sections" (image.sections.map sectionLine) ++
    titled options.includeSegments "segments"
      (image.segments.map segmentLine) ++
    titled options.includeSymbols "symbols" (image.symbols.map symbolLine) ++
    titled options.includeImports "imports" (image.imports.map importLine) ++
    titled options.includeExports "exports" (image.exports.map exportLine) ++
    titled options.includeRelocations "relocations"
      (image.relocations.map relocationLine) ++
    titled hardening.isSome "hardening"
      ((hardening.elim [] HardeningReport.findings).map findingLine)

/-! ## The loops -/

def printTable (options : ReportOptions) (report : Report)
    (table : TextTable) : Report :=
  textTable options true table.1 id table.2 report

theorem emitLines_map {α : Type} (line : α → Bytes) (items : List α)
    (report : Report) :
    emitLines options line items report =
      emitLines options id (items.map line) report := by
  induction items generalizing report with
  | nil => rfl
  | cons item rest ih =>
      rw [List.map_cons, emitLines, emitLines, ih]
      rfl

theorem textTable_eq {α : Type} (included : Bool) (title : Bytes)
    (line : α → Bytes) (items : List α) (report : Report) :
    textTable options included title line items report =
      (titled included title (items.map line)).foldl (printTable options)
        report := by
  cases included with
  | false => rfl
  | true =>
      rw [textTable, if_pos rfl, emitLines_map]
      rfl

theorem textTables_eq (image : BinaryImage)
    (hardening : Option HardeningReport) (report : Report) :
    textTables image options hardening report =
      (includedTables image options hardening).foldl (printTable options)
        report := by
  unfold textTables includedTables
  simp only [textTable_eq, List.foldl_append]

/-- Lines are written, and counted, as long as there is room for them. -/
theorem emitLines_eq (lines : List Bytes) {report : Report}
    (hemitted : report.emitted ≤ options.maximumItems) :
    (emitLines options id lines report).output =
        report.output ++ (lines.take (options.maximumItems.toNat -
          report.emitted.toNat)).flatten ∧
      (emitLines options id lines report).emitted.toNat =
        min options.maximumItems.toNat
          (report.emitted.toNat + lines.length) := by
  rw [UInt32.le_iff_toNat_le] at hemitted
  induction lines generalizing report with
  | nil =>
      refine ⟨by simp [emitLines], ?_⟩
      exact (min_eq_right hemitted).symm
  | cons line rest ih =>
      rw [emitLines]
      by_cases havailable : report.available options
      · have hless := available_iff.mp havailable
        have hcounted := emitted_add_one havailable
        obtain ⟨houtput, hcount⟩ := @ih
          { report.append line with emitted := report.emitted + 1 }
          (by rw [hcounted]; omega)
        rw [if_pos havailable, id_eq, houtput, hcount, emitted_succ havailable,
          List.take_succ_cons, List.flatten_cons, ← List.append_assoc, hcounted,
          List.length_cons]
        exact ⟨rfl, by omega⟩
      · have hfull := not_lt.mp (mt available_iff.mpr havailable)
        rw [if_neg havailable, Nat.sub_eq_zero_of_le hfull, List.take_zero,
          List.flatten_nil, List.append_nil, List.length_cons]
        exact ⟨rfl, by omega⟩

theorem foldl_printTable (tables : List TextTable) {report : Report}
    (hemitted : report.emitted ≤ options.maximumItems) :
    (tables.foldl (printTable options) report).output =
        report.output ++ (shownTables (options.maximumItems.toNat -
          report.emitted.toNat) tables).flatMap tableText ∧
      (tables.foldl (printTable options) report).emitted.toNat =
        min options.maximumItems.toNat
          (report.emitted.toNat + itemTotal tables) := by
  induction tables generalizing report with
  | nil =>
      refine ⟨by simp [shownTables], ?_⟩
      exact (min_eq_right (UInt32.le_iff_toNat_le.mp hemitted)).symm
  | cons table rest ih =>
      have hle := UInt32.le_iff_toNat_le.mp hemitted
      obtain ⟨houtput, hcount⟩ := @emitLines_eq options table.2
        (report.append (ascii "\n[" ++ table.1 ++ ascii "]\n")) hemitted
      have hprinted : printTable options report table = emitLines options id
        table.2 (report.append (ascii "\n[" ++ table.1 ++ ascii "]\n")) := rfl
      rw [← hprinted] at houtput hcount
      change _ = min _ (report.emitted.toNat + _) at hcount
      obtain ⟨hrestOutput, hrestCount⟩ := @ih (printTable options report table)
        (by rw [UInt32.le_iff_toNat_le]; omega)
      have hroom : options.maximumItems.toNat -
          (printTable options report table).emitted.toNat =
            options.maximumItems.toNat - report.emitted.toNat -
              table.2.length := by
        omega
      rw [List.foldl_cons, hrestOutput, hrestCount, houtput, hroom, shownTables,
        List.flatMap_cons, itemTotal_cons]
      refine ⟨?_, by omega⟩
      simp only [Report.append, tableText, List.append_assoc]

/-! ## What a report says and what it leaves out -/

def truncationNotice : Bytes := ascii "\n[report truncated at item limit]\n"

def metricsPart (limits : Limits) (image : BinaryImage)
    (options : ReportOptions) : Option ImageMetrics :=
  (includedPart options.includeMetrics
    (ImageAnalyzer.analyze limits image)).toOption.join

def hardeningPart (limits : Limits) (image : BinaryImage)
    (options : ReportOptions) : Option HardeningReport :=
  (includedPart options.includeHardening
    (HardeningAnalyzer.analyze limits image)).toOption.join

/-- A text says so after its last table, a value in its last member. -/
def SaysTruncated (limits : Limits) (image : BinaryImage)
    (options : ReportOptions) (report : Bytes) : Prop :=
  if options.format = .text then
    report =
      textHeader image (metricsPart limits image options)
          (hardeningPart limits image options) ++
        (shownTables options.maximumItems.toNat
          (includedTables image options
            (hardeningPart limits image options))).flatMap tableText ++
        truncationNotice
  else
    (Json.parse report).bind (itemNamed "truncated") = some (.boolean true)

/-- The items listed are not all the items of the included tables. -/
def LeavesOut (limits : Limits) (image : BinaryImage)
    (options : ReportOptions) : Prop :=
  if options.format = .text then
    shownTables options.maximumItems.toNat
        (includedTables image options (hardeningPart limits image options)) ≠
      includedTables image options (hardeningPart limits image options)
  else listedItems image options ≠ includedItems image options

/-- The number of items of the tables a report of this format includes. -/
def itemCount (limits : Limits) (image : BinaryImage)
    (options : ReportOptions) : ℕ :=
  (if options.includeSections then image.sections.length else 0) +
    (if options.includeSegments then image.segments.length else 0) +
    (if options.includeSymbols then image.symbols.length else 0) +
    (if options.includeImports then image.imports.length else 0) +
    (if options.includeExports then image.exports.length else 0) +
    if options.format = .text then
      (if options.includeRelocations then image.relocations.length else 0) +
        ((hardeningPart limits image options).elim []
          HardeningReport.findings).length
    else 0

variable {limits : Limits} {image : BinaryImage} {report : Bytes}

theorem itemTotal_includedTables (hformat : options.format = .text) :
    itemTotal (includedTables image options
        (hardeningPart limits image options)) =
      itemCount limits image options := by
  simp only [includedTables, itemTotal_append, itemTotal_titled,
    List.length_map, itemCount, if_pos hformat]
  cases hardeningPart limits image options with
  | none => simp
  | some hardening => simp [Nat.add_assoc]

theorem includedItems_length (hformat : options.format ≠ .text) :
    (includedItems image options).length = itemCount limits image options := by
  have hlength : ∀ (included : Bool) (items : List ReportItem),
      (if included then items else []).length =
        if included then items.length else 0 := by
    intro included items
    cases included <;> rfl
  simp only [includedItems, List.length_append, hlength, List.length_map,
    List.length_mapIdx, itemCount, if_neg hformat, Nat.add_zero]

theorem write_eq_some (hwrite : write limits image options = .ok (some report)) :
    if options.format = .text then
      report = writeText image options (metricsPart limits image options)
        (hardeningPart limits image options)
    else
      writeJson image options (metricsPart limits image options)
        (hardeningPart limits image options) = some report := by
  obtain ⟨metrics, hardening, hmetrics, hhardening, hreport⟩ := write_ok hwrite
  have hfirst : metricsPart limits image options = metrics := by
    rw [metricsPart, hmetrics]
    rfl
  have hsecond : hardeningPart limits image options = hardening := by
    rw [hardeningPart, hhardening]
    rfl
  rw [hfirst, hsecond]
  exact hreport

theorem writeText_eq (metrics : Option ImageMetrics)
    (hardening : Option HardeningReport) :
    writeText image options metrics hardening =
      textHeader image metrics hardening ++
        (shownTables options.maximumItems.toNat
          (includedTables image options hardening)).flatMap tableText ++
        if options.maximumItems.toNat ≤
            itemTotal (includedTables image options hardening) then
          truncationNotice
        else [] := by
  obtain ⟨houtput, hcount⟩ := @foldl_printTable options
    (includedTables image options hardening)
    { output := textHeader image metrics hardening } UInt32.zero_le
  rw [← textTables_eq] at houtput hcount
  rw [UInt32.toNat_zero, Nat.sub_zero] at houtput
  rw [UInt32.toNat_zero, Nat.zero_add] at hcount
  unfold writeText
  dsimp only
  rw [houtput]
  by_cases hfull : options.maximumItems.toNat ≤
      itemTotal (includedTables image options hardening)
  · rw [if_neg (by rw [available_iff, hcount]; omega), if_pos hfull]
    rfl
  · rw [if_pos (by rw [available_iff, hcount]; omega), if_neg hfull,
      List.append_nil]

theorem parse_report (metrics : Option ImageMetrics)
    (hardening : Option HardeningReport) (items : List ReportItem)
    (truncated : Bool) :
    Json.parse (objectText
        (reportEntries image metrics hardening items truncated)) =
      some (objectValue
        (reportEntries image metrics hardening items truncated)) :=
  parse_of_isText (spells_object (by simp [reportEntries, leadingEntries])
    (reportEntries_spelled image metrics hardening items truncated)).isText

theorem itemNamed_truncated (metrics : Option ImageMetrics)
    (hardening : Option HardeningReport) (items : List ReportItem)
    (truncated : Bool) :
    itemNamed "truncated" (objectValue
        (reportEntries image metrics hardening items truncated)) =
      some (.boolean truncated) := by
  cases metrics <;> cases hardening <;> rfl

/-- The notice appears as soon as the counter is full. -/
theorem saysTruncated_iff (hformat : options.format ≠ .jsonLines)
    (hwrite : write limits image options = .ok (some report)) :
    SaysTruncated limits image options report ↔
      options.maximumItems.toNat ≤ itemCount limits image options := by
  have hreport := write_eq_some hwrite
  unfold SaysTruncated
  by_cases htext : options.format = .text
  · rw [if_pos htext] at hreport ⊢
    rw [hreport, writeText_eq, itemTotal_includedTables htext,
      List.append_cancel_left_eq]
    split
    next hfull => exact iff_of_true rfl hfull
    next hroom => exact iff_of_false (by decide) hroom
  · rw [if_neg htext] at hreport ⊢
    obtain rfl := writeJson_eq_some hformat hreport
    rw [parse_report, Option.bind_some, itemNamed_truncated,
      @includedItems_length options limits image htext]
    simp

theorem leavesOut_iff :
    LeavesOut limits image options ↔
      options.maximumItems.toNat < itemCount limits image options := by
  unfold LeavesOut
  split
  next htext =>
    rw [Ne, shownTables_eq_iff, itemTotal_includedTables htext, not_le]
  next htext =>
    rw [Ne, listedItems, List.take_eq_self_iff, includedItems_length htext,
      not_le]

/-- The notice is right for every number of items but the limit itself. -/
theorem truncation_accurate_iff (hformat : options.format ≠ .jsonLines)
    (hwrite : write limits image options = .ok (some report)) :
    (SaysTruncated limits image options report ↔
        LeavesOut limits image options) ↔
      itemCount limits image options ≠ options.maximumItems.toNat := by
  rw [saysTruncated_iff hformat hwrite, leavesOut_iff]
  omega

/-- Two sections and room for one. -/
theorem truncation_accurate_two_sections :
    let image : BinaryImage :=
      { sections := [{ kind := .noBits }, { index := 1, kind := .noBits }]
        fileData := some [] }
    let options : ReportOptions :=
      { format := .json, includeMetrics := false, includeHardening := false
        maximumItems := 1 }
    ∃ report, write {} image options = .ok (some report) ∧
      (SaysTruncated {} image options report ↔
        LeavesOut {} image options) := by
  intro image options
  obtain ⟨found, hwrite, hfound⟩ := toOption_bind_eq_some.mp
    (by decide +kernel : (write {} image options).toOption.bind
      (Option.map fun _ => ()) = some ())
  obtain ⟨report, rfl, -⟩ := Option.map_eq_some_iff.mp hfound
  exact ⟨report, hwrite, (truncation_accurate_iff (by decide) hwrite).mpr
    (by decide)⟩

/-- One section and room for one: both formats call the report truncated. -/
theorem truncation_announced_at_limit :
    let image : BinaryImage :=
      { sections := [{ kind := .noBits }], fileData := some [] }
    let options : ReportFormat → ReportOptions := fun format =>
      { format, includeMetrics := false, includeHardening := false
        maximumItems := 1 }
    (∃ report, write {} image (options .text) = .ok (some report) ∧
      ¬(SaysTruncated {} image (options .text) report ↔
        LeavesOut {} image (options .text))) ∧
    ∃ report, write {} image (options .json) = .ok (some report) ∧
      ¬(SaysTruncated {} image (options .json) report ↔
        LeavesOut {} image (options .json)) := by
  intro image options
  have hearly : ∀ format, format ≠ .jsonLines →
      ((write {} image (options format)).toOption.bind
        (Option.map fun _ => ()) = some ()) →
      itemCount {} image (options format) = 1 →
      ∃ report, write {} image (options format) = .ok (some report) ∧
        ¬(SaysTruncated {} image (options format) report ↔
          LeavesOut {} image (options format)) := by
    intro format hformat hruns hcount
    obtain ⟨found, hwrite, hfound⟩ := toOption_bind_eq_some.mp hruns
    obtain ⟨report, rfl, -⟩ := Option.map_eq_some_iff.mp hfound
    refine ⟨report, hwrite, ?_⟩
    rw [saysTruncated_iff hformat hwrite, leavesOut_iff, hcount]
    show ¬(1 ≤ 1 ↔ 1 < 1)
    decide
  exact ⟨hearly .text (by decide) (by decide +kernel) (by decide +kernel),
    hearly .json (by decide) (by decide +kernel) (by decide +kernel)⟩

end BinaryReportWriter
end BinForge
