import BinForge.Hardening

/-!
# Reports

`BinaryReportWriter` describes a valid image as text, as one JSON value, or as
one JSON value on each line.  A counter that all tables share limits the number
of items a report lists.
-/

namespace BinForge

inductive ReportFormat
  | text
  | json
  | jsonLines
  deriving DecidableEq, Repr

structure ReportOptions where
  format : ReportFormat := .text
  includeSections : Bool := true
  includeSegments : Bool := true
  includeSymbols : Bool := true
  includeImports : Bool := true
  includeExports : Bool := true
  includeRelocations : Bool := true
  includeMetrics : Bool := true
  includeHardening : Bool := true
  maximumItems : UInt32 := 100000
  deriving DecidableEq, Repr

namespace BinaryReportWriter

open StatefulExcept
open BinaryLoader

/-! ## Names and numbers -/

def escapeByte (character : UInt8) : Bytes :=
  if character = 0x22 then ascii "\\\""
  else if character = 0x5c then ascii "\\\\"
  else if character = 0x08 then ascii "\\b"
  else if character = 0x0c then ascii "\\f"
  else if character = 0x0a then ascii "\\n"
  else if character = 0x0d then ascii "\\r"
  else if character = 0x09 then ascii "\\t"
  else if character < 0x20 then
    let digits := ascii "0123456789abcdef"
    ascii "\\u00" ++ [digits.getD (character >>> 4).toNat 0,
      digits.getD (character &&& 15).toNat 0]
  else [character]

def jsonEscape (value : Bytes) : Bytes := value.flatMap escapeByte

def formatName : BinaryFormat → Bytes
  | .elfLike => "elf"
  | .peLike => "pe"
  | .machoLike => "macho"
  | .unknown => "unknown"

def architectureName : Architecture → Bytes
  | .x86 => "x86"
  | .x86_64 => "x86_64"
  | .arm => "arm"
  | .arm64 => "arm64"
  | .riscv32 => "riscv32"
  | .riscv64 => "riscv64"
  | .unknown => "unknown"
  | .undeclared _ _ => "unknown"

def permissionText (value : UInt8) : Bytes :=
  (if hasPermission value permissionRead then ascii "r" else ascii "-") ++
    (if hasPermission value permissionWrite then ascii "w" else ascii "-") ++
    (if hasPermission value permissionExecute then ascii "x" else ascii "-")

def severityName : FindingSeverity → Bytes
  | .information => "information"
  | .low => "low"
  | .medium => "medium"
  | .high => "high"
  | .critical => "critical"

/-- A number under `std::hex`. -/
def hexadecimal (n : ℕ) : Bytes :=
  (Nat.toDigits 16 n).map fun digit => UInt8.ofNat digit.toNat

def signedDecimal (n : ℤ) : Bytes :=
  if n < 0 then ascii "-" ++ decimal n.natAbs else decimal n.natAbs

/-! ## The report under construction -/

/-- The stream, the number of items in it, and whether a comma is due. -/
structure Report where
  output : Bytes := []
  emitted : UInt32 := 0
  first : Bool := true
  deriving DecidableEq, Repr

def Report.available (options : ReportOptions) (report : Report) : Prop :=
  report.emitted < options.maximumItems

instance (options : ReportOptions) (report : Report) :
    Decidable (report.available options) :=
  inferInstanceAs (Decidable (_ < _))

def Report.append (report : Report) (text : Bytes) : Report :=
  { report with output := report.output ++ text }

/-! ## The text format -/

/-- The loop over a table; it stops at the item limit. -/
def emitLines {α : Type} (options : ReportOptions) (line : α → Bytes) :
    List α → Report → Report
  | [], report => report
  | item :: rest, report =>
      if report.available options then
        emitLines options line rest
          { report.append (line item) with emitted := report.emitted + 1 }
      else report

def textTable {α : Type} (options : ReportOptions) (included : Bool)
    (title : Bytes) (line : α → Bytes) (items : List α) (report : Report) :
    Report :=
  if included then
    emitLines options line items
      (report.append (ascii "\n[" ++ title ++ ascii "]\n"))
  else report

def rangeText (fileOffset fileSize virtualAddress memorySize : UInt64)
    (permissions : UInt8) : Bytes :=
  ascii " file=0x" ++ hexadecimal fileOffset.toNat ++ ascii "+0x" ++
    hexadecimal fileSize.toNat ++ ascii " virtual=0x" ++
    hexadecimal virtualAddress.toNat ++ ascii "+0x" ++
    hexadecimal memorySize.toNat ++ ascii " " ++ permissionText permissions ++
    ascii "\n"

def sectionLine (item : Section) : Bytes :=
  decimal item.index.toNat ++ ascii " " ++ item.name ++
    rangeText item.fileOffset item.fileSize item.virtualAddress item.memorySize
      item.permissions

def segmentLine (segment : Segment) : Bytes :=
  decimal segment.index.toNat ++
    rangeText segment.fileOffset segment.fileSize segment.virtualAddress
      segment.memorySize segment.permissions

def symbolLine (symbol : Symbol) : Bytes :=
  decimal symbol.index.toNat ++ ascii " 0x" ++ hexadecimal symbol.value.toNat ++
    ascii " " ++ symbol.name ++ ascii " size=" ++ decimal symbol.size.toNat ++
    ascii "\n"

def importLine (imported : Import) : Bytes :=
  imported.library ++ ascii "!" ++
    (if imported.name = [] then ascii "#" ++ decimal imported.ordinal.toNat
      else imported.name) ++
    ascii " slot=0x" ++ hexadecimal imported.slotAddress.toNat ++ ascii "\n"

def exportLine (exported : Export) : Bytes :=
  exported.name ++ ascii " ordinal=" ++ decimal exported.ordinal.toNat ++
    ascii " address=0x" ++ hexadecimal exported.address.toNat ++
    (if exported.forwarded then ascii " forward=" ++ exported.forwardTarget
      else []) ++
    ascii "\n"

def relocationLine (relocation : Relocation) : Bytes :=
  decimal relocation.index.toNat ++ ascii " address=0x" ++
    hexadecimal relocation.offset.toNat ++ ascii " kind=" ++
    decimal (ByteCoded.toByte relocation.kind).toNat ++ ascii " symbol=" ++
    decimal relocation.symbolIndex.toNat ++ ascii " addend=" ++
    signedDecimal relocation.addend.toInt ++ ascii "\n"

/-- The three bytes between title and detail are a dash in UTF-8. -/
def findingLine (finding : HardeningFinding) : Bytes :=
  severityName finding.severity ++ ascii ": " ++ finding.title ++
    ascii " " ++ [0xe2, 0x80, 0x94] ++ ascii " " ++ finding.detail ++ ascii "\n"

def textHeader (image : BinaryImage) (metrics : Option ImageMetrics)
    (hardening : Option HardeningReport) : Bytes :=
  ascii "BinForge binary report\n" ++
    ascii "format: " ++ formatName image.header.format ++ ascii "\n" ++
    ascii "architecture: " ++ architectureName image.header.architecture ++
    ascii "\n" ++
    ascii "word-size: " ++ decimal (image.header.wordSize.toByte.toNat * 8) ++
    ascii "\n" ++
    ascii "entry-point: 0x" ++ hexadecimal image.header.entryPoint.toNat ++
    ascii "\n" ++
    ascii "image-base: 0x" ++ hexadecimal image.header.imageBase.toNat ++
    ascii "\n" ++
    ascii "sections: " ++ decimal image.sections.length ++ ascii "\n" ++
    ascii "segments: " ++ decimal image.segments.length ++ ascii "\n" ++
    ascii "symbols: " ++ decimal image.symbols.length ++ ascii "\n" ++
    ascii "relocations: " ++ decimal image.relocations.length ++ ascii "\n" ++
    ascii "imports: " ++ decimal image.imports.length ++ ascii "\n" ++
    ascii "exports: " ++ decimal image.exports.length ++ ascii "\n" ++
    (match metrics with
      | none => []
      | some metrics =>
          ascii "file-bytes: " ++ decimal metrics.fileSize.toNat ++
            ascii "\n" ++ ascii "mapped-bytes: " ++
            decimal metrics.declaredMemoryBytes.toNat ++ ascii "\n" ++
            ascii "executable-bytes: " ++
            decimal metrics.executableBytes.toNat ++ ascii "\n") ++
    match hardening with
    | none => []
    | some hardening =>
        ascii "hardening-score: " ++ decimal hardening.score.toNat ++
          ascii "\n"

def textTables (image : BinaryImage) (options : ReportOptions)
    (hardening : Option HardeningReport) (report : Report) : Report :=
  let report := textTable options options.includeSections "sections"
    sectionLine image.sections report
  let report := textTable options options.includeSegments "segments"
    segmentLine image.segments report
  let report := textTable options options.includeSymbols "symbols"
    symbolLine image.symbols report
  let report := textTable options options.includeImports "imports"
    importLine image.imports report
  let report := textTable options options.includeExports "exports"
    exportLine image.exports report
  let report := textTable options options.includeRelocations "relocations"
    relocationLine image.relocations report
  textTable options hardening.isSome "hardening" findingLine
    (hardening.elim [] HardeningReport.findings) report

def writeText (image : BinaryImage) (options : ReportOptions)
    (metrics : Option ImageMetrics) (hardening : Option HardeningReport) :
    Bytes :=
  let report := textTables image options hardening
    { output := textHeader image metrics hardening }
  if report.available options then report.output
  else report.output ++ ascii "\n[report truncated at item limit]\n"

/-! ## The JSON formats -/

/-- The arguments of one call of `emit_json`. -/
structure ReportItem where
  type : Bytes
  index : UInt32
  name : Bytes
  address : UInt64
  size : UInt64
  deriving DecidableEq, Repr

def itemText (item : ReportItem) : Bytes :=
  ascii "\x7b\"type\":\"" ++ jsonEscape item.type ++ ascii "\",\"index\":" ++
    decimal item.index.toNat ++ ascii ",\"name\":\"" ++ jsonEscape item.name ++
    ascii "\",\"address\":" ++ decimal item.address.toNat ++
    ascii ",\"size\":" ++ decimal item.size.toNat ++ ascii "\x7d"

def emitJson (options : ReportOptions) (report : Report) (item : ReportItem) :
    Report :=
  if report.available options then
    if options.format = .jsonLines then
      { report.append (itemText item ++ ascii "\n") with
        emitted := report.emitted + 1 }
    else
      { report.append ((if report.first then [] else ascii ",") ++
          itemText item) with
        emitted := report.emitted + 1, first := false }
  else report

/-- A loop whose 32-bit index is compared with the size of the table.  It has
this many rounds left; the index comes back to zero after all of them. -/
def emitIndexed {α : Type} (options : ReportOptions)
    (item : UInt32 → α → ReportItem) (items : List α) :
    ℕ → UInt32 → Report → Option Report
  | 0, _, _ => none
  | rounds + 1, index, report =>
      match items[index.toNat]? with
      | none => some report
      | some found =>
          emitIndexed options item items rounds (index + 1)
            (emitJson options report (item index found))

def sectionItem (item : Section) : ReportItem :=
  { type := "section", index := item.index, name := item.name
    address := item.virtualAddress, size := item.memorySize }

def segmentItem (segment : Segment) : ReportItem :=
  { type := "segment", index := segment.index
    name := ascii "segment." ++ decimal segment.index.toNat
    address := segment.virtualAddress, size := segment.memorySize }

def symbolItem (symbol : Symbol) : ReportItem :=
  { type := "symbol", index := symbol.index, name := symbol.name
    address := symbol.value, size := symbol.size }

def importItem (index : UInt32) (imported : Import) : ReportItem :=
  { type := "import", index
    name := imported.library ++ ascii "!" ++ imported.name
    address := imported.slotAddress, size := 0 }

def exportItem (index : UInt32) (exported : Export) : ReportItem :=
  { type := "export", index, name := exported.name
    address := exported.address, size := 0 }

/-- A loop that calls `emit_json` for every item of a table. -/
def emitTable {α : Type} (options : ReportOptions) (included : Bool)
    (item : α → ReportItem) (items : List α) (report : Report) : Report :=
  if included then
    items.foldl (fun report found => emitJson options report (item found))
      report
  else report

def emitIndexedTable {α : Type} (options : ReportOptions) (included : Bool)
    (item : UInt32 → α → ReportItem) (items : List α) (report : Report) :
    Option Report :=
  if included then emitIndexed options item items (2 ^ 32) 0 report
  else some report

def jsonHeader (image : BinaryImage) (metrics : Option ImageMetrics)
    (hardening : Option HardeningReport) : Bytes :=
  ascii "\x7b\"header\":\x7b\"format\":\"" ++
    jsonEscape (formatName image.header.format) ++
    ascii "\",\"architecture\":\"" ++
    jsonEscape (architectureName image.header.architecture) ++
    ascii "\",\"entry_point\":" ++ decimal image.header.entryPoint.toNat ++
    ascii ",\"image_base\":" ++ decimal image.header.imageBase.toNat ++
    ascii "\x7d" ++
    (match metrics with
      | none => []
      | some metrics =>
          ascii ",\"metrics\":\x7b\"file_bytes\":" ++
            decimal metrics.fileSize.toNat ++ ascii ",\"memory_bytes\":" ++
            decimal metrics.declaredMemoryBytes.toNat ++
            ascii ",\"executable_bytes\":" ++
            decimal metrics.executableBytes.toNat ++ ascii "\x7d") ++
    (match hardening with
      | none => []
      | some hardening =>
          ascii ",\"hardening_score\":" ++ decimal hardening.score.toNat) ++
    ascii ",\"items\":["

def emitTables (image : BinaryImage) (options : ReportOptions)
    (report : Report) : Option Report := do
  let report := emitTable options options.includeSections sectionItem
    image.sections report
  let report := emitTable options options.includeSegments segmentItem
    image.segments report
  let report := emitTable options options.includeSymbols symbolItem
    image.symbols report
  let report ← emitIndexedTable options options.includeImports importItem
    image.imports report
  emitIndexedTable options options.includeExports exportItem image.exports
    report

def writeJson (image : BinaryImage) (options : ReportOptions)
    (metrics : Option ImageMetrics) (hardening : Option HardeningReport) :
    Option Bytes :=
  if options.format = .jsonLines then
    (emitTables image options {}).map Report.output
  else do
    let report ← emitTables image options
      { output := jsonHeader image metrics hardening }
    return report.output ++ ascii "],\"truncated\":" ++
      (if report.available options then ascii "false" else ascii "true") ++
      ascii "\x7d"

/-! ## The call -/

/-- A part of the report that the options ask for. -/
def includedPart {α : Type} (included : Bool) (part : Except Failure α) :
    Except Failure (Option α) :=
  if included then part.map some else .ok none

/-- There is no text when a loop over the imports or exports never ends. -/
def write (limits : Limits) (image : BinaryImage) (options : ReportOptions) :
    Except Failure (Option Bytes) := do
  rejectIf (options.maximumItems = 0 ∨
      options.maximumItems > limits.maxSymbols)
    (failure .resourceLimit 0 "report item limit is invalid")
  let validation := BinaryValidator.validate limits image
  rejectIf (validation.valid = false)
    (.reported (validation.errors.headD {}))
  let metrics ← includedPart options.includeMetrics
    (ImageAnalyzer.analyze limits image)
  let hardening ← includedPart options.includeHardening
    (HardeningAnalyzer.analyze limits image)
  if options.format = .text then
    return some (writeText image options metrics hardening)
  else return writeJson image options metrics hardening

end BinaryReportWriter
end BinForge
