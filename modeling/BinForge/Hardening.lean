import BinForge.ImageAnalyzer

/-!
# The hardening report

`HardeningAnalyzer` looks for what a valid image lacks or should not have.
Every finding costs points of a score that starts at one hundred.
-/

namespace BinForge

inductive FindingSeverity
  | information
  | low
  | medium
  | high
  | critical
  deriving DecidableEq, Repr

inductive FindingCategory
  | malformedStructure
  | writableExecutable
  | missingHardening
  | suspiciousLayout
  | suspiciousImport
  | suspiciousExport
  | highEntropy
  | entryPoint
  | debugInformation
  | relocationPolicy
  deriving DecidableEq, Repr

structure HardeningFinding where
  severity : FindingSeverity := .information
  category : FindingCategory := .malformedStructure
  title : Bytes := []
  detail : Bytes := []
  address : UInt64 := 0
  sectionIndex : Option UInt32 := none
  deriving DecidableEq, Repr

structure HardeningReport where
  score : UInt32 := 100
  positionIndependent : Bool := false
  nonExecutableData : Bool := true
  writableExecutable : Bool := false
  immediateBinding : Bool := false
  stackProtection : Bool := false
  controlFlowProtection : Bool := false
  stripped : Bool := false
  findings : List HardeningFinding := []
  deriving DecidableEq, Repr

/-- The enumerator's number. -/
def FindingSeverity.rank : FindingSeverity → ℕ
  | .information => 0
  | .low => 1
  | .medium => 2
  | .high => 3
  | .critical => 4

def FindingSeverity.penalty : FindingSeverity → UInt32
  | .information => 0
  | .low => 3
  | .medium => 8
  | .high => 15
  | .critical => 25

namespace HardeningAnalyzer

open StatefulExcept
open BinaryLoader

def addFinding (report : HardeningReport) (finding : HardeningFinding) :
    HardeningReport :=
  { report with
    findings := report.findings ++ [finding]
    score :=
      if finding.severity.penalty > report.score then 0
      else report.score - finding.severity.penalty }

/-- `add_finding` under a condition. -/
def addFindingIf (condition : Prop) [Decidable condition]
    (finding : HardeningFinding) (report : HardeningReport) :
    HardeningReport :=
  if condition then addFinding report finding else report

/-- `text.find(fragment) != npos`. -/
def mentions (text fragment : Bytes) : Prop := fragment <:+: text

instance (text fragment : Bytes) : Decidable (mentions text fragment) :=
  inferInstanceAs (Decidable (_ <:+: _))

def symbolNamedLike (image : BinaryImage) (fragment : Bytes) : Prop :=
  (∃ symbol ∈ image.symbols, mentions symbol.name fragment) ∨
    ∃ imported ∈ image.imports, mentions imported.name fragment

instance (image : BinaryImage) (fragment : Bytes) :
    Decidable (symbolNamedLike image fragment) :=
  inferInstanceAs (Decidable (_ ∨ _))

def toLower (character : UInt8) : UInt8 :=
  if 0x41 ≤ character ∧ character ≤ 0x5a then character + 0x20 else character

def suspiciousPatterns : List Bytes :=
  ["virtualprotect", "writeprocessmemory", "createremotethread", "ptrace",
    "mprotect", "process_vm_writev", "dlopen", "loadlibrary", "getprocaddress",
    "winexec", "system", "popen"].map ascii

def suspiciousImport (name : Bytes) : Prop :=
  ∃ pattern ∈ suspiciousPatterns, mentions (name.map toLower) pattern

instance (name : Bytes) : Decidable (suspiciousImport name) :=
  inferInstanceAs (Decidable (∃ _ ∈ _, _))

/-! ## The image as a whole -/

/-- The report before anything is found. -/
def initialReport (image : BinaryImage) : HardeningReport :=
  { positionIndependent := image.header.kind = .sharedLibrary ∨
      image.header.format = .peLike ∧ image.header.flags &&& 0x40 ≠ 0
    stripped := image.symbols = [] ∨
      ∀ item ∈ image.sections, item.kind ≠ .symbolTable
    stackProtection := symbolNamedLike image "stack_chk" ∨
      symbolNamedLike image "security_cookie"
    controlFlowProtection := symbolNamedLike image "guard_check" ∨
      symbolNamedLike image "__cfi" ∨
      ∃ item ∈ image.sections, item.name = ascii ".note.gnu.property" }

/-! ## Sections -/

def checkWritableExecutable (report : HardeningReport) (item : Section) :
    HardeningReport :=
  let writable := hasPermission item.permissions permissionWrite
  let executable := hasPermission item.permissions permissionExecute
  if writable ∧ executable then
    addFinding { report with writableExecutable := true
                             nonExecutableData := false }
      { severity := .critical, category := .writableExecutable
        title := "Writable and executable section"
        detail := item.name ++ ascii " permits both writes and execution"
        address := item.virtualAddress, sectionIndex := some item.index }
  else if executable ∧ item.kind = .noBits then
    addFinding report
      { severity := .high, category := .suspiciousLayout
        title := "Executable zero-fill section"
        detail := item.name ++ ascii " has no file-backed executable bytes"
        address := item.virtualAddress, sectionIndex := some item.index }
  else report

def checkAlignment (limits : Limits) (item : Section) :
    HardeningReport → HardeningReport :=
  addFindingIf (item.alignment > limits.pageSize.toUInt64 * 1024)
    { severity := .medium, category := .suspiciousLayout
      title := "Unusually large section alignment"
      detail := item.name ++ ascii " requests alignment " ++
        decimal item.alignment.toNat
      address := item.virtualAddress, sectionIndex := some item.index }

def checkExpansion (item : Section) : HardeningReport → HardeningReport :=
  addFindingIf (item.fileSize ≠ 0 ∧ item.memorySize > item.fileSize * 1024)
    { severity := .medium, category := .suspiciousLayout
      title := "Large zero-fill expansion"
      detail := item.name ++ ascii " expands significantly when mapped"
      address := item.virtualAddress, sectionIndex := some item.index }

/-- The body of the loop over the sections. -/
def checkSection (limits : Limits) (report : HardeningReport)
    (item : Section) : HardeningReport :=
  checkExpansion item
    (checkAlignment limits item (checkWritableExecutable report item))

def checkEntropy (image : BinaryImage) (report : HardeningReport)
    (found : SectionMetrics) : HardeningReport :=
  let item := image.section? found.sectionIndex
  addFindingIf (found.likelyCompressed = true)
    { severity :=
        if ∃ original ∈ item,
          hasPermission original.permissions permissionExecute then .high
        else .low
      category := .highEntropy, title := "High-entropy section"
      detail := item.elim "unnamed section" Section.name
      address := item.elim 0 Section.virtualAddress
      sectionIndex := some found.sectionIndex } report

/-! ## Imports, exports and the entry point -/

def checkImport (report : HardeningReport) (imported : Import) :
    HardeningReport :=
  addFindingIf (suspiciousImport imported.name)
    { severity := .medium, category := .suspiciousImport
      title := "Sensitive imported API"
      detail := imported.library ++ ascii "!" ++ imported.name
      address := imported.slotAddress } report

def checkExport (report : HardeningReport) (exported : Export) :
    HardeningReport :=
  addFindingIf (exported.forwarded = true ∧ exported.forwardTarget = [])
    { severity := .medium, category := .suspiciousExport
      title := "Invalid forwarded export"
      detail := exported.name ++ ascii " lacks a forward target"
      address := exported.address } report

/-- The segment contains the entry point; one that wraps is passed over. -/
def containsEntry (image : BinaryImage) (segment : Segment) : Prop :=
  ∃ last ∈ checkedAdd segment.virtualAddress segment.memorySize,
    image.header.entryPoint ≥ segment.virtualAddress ∧
      image.header.entryPoint < last

instance (image : BinaryImage) (segment : Segment) :
    Decidable (containsEntry image segment) :=
  inferInstanceAs (Decidable (∃ _ ∈ _, _))

def checkEntry (image : BinaryImage) (report : HardeningReport) :
    HardeningReport :=
  match image.segments.find? fun segment => containsEntry image segment with
  | some segment =>
      addFindingIf (¬hasPermission segment.permissions permissionExecute)
        { severity := .high, category := .entryPoint
          title := "Entry point is not executable"
          detail := "The declared entry lies in a non-executable segment"
          address := image.header.entryPoint } report
  | none =>
      addFindingIf (image.header.entryPoint ≠ 0)
        { severity := .high, category := .entryPoint
          title := "Entry point is unmapped"
          detail := "The declared entry does not lie in a load segment"
          address := image.header.entryPoint } report

/-! ## What is missing -/

def checkPosition (image : BinaryImage) (report : HardeningReport) :
    HardeningReport :=
  addFindingIf (report.positionIndependent = false ∧
      image.header.kind ≠ .relocatable)
    { severity := .medium, category := .missingHardening
      title := "Position independence not detected"
      detail := "The image may require a fixed load address" } report

def checkStack (report : HardeningReport) : HardeningReport :=
  addFindingIf (report.stackProtection = false)
    { severity := .low, category := .missingHardening
      title := "Stack protection not detected"
      detail := "No known stack guard symbols were found" } report

def checkControlFlow (report : HardeningReport) : HardeningReport :=
  addFindingIf (report.controlFlowProtection = false)
    { severity := .low, category := .missingHardening
      title := "Control-flow protection not detected"
      detail := "No known control-flow guard metadata was found" } report

def checkDebug (image : BinaryImage) (report : HardeningReport) :
    HardeningReport :=
  addFindingIf (image.debugUnits.length ≠ 0)
    { severity := .information, category := .debugInformation
      title := "Debug information present"
      detail := decimal image.debugUnits.length ++
        ascii " debug units are retained" } report

def checkRelocations (image : BinaryImage) (report : HardeningReport) :
    HardeningReport :=
  addFindingIf (image.relocations = [] ∧ report.positionIndependent = true)
    { severity := .low, category := .relocationPolicy
      title := "Position-independent image has no relocations"
      detail := "Relocation metadata may have been stripped" } report

/-- The findings that need the metrics of the image, and all after them. -/
def checkImage (image : BinaryImage) (metrics : ImageMetrics)
    (report : HardeningReport) : HardeningReport :=
  let report := metrics.sections.foldl (checkEntropy image) report
  let report := image.imports.foldl checkImport report
  let report := image.exports.foldl checkExport report
  let report := checkPosition image (checkEntry image report)
  checkRelocations image (checkDebug image
    (checkControlFlow (checkStack report)))

/-- A stable sort, the most severe findings first. -/
def sortFindings (findings : List HardeningFinding) : List HardeningFinding :=
  findings.insertionSort fun left right =>
    left.severity.rank ≥ right.severity.rank

def analyze (limits : Limits) (image : BinaryImage) :
    Except Failure HardeningReport := do
  let validation := BinaryValidator.validate limits image
  rejectIf (validation.valid = false)
    (.reported (validation.errors.headD {}))
  let report := image.sections.foldl (checkSection limits)
    (initialReport image)
  let metrics ← ImageAnalyzer.analyze limits image
  let report := checkImage image metrics report
  return { report with findings := sortFindings report.findings }

end HardeningAnalyzer
end BinForge
