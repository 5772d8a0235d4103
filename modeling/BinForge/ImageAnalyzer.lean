import BinForge.Loader
import BinForge.Validator

/-!
# Image metrics

`ImageAnalyzer` walks the sections of a valid image once, adds up what they
declare, and looks at the bytes of each: how often every value occurs, the
entropy of that distribution, and what it suggests.
-/

namespace BinForge

structure AddressRange where
  first : UInt64 := 0
  last : UInt64 := 0
  permissions : UInt8 := permissionNone
  owner : Bytes := []
  deriving DecidableEq, Repr

/-- `begin` and `end` of the source are `first` and `last`; the range does not
contain `last`. -/
def AddressRange.overlaps (range other : AddressRange) : Prop :=
  range.first < other.last ∧ other.first < range.last

instance (range other : AddressRange) : Decidable (range.overlaps other) :=
  inferInstanceAs (Decidable (_ ∧ _))

structure SectionMetrics where
  sectionIndex : UInt32 := 0
  zeroBytes : UInt64 := 0
  printableBytes : UInt64 := 0
  uniqueByteValues : UInt64 := 0
  entropy : Float := 0
  checksum : UInt32 := 0
  likelyCode : Bool := false
  likelyCompressed : Bool := false

structure ImageMetrics where
  fileSize : UInt64 := 0
  declaredFileBytes : UInt64 := 0
  declaredMemoryBytes : UInt64 := 0
  executableBytes : UInt64 := 0
  writableBytes : UInt64 := 0
  zeroFillBytes : UInt64 := 0
  namedSections : UInt32 := 0
  importedSymbols : UInt32 := 0
  exportedSymbols : UInt32 := 0
  sections : List SectionMetrics := []
  addressRanges : List AddressRange := []
  anomalies : List Bytes := []

def BinaryImage.section? (image : BinaryImage) (index : UInt32) :
    Option Section :=
  image.sections[index.toNat]?

namespace ImageAnalyzer

open StatefulExcept
open BinaryLoader

/-! ## One section -/

def printable (value : UInt8) : Prop :=
  0x20 ≤ value ∧ value ≤ 0x7e ∨ value = 0x0a ∨ value = 0x0d ∨ value = 0x09

instance : DecidablePred printable :=
  fun _ => inferInstanceAs (Decidable (_ ∨ _))

/-- How often each byte value occurs. -/
def frequencies (bytes : Bytes) : List UInt64 :=
  (List.range 256).map fun value =>
    UInt64.ofNat (bytes.count (UInt8.ofNat value))

/-- One round of the entropy loop. -/
def addFrequency (size : UInt64) (entropy : Float) (frequency : UInt64) :
    Float :=
  if frequency = 0 then entropy
  else
    let probability := frequency.toFloat / size.toFloat
    entropy - probability * probability.log2

/-- The part of `analyze_section` that looks at the bytes of the section. -/
def analyzeBytes (item : Section) (bytes : Bytes) : SectionMetrics :=
  let counts := frequencies bytes
  let zeroBytes := UInt64.ofNat (bytes.count 0)
  let printableBytes := UInt64.ofNat (bytes.countP fun byte => printable byte)
  let uniqueByteValues := UInt64.ofNat (counts.countP (· ≠ 0))
  let entropy := counts.foldl (addFrequency item.fileSize) 0
  { sectionIndex := item.index
    zeroBytes, printableBytes, uniqueByteValues, entropy
    checksum := crc32 bytes
    likelyCode := hasPermission item.permissions permissionExecute ∧
      zeroBytes * 4 < item.fileSize * 3
    likelyCompressed := entropy > 7.2 ∧ uniqueByteValues > 192 ∧
      printableBytes * 4 < item.fileSize }

def analyzeSection (limits : Limits) (image : BinaryImage) (item : Section) :
    Except Failure SectionMetrics := do
  let data ← demand image.fileData
    (failure .invalidHeader item.fileOffset
      "section analysis requires backing bytes")
  if item.kind = .noBits ∨ item.fileSize = 0 then
    return { sectionIndex := item.index, zeroBytes := item.memorySize }
  else
    rejectIf (item.fileSize > limits.maxSectionBytes ∨
        rangeInside item.fileOffset.toNat item.fileSize.toNat
          data.length = false)
      (failure .invalidSection item.fileOffset
        "section analysis range is invalid")
    return analyzeBytes item
      ((data.drop item.fileOffset.toNat).take item.fileSize.toNat)

/-! ## The section loop -/

/-- A `checked_add` into a total. -/
def addTotal (total amount offset : UInt64) (message : Bytes) :
    Except Failure UInt64 :=
  demand (checkedAdd total amount) (failure .addressOverflow offset message)

/-- An addition that the source makes under a condition. -/
def addTotalIf (condition : Prop) [Decidable condition]
    (total amount offset : UInt64) (message : Bytes) : Except Failure UInt64 :=
  if condition then addTotal total amount offset message else return total

/-- The body of the loop over the sections. -/
def addSection (limits : Limits) (image : BinaryImage) (metrics : ImageMetrics)
    (item : Section) : Except Failure ImageMetrics := do
  let declaredFileBytes ← addTotal metrics.declaredFileBytes item.fileSize
    item.fileOffset "declared file-byte total overflow"
  let declaredMemoryBytes ← addTotal metrics.declaredMemoryBytes item.memorySize
    item.virtualAddress "declared memory-byte total overflow"
  let executableBytes ← addTotalIf
    (hasPermission item.permissions permissionExecute) metrics.executableBytes
    item.memorySize item.virtualAddress "executable-byte total overflow"
  let writableBytes ← addTotalIf
    (hasPermission item.permissions permissionWrite) metrics.writableBytes
    item.memorySize item.virtualAddress "writable-byte total overflow"
  let zeroFillBytes ← addTotalIf (item.memorySize > item.fileSize)
    metrics.zeroFillBytes (item.memorySize - item.fileSize) item.virtualAddress
    "zero-fill total overflow"
  let found ← analyzeSection limits image item
  return { metrics with
    declaredFileBytes, declaredMemoryBytes, executableBytes, writableBytes
    zeroFillBytes
    namedSections :=
      if item.name = [] then metrics.namedSections
      else metrics.namedSections + 1
    sections := metrics.sections ++ [found] }

/-! ## Segment ranges -/

def segmentRange (segment : Segment) : Except Failure AddressRange := do
  let last ← demand (checkedAdd segment.virtualAddress segment.memorySize)
    (failure .addressOverflow segment.virtualAddress
      "segment range overflows")
  return { first := segment.virtualAddress, last
           permissions := segment.permissions
           owner := segmentName segment }

/-- The comparison the ranges are sorted by. -/
def sortedBefore (left right : AddressRange) : Prop :=
  if left.first ≠ right.first then left.first < right.first
  else left.last < right.last

instance (left right : AddressRange) : Decidable (sortedBefore left right) :=
  inferInstanceAs (Decidable (ite _ _ _))

/-- The source's sort may leave ranges that compare equal in any order; here
they keep the order of their segments. -/
def sortRanges (ranges : List AddressRange) : List AddressRange :=
  ranges.insertionSort fun left right => ¬sortedBefore right left

/-- The loop over neighbouring ranges. -/
def overlapAnomalies : List AddressRange → List Bytes
  | previous :: current :: rest =>
      (if previous.overlaps current then
        [previous.owner ++ ascii " overlaps " ++ current.owner] else []) ++
      overlapAnomalies (current :: rest)
  | _ => []

/-! ## The whole analysis -/

def entropyAnomaly (image : BinaryImage) (found : SectionMetrics) :
    List Bytes :=
  if found.likelyCompressed then
    [ascii "high-entropy section: " ++
      match image.section? found.sectionIndex with
      | some original => original.name
      | none => decimal found.sectionIndex.toNat]
  else []

def writableExecutableAnomaly (item : Section) : List Bytes :=
  if hasPermission item.permissions permissionExecute ∧
      hasPermission item.permissions permissionWrite then
    [ascii "writable-executable section: " ++ item.name]
  else []

def analyze (limits : Limits) (image : BinaryImage) :
    Except Failure ImageMetrics := do
  let validation := BinaryValidator.validate limits image
  rejectIf (validation.valid = false)
    (.reported (validation.errors.headD {}))
  let metrics ← image.sections.foldlM (addSection limits image)
    { fileSize := UInt64.ofNat (image.fileData.elim 0 List.length) }
  let ranges ← image.segments.mapM segmentRange
  let ranges := sortRanges ranges
  return { metrics with
    addressRanges := ranges
    importedSymbols := UInt32.ofNat (image.symbols.countP
      (·.binding = .importSymbol))
    exportedSymbols := UInt32.ofNat (image.symbols.countP fun symbol =>
      symbol.binding = .exportSymbol ∨ symbol.binding = .global)
    anomalies := overlapAnomalies ranges ++
      metrics.sections.flatMap (entropyAnomaly image) ++
      if metrics.executableBytes ≠ 0 ∧ metrics.writableBytes ≠ 0 then
        image.sections.flatMap writableExecutableAnomaly
      else [] }

end ImageAnalyzer
end BinForge
