import BinForge.AddressTranslator
import BinForge.Reader

/-!
# The dynamic section

`ElfDynamicParser` reads the entries of an ELF dynamic section up to the first
null one and resolves the strings they refer to.
-/

namespace BinForge

open StatefulExcept
open ByteReader

structure DynamicEntry where
  tag : Int64 := 0
  value : UInt64 := 0
  deriving DecidableEq, Repr

structure DynamicReport where
  entries : List DynamicEntry := []
  neededLibraries : List Bytes := []
  soname : Option Bytes := none
  runPath : Option Bytes := none
  stringTableAddress : UInt64 := 0
  stringTableSize : UInt64 := 0
  symbolTableAddress : UInt64 := 0
  relocationAddress : UInt64 := 0
  relocationSize : UInt64 := 0
  bindNow : Bool := false
  symbolic : Bool := false
  deriving DecidableEq, Repr

namespace ElfDynamicParser

/-! ## Tags that the parser acts on -/

def dynamicNull : Int64 := 0
def dynamicNeeded : Int64 := 1
def dynamicStringTable : Int64 := 5
def dynamicSymbolTable : Int64 := 6
def dynamicRelocation : Int64 := 7
def dynamicRelocationSize : Int64 := 8
def dynamicStringSize : Int64 := 10
def dynamicSoname : Int64 := 14
def dynamicRpath : Int64 := 15
def dynamicSymbolic : Int64 := 16
def dynamicRel : Int64 := 17
def dynamicRelSize : Int64 := 18
def dynamicBindNow : Int64 := 24
def dynamicRunPath : Int64 := 29
def dynamicFlags : Int64 := 30

/-! ## Entries -/

/-- What the loop over the entries carries along. -/
structure DynamicTable where
  report : DynamicReport := {}
  neededOffsets : List UInt64 := []
  sonameOffset : Option UInt64 := none
  runPathOffset : Option UInt64 := none
  rpathOffset : Option UInt64 := none
  deriving DecidableEq, Repr

/-- The switch over the tag; every tag that is not named changes nothing. -/
def actOn (entry : DynamicEntry) (table : DynamicTable) : DynamicTable :=
  let value := entry.value
  let report := table.report
  if entry.tag = dynamicNeeded then
    { table with neededOffsets := table.neededOffsets ++ [value] }
  else if entry.tag = dynamicStringTable then
    { table with report := { report with stringTableAddress := value } }
  else if entry.tag = dynamicStringSize then
    { table with report := { report with stringTableSize := value } }
  else if entry.tag = dynamicSymbolTable then
    { table with report := { report with symbolTableAddress := value } }
  else if entry.tag = dynamicRelocation ∨ entry.tag = dynamicRel then
    { table with report := { report with relocationAddress := value } }
  else if entry.tag = dynamicRelocationSize ∨ entry.tag = dynamicRelSize then
    { table with report := { report with relocationSize := value } }
  else if entry.tag = dynamicSoname then
    { table with sonameOffset := some value }
  else if entry.tag = dynamicRunPath then
    { table with runPathOffset := some value }
  else if entry.tag = dynamicRpath then
    { table with rpathOffset := some value }
  else if entry.tag = dynamicBindNow then
    { table with report := { report with bindNow := true } }
  else if entry.tag = dynamicSymbolic then
    { table with report := { report with symbolic := true } }
  else if entry.tag = dynamicFlags then
    { table with report := { report with
        bindNow := report.bindNow || value &&& 8 != 0
        symbolic := report.symbolic || value &&& 2 != 0 } }
  else table

def pushEntry (table : DynamicTable) (entry : DynamicEntry) : DynamicTable :=
  actOn entry { table with report := { table.report with
    entries := table.report.entries ++ [entry] } }

def readEntry (wide : Bool) : ReaderCall DynamicEntry :=
  if wide then do
    let tag ← readI64
    let value ← readU64
    return { tag, value }
  else do
    let tag ← readI32
    let value ← readU32
    return { tag := tag.toInt64, value := value.toUInt64 }

def readEntryAt (wide : Bool) (position : UInt64) :
    DecodeCall DynamicEntry := do
  silently (seek position)
  reporting (failure .truncated position
    (if wide then "ELF64 dynamic entry is truncated"
     else "ELF32 dynamic entry is truncated")) (readEntry wide)

def isWide (image : BinaryImage) : Bool := image.header.wordSize == .bits64

def entryMinimum (image : BinaryImage) : UInt64 := if isWide image then 16 else 8

def entryStride (image : BinaryImage) (dynamicSection : Section) : UInt64 :=
  if dynamicSection.entrySize ≠ 0 then dynamicSection.entrySize
  else entryMinimum image

def entryPosition (image : BinaryImage) (dynamicSection : Section)
    (index : ℕ) : UInt64 :=
  dynamicSection.fileOffset +
    UInt64.ofNat index * entryStride image dynamicSection

/-- The loop from this index on, with this many rounds left. -/
def entryLoop (image : BinaryImage) (dynamicSection : Section) :
    ℕ → ℕ → DynamicTable → DecodeCall DynamicTable
  | 0, _, table => pure table
  | rounds + 1, index, table => do
      let entry ← readEntryAt (isWide image)
        (entryPosition image dynamicSection index)
      let table := pushEntry table entry
      if entry.tag = dynamicNull then return table
      else entryLoop image dynamicSection rounds (index + 1) table

/-! ## Strings -/

def dynamicString (image : BinaryImage)
    (tableAddress tableSize stringOffset maximum : UInt64) : Option Bytes :=
  if stringOffset ≥ tableSize then none
  else do
    let file ← AddressTranslator.virtualToFile image
      (tableAddress + stringOffset) 1
    let data ← image.fileData
    let remaining := min (min (tableSize - stringOffset) maximum) file.available
    readCString { data, order := image.header.byteOrder } file.fileOffset
      remaining

/-- The string at an offset of the table the entries describe. -/
def tableString (limits : Limits) (image : BinaryImage) (report : DynamicReport)
    (message : Bytes) (offset : UInt64) : Except Failure Bytes :=
  demand (dynamicString image report.stringTableAddress report.stringTableSize
    offset limits.maxStringBytes) (failure .invalidString offset message)

def DynamicTable.namesStrings (table : DynamicTable) : Bool :=
  !table.neededOffsets.isEmpty || table.sonameOffset.isSome ||
    table.runPathOffset.isSome || table.rpathOffset.isSome

/-- The checks on the string table and the strings themselves. -/
def resolveStrings (limits : Limits) (image : BinaryImage)
    (dynamicSection : Section) (table : DynamicTable) :
    Except Failure DynamicReport := do
  let report := table.report
  rejectIf (table.namesStrings ∧
      (report.stringTableAddress = 0 ∨ report.stringTableSize = 0))
    (failure .invalidString dynamicSection.fileOffset
      "dynamic strings referenced without a string table")
  rejectIf (report.stringTableSize > limits.maxStringBytes)
    (failure .resourceLimit report.stringTableAddress
      "dynamic string table exceeds limit")
  let neededLibraries ← table.neededOffsets.mapM
    (tableString limits image report "needed-library string is invalid")
  let soname ← table.sonameOffset.mapM
    (tableString limits image report "shared-object name is invalid")
  let runPath ← (table.runPathOffset <|> table.rpathOffset).mapM
    (tableString limits image report "dynamic search path is invalid")
  return { report with neededLibraries, soname, runPath }

/-! ## The section -/

def parse (limits : Limits) (image : BinaryImage) (dynamicSection : Section) :
    Except Failure DynamicReport := do
  let place := dynamicSection.fileOffset
  let size := dynamicSection.fileSize
  rejectIf (image.header.format ≠ .elfLike ∨ image.fileData = none)
    (failure .invalidHeader place "dynamic parser requires an ELF image")
  let data := image.fileData.getD []
  rejectIf (rangeInside place.toNat size.toNat data.length = false)
    (failure .invalidSection place "dynamic section is outside the file")
  let entrySize := entryStride image dynamicSection
  rejectIf (entrySize < entryMinimum image ∨ size % entrySize ≠ 0)
    (failure .invalidSection place "dynamic section entry size is invalid")
  let count := size / entrySize
  rejectIf (count > limits.maxSymbols.toUInt64)
    (failure .resourceLimit place "dynamic entry limit exceeded")
  let table ← evaluate (entryLoop image dynamicSection count.toNat 0 {})
    { data, order := image.header.byteOrder }
  resolveStrings limits image dynamicSection table

end ElfDynamicParser
end BinForge
