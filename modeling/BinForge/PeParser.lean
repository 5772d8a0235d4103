import BinForge.AddressTranslator
import BinForge.RelocationDecoder

/-!
# The PE parser

`PeParser` walks DOS header, COFF header, optional header, section table, COFF
symbols and the base-relocation directory.  A seek whose result the source
does not look at is an `attempt`.
-/

namespace BinForge

open StatefulExcept
open ListSplice
open ByteReader

namespace PeParser

def peArch (machine : UInt16) : Architecture :=
  if machine = 0x14c then .x86
  else if machine = 0x8664 then .x86_64
  else if machine = 0x1c0 ∨ machine = 0x1c4 then .arm
  else if machine = 0xaa64 then .arm64
  else if machine = 0x5032 then .riscv32
  else if machine = 0x5064 then .riscv64
  else .unknown

def pePermissions (flags : UInt32) : UInt8 :=
  (if flags &&& 0x40000000 ≠ 0 then permissionRead else 0) |||
    (if flags &&& 0x80000000 ≠ 0 then permissionWrite else 0) |||
    (if flags &&& 0x20000000 ≠ 0 then permissionExecute else 0)

def peSectionKind (name : Bytes) (flags : UInt32) : SectionKind :=
  if name = ascii ".debug" ∨ (ascii ".debug").isPrefixOf name then .debug
  else if name = ascii ".idata" then .imports
  else if name = ascii ".edata" then .exports
  else if name = ascii ".reloc" then .relocations
  else if name = ascii ".rsrc" then .resources
  else if flags &&& 0x80 ≠ 0 then .noBits
  else .programBits

/-! ## Headers -/

structure CoffHeader where
  machine : UInt16
  sections : UInt16
  timestamp : UInt32
  symbolOffset : UInt32
  symbolCount : UInt32
  optionalSize : UInt16
  characteristics : UInt16
  deriving DecidableEq, Repr

def readCoffHeader : ReaderCall CoffHeader := do
  let signature ← readU32
  rejectIf (signature ≠ 0x00004550) ()
  let machine ← readU16
  let sections ← readU16
  let timestamp ← readU32
  let symbolOffset ← readU32
  let symbolCount ← readU32
  let optionalSize ← readU16
  let characteristics ← readU16
  return { machine, sections, timestamp, symbolOffset, symbolCount,
           optionalSize, characteristics }

/-- The optional header's magic says whether it is the wide form. -/
def readWide : ReaderCall Bool := do
  let magic ← readU16
  rejectIf (magic ≠ 0x10b ∧ magic ≠ 0x20b) ()
  return magic == 0x20b

structure StandardFields where
  linkerMajor : UInt8
  linkerMinor : UInt8
  codeSize : UInt32
  initializedSize : UInt32
  uninitializedSize : UInt32
  entry : UInt32
  codeBase : UInt32
  deriving DecidableEq, Repr

def readStandardFields : ReaderCall StandardFields := do
  let linkerMajor ← readU8
  let linkerMinor ← readU8
  let codeSize ← readU32
  let initializedSize ← readU32
  let uninitializedSize ← readU32
  let entry ← readU32
  let codeBase ← readU32
  return { linkerMajor, linkerMinor, codeSize, initializedSize,
           uninitializedSize, entry, codeBase }

def readImageBase (wide : Bool) : ReaderCall UInt64 :=
  if wide then readU64
  else do
    let _dataBase ← readU32
    let base ← readU32
    return base.toUInt64

/-- The section alignment; the file alignment is only checked. -/
def readAlignments : ReaderCall UInt32 := do
  let sectionAlignment ← readU32
  let fileAlignment ← readU32
  rejectIf (sectionAlignment = 0 ∨ fileAlignment = 0) ()
  return sectionAlignment

/-! ## Sections -/

structure SectionHeader where
  name : Bytes
  virtualSize : UInt32
  rva : UInt32
  rawSize : UInt32
  rawOffset : UInt32
  reloc : UInt32
  line : UInt32
  relocCount : UInt32
  lineCount : UInt32
  flags : UInt32
  deriving DecidableEq, Repr

/-- Nine words follow the name; the last lies past the 40-byte record. -/
def readSectionFields (name : Bytes) : ReaderCall SectionHeader := do
  let virtualSize ← readU32
  let rva ← readU32
  let rawSize ← readU32
  let rawOffset ← readU32
  let reloc ← readU32
  let line ← readU32
  let relocCount ← readU32
  let lineCount ← readU32
  let flags ← readU32
  return { name, virtualSize, rva, rawSize, rawOffset, reloc, line, relocCount,
           lineCount, flags }

def SectionHeader.memorySize (header : SectionHeader) : UInt64 :=
  if header.virtualSize.toUInt64 < header.rawSize.toUInt64 then
    header.rawSize.toUInt64
  else header.virtualSize.toUInt64

def SectionHeader.toSection (header : SectionHeader) (index : ℕ)
    (sectionAlignment : UInt32) : Section :=
  { index := UInt32.ofNat index, name := header.name
    kind := peSectionKind header.name header.flags
    fileOffset := header.rawOffset.toUInt64
    fileSize := header.rawSize.toUInt64
    virtualAddress := header.rva.toUInt64, memorySize := header.memorySize
    alignment := sectionAlignment.toUInt64
    permissions := pePermissions header.flags }

def segmentOf (item : Section) : Segment :=
  { index := item.index, fileOffset := item.fileOffset,
    fileSize := item.fileSize, virtualAddress := item.virtualAddress,
    memorySize := item.memorySize, alignment := item.alignment,
    permissions := item.permissions, sections := [item.index] }

def readSection (data : Bytes) (sectionTable : UInt64)
    (sectionAlignment : UInt32) (index : ℕ) : DecodeCall Section := do
  let _ ← attempt (seek (sectionTable + UInt64.ofNat index * 40))
  let name ← silently (readFixedString 8)
  let header ← adaptError (reportAt .truncated "PE section header truncated")
    (readSectionFields name)
  rejectIf (header.rawSize ≠ 0 ∧ rangeInside header.rawOffset.toNat
      header.rawSize.toNat data.length = false)
    (failure .fileRangeOverflow header.rawOffset.toUInt64
      "PE section outside file")
  return header.toSection index sectionAlignment

/-! ## Symbols -/

/-- Where the symbol table and the string table after it lie. -/
structure SymbolTable where
  offset : UInt64
  count : UInt32
  stringBase : UInt64
  stringSize : UInt32
  deriving DecidableEq, Repr

/-- The reads of the symbol loop are not checked; the table was found inside
the file before, so they succeed. -/
def unchecked {α : Type} [Inhabited α] (action : ReaderCall α) :
    DecodeCall α := do
  let value ← attempt action
  return value.getD default

def readSymbolName (data : Bytes) (table : SymbolTable) (i : UInt32) :
    DecodeCall Bytes := do
  let zero ← unchecked readU32
  let nameOffset ← unchecked readU32
  if zero = 0 ∧ nameOffset < table.stringSize then
    return (readCString { data } (table.stringBase + nameOffset.toUInt64)
      (table.stringSize - nameOffset).toUInt64).getD []
  else do
    let _ ← attempt (seek (table.offset + i.toUInt64 * 18))
    unchecked (readFixedString 8)

/-- A symbol and the number of auxiliary records after it. -/
def readSymbol (data : Bytes) (table : SymbolTable) (i : UInt32)
    (index : ℕ) : DecodeCall (Symbol × UInt8) := do
  let _ ← attempt (seek (table.offset + i.toUInt64 * 18))
  let name ← readSymbolName data table i
  let value ← unchecked readU32
  let sectionIndex ← unchecked readU16
  let type ← unchecked readU16
  let storage ← unchecked readU8
  let aux ← unchecked readU8
  return ({ index := UInt32.ofNat index, name, value := value.toUInt64
            sectionIndex := sectionIndex.toUInt32
            kind := if type &&& 0x20 ≠ 0 then .function else .unknown
            binding := if storage = 2 then .global else .local }, aux)

/-- The symbol loop.  Every pass moves on by one record at least, so a pass for
each record is enough. -/
def readSymbols (data : Bytes) (table : SymbolTable) :
    ℕ → UInt32 → List Symbol → DecodeCall (List Symbol)
  | 0, _, output => pure output
  | passes + 1, i, output =>
      if i ≥ table.count then pure output
      else do
        let (symbol, aux) ← readSymbol data table i output.length
        let output := output ++ [symbol]
        let step := aux.toUInt32 + 1
        if step > table.count - i then return output
        else readSymbols data table passes (i + step) output

def parseSymbols (limits : Limits) (data : Bytes) (header : CoffHeader) :
    DecodeCall (List Symbol) :=
  let offset := header.symbolOffset.toUInt64
  let bytes := header.symbolCount.toUInt64 * 18
  if header.symbolCount ≠ 0 ∧ header.symbolCount ≤ limits.maxSymbols ∧
      rangeInside offset.toNat bytes.toNat data.length then do
    let stringBase := offset + bytes
    let stringSize ←
      if rangeInside stringBase.toNat 4 data.length then do
        let _ ← attempt (seek stringBase)
        unchecked readU32
      else pure 0
    readSymbols data
      { offset, count := header.symbolCount, stringBase, stringSize }
      header.symbolCount.toNat 0 []
  else pure []

/-! ## Base relocations -/

/-- The relocation directory's bytes, when there is one. -/
def relocationDirectory (data : Bytes) (image : BinaryImage)
    (optionalOffset : UInt64) (optionalSize : UInt16) (wide : Bool) :
    DecodeCall (Option Bytes) := do
  let countOffset := optionalOffset + if wide then 108 else 92
  let tableOffset := optionalOffset + if wide then 112 else 96
  if rangeInside countOffset.toNat 4 data.length then do
    let _ ← attempt (seek countOffset)
    let stored ← unchecked readU32
    let count := if 16 < stored then 16 else stored
    if count > 5 ∧ rangeInside tableOffset.toNat (count.toNat * 8)
        (optionalOffset + optionalSize.toUInt64).toNat then do
      let _ ← attempt (seek (tableOffset + 40))
      let rva ← unchecked readU32
      let size ← unchecked readU32
      if size = 0 then return none
      else do
        let outside := failure .invalidRelocation rva.toUInt64
          "PE base-relocation directory is outside file data"
        let file ← demand
          (AddressTranslator.rvaToFile image rva.toUInt64 size.toUInt64) outside
        rejectIf (rangeInside file.fileOffset.toNat size.toNat data.length =
          false) outside
        return some (slice data file.fileOffset.toNat size.toNat)
    else return none
  else return none

def parseRelocations (limits : Limits) (data : Bytes) (image : BinaryImage)
    (optionalOffset : UInt64) (optionalSize : UInt16) (wide : Bool) :
    DecodeCall (List Relocation) := do
  let table ← relocationDirectory data image optionalOffset optionalSize wide
  match table with
  | none => return []
  | some table =>
      liftExcept (RelocationTableDecoder.decodePeBase limits table
        image.header.imageBase [])

/-! ## The whole file -/

def parseCoff (limits : Limits) (data : Bytes) :
    DecodeCall (UInt32 × CoffHeader) := do
  rejectIf (data.length < 64 ∨ data.getD 0 0 ≠ 0x4d ∨ data.getD 1 0 ≠ 0x5a)
    (failure .badMagic 0 "invalid DOS signature")
  reporting (failure .truncated 0x3c "missing PE pointer") (seek 0x3c)
  let outside := failure .invalidOffset 0x3c "PE header offset outside file"
  let peOffset ← reporting outside readU32
  rejectIf (rangeInside peOffset.toNat 24 data.length = false) outside
  let _ ← attempt (seek peOffset.toUInt64)
  let header ← reporting (failure .invalidHeader peOffset.toUInt64
    "truncated PE file header") readCoffHeader
  rejectIf (header.sections.toUInt32 > limits.maxSections)
    (failure .resourceLimit peOffset.toUInt64 "PE section count limit")
  return (peOffset, header)

/-- What the parser keeps of the optional header. -/
structure OptionalHeader where
  wide : Bool
  entry : UInt32
  imageBase : UInt64
  sectionAlignment : UInt32
  deriving DecidableEq, Repr

def parseOptional (data : Bytes) (optionalOffset : UInt64)
    (optionalSize : UInt16) : DecodeCall OptionalHeader := do
  rejectIf (rangeInside optionalOffset.toNat optionalSize.toNat data.length =
      false)
    (failure .truncated optionalOffset "PE optional header truncated")
  let _ ← attempt (seek optionalOffset)
  let wide ← reporting (failure .unsupportedClass optionalOffset
    "unknown PE optional header") readWide
  let standard ← adaptError
    (reportAt .truncated "PE optional header fields truncated")
    readStandardFields
  let imageBase ← silently (readImageBase wide)
  let sectionAlignment ← adaptError
    (reportAt .invalidAlignment "invalid PE alignment") readAlignments
  return { wide, entry := standard.entry, imageBase, sectionAlignment }

def parseSections (data : Bytes) (sectionTable : UInt64) (count : UInt16)
    (sectionAlignment : UInt32) : DecodeCall (List Section) := do
  let outside := failure .invalidSection sectionTable
    "PE section table outside file"
  let tableBytes ← demand (checkedMultiply count.toUInt64 40) outside
  rejectIf (rangeInside sectionTable.toNat tableBytes.toNat data.length = false)
    outside
  StatefulExcept.traverse (readSection data sectionTable sectionAlignment)
    (List.range count.toNat)

def imageHeader (coff : CoffHeader) (optional : OptionalHeader)
    (sectionTable : UInt64) : FileHeader :=
  { format := .peLike
    wordSize := if optional.wide then .bits64 else .bits32
    byteOrder := .little
    kind :=
      if coff.characteristics &&& 0x2000 ≠ 0 then .sharedLibrary
      else .executable
    architecture := peArch coff.machine
    entryPoint := optional.imageBase + optional.entry.toUInt64
    imageBase := optional.imageBase, sectionTableOffset := sectionTable
    sectionCount := coff.sections.toUInt32
    flags := coff.characteristics.toUInt32 }

def parseImage (limits : Limits) (data : Bytes) : DecodeCall BinaryImage := do
  let (peOffset, coff) ← parseCoff limits data
  -- The sum is computed in 32 bits.
  let optionalOffset := (peOffset + 24).toUInt64
  let optional ← parseOptional data optionalOffset coff.optionalSize
  let sectionTable := optionalOffset + coff.optionalSize.toUInt64
  let sections ← parseSections data sectionTable coff.sections
    optional.sectionAlignment
  let symbols ← parseSymbols limits data coff
  let image : BinaryImage :=
    { fileData := some data, header := imageHeader coff optional sectionTable
      sections, segments := sections.map segmentOf, symbols }
  let relocations ← parseRelocations limits data image optionalOffset
    coff.optionalSize optional.wide
  return { image with relocations }

def parse (limits : Limits) (data : Bytes) : Except Failure BinaryImage :=
  evaluate (parseImage limits data) { data }

end PeParser
end BinForge
