import BinForge.RelocationDecoder

/-!
# The ELF parser

`ElfParser` reads the identification and the header, then the section table,
the program table, every symbol table and every relocation table.  All symbols
go to one list, in the order of the section table, and so do all relocations.
A seek whose result the source does not look at is an `attempt`.
-/

namespace BinForge

open StatefulExcept
open ListSplice
open ByteReader

namespace ElfParser

def elfArch (machine : UInt16) : Architecture :=
  if machine = 3 then .x86
  else if machine = 62 then .x86_64
  else if machine = 40 then .arm
  else if machine = 183 then .arm64
  else if machine = 243 then .riscv64
  else .unknown

def elfKind (type : UInt16) : BinaryKind :=
  if type = 1 then .relocatable
  else if type = 2 then .executable
  else if type = 3 then .sharedLibrary
  else if type = 4 then .core
  else .unknown

def elfSectionKind (type : UInt32) (name : Bytes) : SectionKind :=
  let debug := (ascii ".debug").isPrefixOf name
  if type = 1 then if debug then .debug else .programBits
  else if type = 2 then .symbolTable
  else if type = 3 then .stringTable
  else if type = 4 then .relocationAddends
  else if type = 7 then .notes
  else if type = 8 then .noBits
  else if type = 9 then .relocations
  else if type = 11 then .dynamicSymbols
  else if debug then .debug
  else .unknown

def elfSymbolKind (info : UInt8) : SymbolKind :=
  let type := info &&& 0xf
  if type = 1 then .object
  else if type = 2 then .function
  else if type = 3 then .section
  else if type = 4 then .file
  else if type = 5 then .common
  else if type = 6 then .tlsObject
  else .unknown

def elfBinding (info : UInt8) (sectionIndex : UInt16) : SymbolBinding :=
  if sectionIndex = 0 then .importSymbol
  else if info >>> 4 = 1 then .global
  else if info >>> 4 = 2 then .weak
  else .local

/-- `goto truncated`: the error is placed where the reader stopped. -/
def truncatedAt {α : Type} (action : ReaderCall α) : DecodeCall α :=
  adaptError (reportAt .truncated "ELF structure is truncated") action

/-! ## Header -/

structure ElfHeader where
  entry : UInt64
  programOffset : UInt64
  sectionOffset : UInt64
  flags : UInt32
  headerSize : UInt16
  programEntrySize : UInt16
  programCount : UInt16
  sectionEntrySize : UInt16
  sectionCount : UInt16
  namesIndex : UInt16
  deriving DecidableEq, Repr

def readCommonHeader : ReaderCall (UInt16 × UInt16) := do
  let type ← readU16
  let machine ← readU16
  let version ← readU32
  rejectIf (version ≠ 1) ()
  return (type, machine)

def readElfHeader (wide : Bool) : ReaderCall ElfHeader := do
  let entry ← readWord wide
  let programOffset ← readWord wide
  let sectionOffset ← readWord wide
  let flags ← readU32
  let headerSize ← readU16
  let programEntrySize ← readU16
  let programCount ← readU16
  let sectionEntrySize ← readU16
  let sectionCount ← readU16
  let namesIndex ← readU16
  return { entry, programOffset, sectionOffset, flags, headerSize,
           programEntrySize, programCount, sectionEntrySize, sectionCount,
           namesIndex }

/-! ## Sections -/

structure RawSection where
  name : UInt32 := 0
  type : UInt32 := 0
  flags : UInt64 := 0
  address : UInt64 := 0
  offset : UInt64 := 0
  size : UInt64 := 0
  link : UInt32 := 0
  info : UInt32 := 0
  alignment : UInt64 := 1
  entrySize : UInt64 := 0
  deriving DecidableEq, Repr

def readSection (wide : Bool) : ReaderCall RawSection := do
  let name ← readU32
  let type ← readU32
  let flags ← readWord wide
  let address ← readWord wide
  let offset ← readWord wide
  let size ← readWord wide
  let link ← readU32
  let info ← readU32
  let alignment ← readWord wide
  let entrySize ← readWord wide
  return { name, type, flags, address, offset, size, link, info, alignment,
           entrySize }

def tableString (data : Bytes) (table : RawSection) (offset : UInt32)
    (maximum : UInt64) : Option Bytes :=
  if offset.toUInt64 ≥ table.size ∨ table.size > maximum then none
  else readCString { data } (table.offset + offset.toUInt64)
    (table.size - offset.toUInt64)

def readRawSection (data : Bytes) (wide : Bool) (header : ElfHeader)
    (index : ℕ) : DecodeCall RawSection := do
  let item ← truncatedAt (do
    seek (header.sectionOffset +
      UInt64.ofNat index * header.sectionEntrySize.toUInt64)
    readSection wide)
  rejectIf (item.type ≠ 8 ∧
      rangeInside item.offset.toNat item.size.toNat data.length = false)
    (failure .fileRangeOverflow item.offset "ELF section data is outside file")
  return item

def readRawSections (data : Bytes) (wide : Bool) (header : ElfHeader) :
    DecodeCall (List RawSection) := do
  let outside := failure .invalidSection header.sectionOffset
    "ELF section table is invalid"
  let tableBytes ← demand (checkedMultiply header.sectionEntrySize.toUInt64
    header.sectionCount.toUInt64) outside
  rejectIf (rangeInside header.sectionOffset.toNat tableBytes.toNat
        data.length = false ∨
      header.sectionCount ≠ 0 ∧
        header.sectionEntrySize < (if wide then 64 else 40)) outside
  StatefulExcept.traverse (readRawSection data wide header)
    (List.range header.sectionCount.toNat)

def elfPermissions (flags : UInt64) : UInt8 :=
  permissionRead ||| (if flags &&& 1 ≠ 0 then permissionWrite else 0) |||
    (if flags &&& 4 ≠ 0 then permissionExecute else 0)

/-- The name, or nothing when it cannot be read. -/
def sectionName (limits : Limits) (data : Bytes) (raw : List RawSection)
    (namesIndex : UInt16) (item : RawSection) : Bytes :=
  match raw[namesIndex.toNat]? with
  | none => []
  | some names =>
      (tableString data names item.name limits.maxStringBytes).getD []

def RawSection.toSection (limits : Limits) (data : Bytes)
    (raw : List RawSection) (namesIndex : UInt16) (item : RawSection)
    (index : ℕ) : Section :=
  let name := sectionName limits data raw namesIndex item
  { index := UInt32.ofNat index, name, kind := elfSectionKind item.type name
    fileOffset := item.offset, fileSize := item.size
    virtualAddress := item.address, memorySize := item.size
    alignment := if item.alignment ≠ 0 then item.alignment else 1
    entrySize := item.entrySize, link := item.link, info := item.info
    permissions := elfPermissions item.flags }

/-! ## Segments -/

structure ProgramHeader where
  kind : UInt32
  flags : UInt32
  fileOffset : UInt64
  virtualAddress : UInt64
  fileSize : UInt64
  memorySize : UInt64
  alignment : UInt64
  deriving DecidableEq, Repr

/-- The wide form has its flags behind the type. -/
def readProgramHeader (wide : Bool) : ReaderCall ProgramHeader := do
  let kind ← readU32
  if wide then do
    let flags ← readU32
    let fileOffset ← readU64
    let virtualAddress ← readU64
    let _physical ← readU64
    let fileSize ← readU64
    let memorySize ← readU64
    let alignment ← readU64
    return { kind, flags, fileOffset, virtualAddress, fileSize, memorySize,
             alignment }
  else do
    let fileOffset ← readU32
    let virtualAddress ← readU32
    let _physical ← readU32
    let fileSize ← readU32
    let memorySize ← readU32
    let flags ← readU32
    let alignment ← readU32
    return { kind, flags, fileOffset := fileOffset.toUInt64
             virtualAddress := virtualAddress.toUInt64
             fileSize := fileSize.toUInt64, memorySize := memorySize.toUInt64
             alignment := alignment.toUInt64 }

def segmentPermissions (flags : UInt32) : UInt8 :=
  (if flags &&& 4 ≠ 0 then permissionRead else 0) |||
    (if flags &&& 2 ≠ 0 then permissionWrite else 0) |||
    (if flags &&& 1 ≠ 0 then permissionExecute else 0)

def ProgramHeader.toSegment (header : ProgramHeader) (index : ℕ) : Segment :=
  { index := UInt32.ofNat index, fileOffset := header.fileOffset
    fileSize := header.fileSize, virtualAddress := header.virtualAddress
    memorySize := header.memorySize, alignment := header.alignment
    permissions := segmentPermissions header.flags }

def readSegment (data : Bytes) (wide : Bool) (header : ElfHeader)
    (segments : List Segment) (index : ℕ) : DecodeCall (List Segment) := do
  let _ ← attempt (seek (header.programOffset +
    UInt64.ofNat index * header.programEntrySize.toUInt64))
  let entry ← truncatedAt (readProgramHeader wide)
  if entry.kind ≠ 1 then return segments
  else do
    rejectIf (entry.fileSize > entry.memorySize ∨
        rangeInside entry.fileOffset.toNat entry.fileSize.toNat data.length =
          false)
      (failure .invalidSegment entry.fileOffset
        "ELF load segment range is invalid")
    return segments ++ [entry.toSegment index]

def readSegments (data : Bytes) (wide : Bool) (header : ElfHeader) :
    DecodeCall (List Segment) := do
  let outside := failure .invalidSegment header.programOffset
    "ELF program table is invalid"
  let tableBytes ← demand (checkedMultiply header.programEntrySize.toUInt64
    header.programCount.toUInt64) outside
  rejectIf (rangeInside header.programOffset.toNat tableBytes.toNat
        data.length = false ∨
      header.programCount ≠ 0 ∧
        header.programEntrySize < (if wide then 56 else 32)) outside
  (List.range header.programCount.toNat).foldlM (readSegment data wide header) []

/-! ## Symbols -/

structure SymbolEntry where
  name : UInt32
  info : UInt8
  other : UInt8
  sectionIndex : UInt16
  value : UInt64
  size : UInt64
  deriving DecidableEq, Repr

def readSymbolEntry (wide : Bool) : ReaderCall SymbolEntry := do
  let name ← readU32
  if wide then do
    let info ← readU8
    let other ← readU8
    let sectionIndex ← readU16
    let value ← readU64
    let size ← readU64
    return { name, info, other, sectionIndex, value, size }
  else do
    let value ← readU32
    let size ← readU32
    let info ← readU8
    let other ← readU8
    let sectionIndex ← readU16
    return { name, info, other, sectionIndex, value := value.toUInt64
             size := size.toUInt64 }

def SymbolEntry.toSymbol (limits : Limits) (data : Bytes)
    (strings : RawSection) (entry : SymbolEntry) (index : ℕ) : Symbol :=
  { index := UInt32.ofNat index, value := entry.value, size := entry.size
    sectionIndex := entry.sectionIndex.toUInt32
    visibility := entry.other &&& 3, kind := elfSymbolKind entry.info
    binding := elfBinding entry.info entry.sectionIndex
    name := (tableString data strings entry.name limits.maxStringBytes).getD [] }

def readSymbol (limits : Limits) (data : Bytes) (wide : Bool)
    (table strings : RawSection) (symbols : List Symbol) (j : ℕ) :
    DecodeCall (List Symbol) := do
  let _ ← attempt (seek (table.offset + UInt64.ofNat j * table.entrySize))
  let entry ← truncatedAt (readSymbolEntry wide)
  return symbols ++ [entry.toSymbol limits data strings symbols.length]

/-- A section whose symbols are read. -/
def RawSection.isSymbolTable (raw : List RawSection) (item : RawSection) :
    Prop :=
  (item.type = 2 ∨ item.type = 11) ∧ item.entrySize ≠ 0 ∧
    item.link.toNat < raw.length

instance (raw : List RawSection) (item : RawSection) :
    Decidable (item.isSymbolTable raw) :=
  inferInstanceAs (Decidable (_ ∧ _ ∧ _))

def readSymbolTable (limits : Limits) (data : Bytes) (wide : Bool)
    (raw : List RawSection) (symbols : List Symbol) (table : RawSection) :
    DecodeCall (List Symbol) :=
  if table.isSymbolTable raw then do
    let count := table.size / table.entrySize
    rejectIf (count > limits.maxSymbols.toUInt64)
      (failure .resourceLimit table.offset "ELF symbol limit")
    (List.range count.toNat).foldlM
      (readSymbol limits data wide table (raw.getD table.link.toNat {})) symbols
  else pure symbols

/-! ## Relocations -/

def relocationOptions (header : FileHeader) (sections : List Section)
    (item : RawSection) : RelocationDecodeOptions :=
  { architecture := header.architecture, wordSize := header.wordSize
    byteOrder := header.byteOrder, targetSection := item.info
    entrySize := item.entrySize, explicitAddends := item.type == 4
    baseAddress :=
      match sections[item.info.toNat]? with
      | some target =>
          if header.kind = .relocatable then target.virtualAddress else 0
      | none => 0 }

/-- A section whose relocations are decoded. -/
def RawSection.isRelocationTable (item : RawSection) : Prop :=
  (item.type = 4 ∨ item.type = 9) ∧ item.size ≠ 0

instance (item : RawSection) : Decidable item.isRelocationTable :=
  inferInstanceAs (Decidable (_ ∧ _))

def decodeRelocations (limits : Limits) (data : Bytes) (header : FileHeader)
    (sections : List Section) (relocations : List Relocation)
    (item : RawSection) : Except Failure (List Relocation) :=
  if item.isRelocationTable then
    RelocationTableDecoder.decodeElf limits
      (slice data item.offset.toNat item.size.toNat)
      (relocationOptions header sections item) relocations
  else .ok relocations

/-! ## The whole file -/

def parseIdentification (data : Bytes) : Except Failure (Bool × ByteOrder) := do
  let encodedClass := data.getD 4 0
  rejectIf (data.length < 52 ∨ encodedClass < 1 ∨ encodedClass > 2)
    (failure .truncated 0 "ELF identification is truncated")
  let wide := encodedClass == 2
  if data.getD 5 0 = 1 then return (wide, .little)
  else if data.getD 5 0 = 2 then return (wide, .big)
  else throw (failure .unsupportedEndian 5 "invalid ELF encoding")

def imageHeader (wide : Bool) (order : ByteOrder) (type machine : UInt16)
    (header : ElfHeader) : FileHeader :=
  { format := .elfLike, wordSize := if wide then .bits64 else .bits32
    byteOrder := order, kind := elfKind type, architecture := elfArch machine
    entryPoint := header.entry, sectionTableOffset := header.sectionOffset
    segmentTableOffset := header.programOffset
    sectionCount := header.sectionCount.toUInt32
    segmentCount := header.programCount.toUInt32, flags := header.flags }

def parseImage (limits : Limits) (data : Bytes) (wide : Bool)
    (order : ByteOrder) : DecodeCall BinaryImage := do
  silently (seek 16)
  let (type, machine) ← reporting
    (failure .invalidHeader 16 "invalid ELF common header") readCommonHeader
  let header ← truncatedAt (readElfHeader wide)
  rejectIf (header.sectionCount.toUInt32 > limits.maxSections ∨
      header.programCount.toUInt32 > limits.maxSegments)
    (failure .resourceLimit 0 "ELF table count exceeds limits")
  let raw ← readRawSections data wide header
  let sections := raw.mapIdx fun index item =>
    item.toSection limits data raw header.namesIndex index
  let segments ← readSegments data wide header
  let symbols ← raw.foldlM (readSymbolTable limits data wide raw) []
  let fileHeader := imageHeader wide order type machine header
  let relocations ← liftExcept
    (raw.foldlM (decodeRelocations limits data fileHeader sections) [])
  return { fileData := some data, header := fileHeader, sections, segments,
           symbols, relocations }

def parse (limits : Limits) (data : Bytes) : Except Failure BinaryImage := do
  let (wide, order) ← parseIdentification data
  evaluate (parseImage limits data wide order) { data, order }

end ElfParser
end BinForge
