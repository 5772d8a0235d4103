import BinForge.RelocationDecoder

/-!
# The Mach-O parser

`MachOParser` walks the load commands.  Every segment command carries its
section headers, and every section its relocations, which are decoded on the
way.  Most reads fail without an error.
-/

namespace BinForge

open StatefulExcept
open ListSplice
open ByteReader

namespace MachOParser

def machoArch (cpu : UInt32) : Architecture :=
  if cpu = 7 then .x86
  else if cpu = 0x01000007 then .x86_64
  else if cpu = 12 then .arm
  else if cpu = 0x0100000c then .arm64
  else .unknown

def machoKind (type : UInt32) : BinaryKind :=
  if type = 1 then .relocatable
  else if type = 2 then .executable
  else if type = 4 then .core
  else if type = 6 ∨ type = 8 then .sharedLibrary
  else .unknown

def machoProtection (bits : UInt32) : UInt8 :=
  (if bits &&& 1 ≠ 0 then permissionRead else 0) |||
    (if bits &&& 2 ≠ 0 then permissionWrite else 0) |||
    (if bits &&& 4 ≠ 0 then permissionExecute else 0)

/-! ## Header -/

structure MachHeader where
  cpu : UInt32
  fileType : UInt32
  commandCount : UInt32
  commandBytes : UInt32
  flags : UInt32
  deriving DecidableEq, Repr

def readMachHeader (wide : Bool) : ReaderCall MachHeader := do
  let _magic ← readU32
  let cpu ← readU32
  let _subcpu ← readU32
  let fileType ← readU32
  let commandCount ← readU32
  let commandBytes ← readU32
  let flags ← readU32
  if wide then do
    let _reserved ← readU32
    return { cpu, fileType, commandCount, commandBytes, flags }
  else return { cpu, fileType, commandCount, commandBytes, flags }

/-! ## Sections -/

structure RawSection where
  name : Bytes
  address : UInt64
  size : UInt64
  offset : UInt32
  align : UInt32
  relocationOffset : UInt32
  relocationCount : UInt32
  flags : UInt32
  deriving DecidableEq, Repr

/-- The section header of a 64-bit segment has a third reserved word. -/
def readRawSection (segment64 : Bool) : ReaderCall RawSection := do
  let name ← readFixedString 16
  let _parent ← readFixedString 16
  let address ← readWord segment64
  let size ← readWord segment64
  let offset ← readU32
  let align ← readU32
  let relocationOffset ← readU32
  let relocationCount ← readU32
  let flags ← readU32
  let _reserved1 ← readU32
  let _reserved2 ← readU32
  if segment64 then do
    let _reserved3 ← readU32
    return { name, address, size, offset, align, relocationOffset,
             relocationCount, flags }
  else
    return { name, address, size, offset, align, relocationOffset,
             relocationCount, flags }

/-- The section type of zero-filled sections. -/
def RawSection.zeroFilled (item : RawSection) : Bool :=
  item.flags &&& 0xff == 1

def RawSection.toSection (item : RawSection) (permissions : UInt8)
    (index : ℕ) : Section :=
  { index := UInt32.ofNat index, name := item.name
    kind :=
      if (ascii "__debug").isPrefixOf item.name then .debug
      else if item.zeroFilled then .noBits
      else .programBits
    fileOffset := item.offset.toUInt64
    fileSize := if item.zeroFilled then 0 else item.size
    virtualAddress := item.address, memorySize := item.size
    alignment :=
      if item.align < 63 then (1 : UInt64) <<< item.align.toUInt64 else 1
    permissions }

structure Collected where
  sections : List Section := []
  segments : List Segment := []
  relocations : List Relocation := []
  deriving DecidableEq, Repr

def relocationOptions (header : FileHeader) (item : Section) :
    RelocationDecodeOptions :=
  { architecture := header.architecture, wordSize := header.wordSize
    byteOrder := header.byteOrder, targetSection := item.index
    baseAddress := item.virtualAddress }

def decodeRelocations (limits : Limits) (data : Bytes) (header : FileHeader)
    (raw : RawSection) (item : Section) (relocations : List Relocation) :
    Except Failure (List Relocation) := do
  let outside := failure .invalidRelocation raw.relocationOffset.toUInt64
    "Mach-O relocation table is outside file or too large"
  let bytes ← demand (checkedMultiply raw.relocationCount.toUInt64 8) outside
  rejectIf (rangeInside raw.relocationOffset.toNat bytes.toNat data.length =
        false ∨
      raw.relocationCount.toUInt64 >
        RelocationTableDecoder.relocationRoom limits relocations) outside
  if bytes ≠ 0 then
    RelocationTableDecoder.decodeMacho limits
      (slice data raw.relocationOffset.toNat bytes.toNat)
      (relocationOptions header item) relocations
  else return relocations

def readSection (limits : Limits) (data : Bytes) (header : FileHeader)
    (segment64 : Bool) (permissions : UInt8) (collected : Collected)
    (_index : ℕ) : DecodeCall Collected := do
  let raw ← silently (readRawSection segment64)
  rejectIf (raw.zeroFilled = false ∧
      rangeInside raw.offset.toNat raw.size.toNat data.length = false)
    (failure .invalidSection raw.offset.toUInt64 "Mach-O section outside file")
  let item := raw.toSection permissions collected.sections.length
  let relocations ← liftExcept
    (decodeRelocations limits data header raw item collected.relocations)
  return { collected with
    sections := collected.sections ++ [item]
    relocations }

/-! ## Segments -/

structure SegmentRange where
  vmaddr : UInt64
  vmsize : UInt64
  fileoff : UInt64
  filesize : UInt64
  deriving DecidableEq, Repr

def readSegmentRange (segment64 : Bool) : ReaderCall SegmentRange := do
  let _segname ← readFixedString 16
  let vmaddr ← readWord segment64
  let vmsize ← readWord segment64
  let fileoff ← readWord segment64
  let filesize ← readWord segment64
  return { vmaddr, vmsize, fileoff, filesize }

/-- The initial protection and the number of sections. -/
def readSegmentTail : ReaderCall (UInt32 × UInt32) := do
  let _maxprot ← readU32
  let initprot ← readU32
  let nsects ← readU32
  let _segflags ← readU32
  return (initprot, nsects)

def readSegment (limits : Limits) (data : Bytes) (header : FileHeader)
    (cursor : UInt64) (segment64 : Bool) (collected : Collected) :
    DecodeCall Collected := do
  let range ← silently (readSegmentRange segment64)
  let (initprot, nsects) ← adaptError
    (reportAt .truncated "Mach-O segment truncated") readSegmentTail
  rejectIf (nsects.toUInt64 >
        limits.maxSections.toUInt64 -
          UInt64.ofNat collected.sections.length ∨
      range.filesize > range.vmsize ∨
      rangeInside range.fileoff.toNat range.filesize.toNat data.length = false)
    (failure .invalidSegment cursor "Mach-O segment ranges invalid")
  let permissions := machoProtection initprot
  let grown ← (List.range nsects.toNat).foldlM
    (readSection limits data header segment64 permissions) collected
  return { grown with
    segments := grown.segments ++
      [{ index := UInt32.ofNat collected.segments.length
         fileOffset := range.fileoff, fileSize := range.filesize
         virtualAddress := range.vmaddr, memorySize := range.vmsize
         alignment := limits.pageSize.toUInt64, permissions
         sections := (grown.sections.drop collected.sections.length).map
           Section.index }] }

/-! ## Load commands -/

def readCommand : ReaderCall (UInt32 × UInt32) := do
  let command ← readU32
  let size ← readU32
  return (command, size)

abbrev CommandState := UInt64 × Collected

def readLoadCommand (limits : Limits) (data : Bytes) (header : FileHeader)
    (state : CommandState) (_index : ℕ) : DecodeCall CommandState := do
  let (cursor, collected) := state
  let invalid := failure .invalidSegment cursor "Mach-O command invalid"
  let _ ← attempt (seek cursor)
  let (command, size) ← reporting invalid readCommand
  rejectIf (size < 8 ∨
    rangeInside cursor.toNat size.toNat data.length = false) invalid
  let next := cursor + size.toUInt64
  if command = 1 ∨ command = 0x19 then do
    let collected ← readSegment limits data header cursor (command == 0x19)
      collected
    return (next, collected)
  else return (next, collected)

/-! ## The whole file -/

def magic (data : Bytes) : UInt32 := joinU32 .little (slice data 0 4)

def wide (magic : UInt32) : Bool := magic == 0xfeedfacf || magic == 0xcffaedfe

def order (magic : UInt32) : ByteOrder :=
  if magic = 0xcefaedfe ∨ magic = 0xcffaedfe then .big else .little

def commandsOffset (magic : UInt32) : UInt64 := if wide magic then 32 else 28

def imageHeader (magic : UInt32) (header : MachHeader) : FileHeader :=
  { format := .machoLike
    wordSize := if wide magic then .bits64 else .bits32
    byteOrder := order magic, kind := machoKind header.fileType
    architecture := machoArch header.cpu
    segmentTableOffset := commandsOffset magic
    segmentCount := header.commandCount, flags := header.flags }

def parseImage (limits : Limits) (data : Bytes) (magic : UInt32) :
    DecodeCall BinaryImage := do
  let header ← reporting (failure .truncated 0 "Mach-O header truncated")
    (readMachHeader (wide magic))
  rejectIf (header.commandCount > limits.maxSections ∨
      rangeInside (commandsOffset magic).toNat header.commandBytes.toNat
        data.length = false)
    (failure .invalidCount (commandsOffset magic)
      "Mach-O load commands invalid")
  let fileHeader := imageHeader magic header
  let (_, collected) ← (List.range header.commandCount.toNat).foldlM
    (readLoadCommand limits data fileHeader) (commandsOffset magic, {})
  return { fileData := some data
           header := { fileHeader with
             sectionCount := UInt32.ofNat collected.sections.length }
           sections := collected.sections, segments := collected.segments
           relocations := collected.relocations }

def parse (limits : Limits) (data : Bytes) : Except Failure BinaryImage := do
  rejectIf (data.length < 28)
    (failure .truncated 0 "Mach-O header truncated")
  let magic := magic data
  rejectIf (magic ≠ 0xfeedface ∧ magic ≠ 0xfeedfacf ∧ magic ≠ 0xcefaedfe ∧
      magic ≠ 0xcffaedfe)
    (failure .badMagic 0 "invalid Mach-O magic")
  evaluate (parseImage limits data magic) { data, order := order magic }

end MachOParser
end BinForge
