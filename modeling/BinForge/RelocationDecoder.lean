import BinForge.Reader

/-!
# Relocation tables

`RelocationTableDecoder` turns the relocation tables of the three formats into
normalized records appended to the image's list.  The result is the list after
the call; callers drop it when the call fails.
-/

namespace BinForge

open StatefulExcept
open ByteReader

structure RelocationDecodeOptions where
  architecture : Architecture := .unknown
  wordSize : WordSize := .bits64
  byteOrder : ByteOrder := .little
  targetSection : UInt32 := 0
  baseAddress : UInt64 := 0
  entrySize : UInt64 := 0
  explicitAddends : Bool := false
  deriving DecidableEq, Repr

namespace RelocationTableDecoder

def elfKind (architecture : Architecture) (type : UInt32) : RelocationKind :=
  match architecture with
  | .x86 =>
      if type = 1 then .absolute32
      else if type = 2 then .pcRelative32
      else if type = 8 then .relative32
      else .none
  | .x86_64 =>
      if type = 1 then .absolute64
      else if type = 2 then .pcRelative32
      else if type = 8 then .relative64
      else if type = 9 then .gotRelative
      else .none
  | .arm =>
      if type = 2 then .absolute32
      else if type = 3 then .pcRelative32
      else if type = 23 then .relative32
      else .none
  | .arm64 =>
      if type = 257 then .absolute64
      else if type = 260 then .pcRelative32
      else if type = 1027 then .relative64
      else .none
  | .riscv32 | .riscv64 =>
      if type = 1 then .absolute32
      else if type = 2 then .absolute64
      else if type = 3 then .relative64
      else .none
  | .unknown | .undeclared _ _ => .none

def machoKind (type : UInt8) (external pcRelative : Bool) (width : UInt8) :
    RelocationKind :=
  if pcRelative then .pcRelative32
  else if type = 0 then if width = 8 then .absolute64 else .absolute32
  else if type = 1 ∧ external = false then
    if width = 8 then .relative64 else .relative32
  else if type = 3 then .gotRelative
  else if type = 4 then .pltRelative
  else .none

def appendRelocation (limits : Limits) (relocation : Relocation)
    (output : List Relocation) : Except Failure (List Relocation) := do
  rejectIf (output.length ≥ limits.maxRelocations.toNat)
    (failure .resourceLimit relocation.offset
      "relocation output limit exceeded")
  return output ++ [relocation]

/-- The unsigned room `max_relocations - output.size()`. -/
def relocationRoom (limits : Limits) (output : List Relocation) : UInt64 :=
  limits.maxRelocations.toUInt64 - UInt64.ofNat output.length

/-! ## ELF -/

structure ElfEntry where
  offset : UInt64
  information : UInt64
  addend : Int64
  deriving DecidableEq, Repr

def readElfEntry (wide explicitAddends : Bool) : ReaderCall ElfEntry :=
  if wide then do
    let offset ← readU64
    let information ← readU64
    let addend ← if explicitAddends then readI64 else pure 0
    return { offset, information, addend }
  else do
    let offset ← readU32
    let information ← readU32
    let addend ← if explicitAddends then readI32 else pure 0
    return { offset := offset.toUInt64, information := information.toUInt64,
             addend := addend.toInt64 }

def elfSymbol (wide : Bool) (information : UInt64) : UInt64 :=
  if wide then information >>> 32 else information >>> 8

def elfType (wide : Bool) (information : UInt64) : UInt32 :=
  if wide then information.toUInt32 else information.toUInt8.toUInt32

def elfRecord (limits : Limits) (options : RelocationDecodeOptions)
    (entrySize : UInt64) (output : List Relocation) (index : ℕ) :
    DecodeCall (List Relocation) := do
  let wide := options.wordSize == .bits64
  let place := UInt64.ofNat index * entrySize
  reporting (failure .truncated place "ELF relocation entry is truncated")
    (seek place)
  let entry ← adaptError
    (reportAt .truncated
      (if wide then "ELF64 relocation entry is truncated"
       else "ELF32 relocation entry is truncated"))
    (readElfEntry wide options.explicitAddends)
  let symbol := elfSymbol wide entry.information
  rejectIf (symbol > 0xffffffff)
    (failure .invalidSymbol place "ELF relocation symbol index does not fit")
  let target ← demand (checkedAdd options.baseAddress entry.offset)
    (failure .addressOverflow place "ELF relocation target overflows")
  let kind := elfKind options.architecture (elfType wide entry.information)
  liftExcept (appendRelocation limits
    { index := UInt32.ofNat output.length, kind,
      targetSection := options.targetSection, symbolIndex := symbol.toUInt32,
      offset := target, addend := entry.addend,
      width := if kind = .absolute64 ∨ kind = .relative64 then 8 else 4 }
    output)

def elfMinimum (options : RelocationDecodeOptions) : UInt64 :=
  if options.explicitAddends then
    if options.wordSize = .bits64 then 24 else 12
  else if options.wordSize = .bits64 then 16
  else 8

def elfStride (options : RelocationDecodeOptions) : UInt64 :=
  if options.entrySize ≠ 0 then options.entrySize else elfMinimum options

def decodeElf (limits : Limits) (data : Bytes)
    (options : RelocationDecodeOptions) (output : List Relocation) :
    Except Failure (List Relocation) := do
  let entrySize := elfStride options
  let size := UInt64.ofNat data.length
  rejectIf (entrySize < elfMinimum options ∨ entrySize > size ∨
      size % entrySize ≠ 0)
    (failure .invalidRelocation 0 "ELF relocation entry size is invalid")
  let count := size / entrySize
  rejectIf (count > relocationRoom limits output)
    (failure .resourceLimit 0 "ELF relocation table exceeds record limit")
  evaluate ((List.range count.toNat).foldlM (elfRecord limits options entrySize)
    output) { data, order := options.byteOrder }

/-! ## PE base relocations -/

def peKind (type : UInt8) : RelocationKind × UInt8 :=
  if type = 3 then (.relative32, 4)
  else if type = 10 then (.relative64, 8)
  else if type = 1 then (.high16, 2)
  else if type = 2 then (.low16, 2)
  else (.none, 0)

def peRecord (limits : Limits) (imageBase blockOffset : UInt64)
    (pageRva : UInt32) (output : List Relocation) (_index : ℕ) :
    DecodeCall (List Relocation) := do
  let encoded ← adaptError
    (reportAt .truncated "PE relocation record is truncated") readU16
  let type := (encoded >>> 12).toUInt8
  let offset := encoded &&& 0xfff
  if type = 0 then return output
  else do
    let overflow := failure .addressOverflow blockOffset
      "PE relocation target overflows"
    let page ← demand (checkedAdd imageBase pageRva.toUInt64) overflow
    let target ← demand (checkedAdd page offset.toUInt64) overflow
    liftExcept (appendRelocation limits
      { index := UInt32.ofNat output.length, offset := target,
        kind := (peKind type).1, width := (peKind type).2 } output)

def readPeBlockHeader : ReaderCall (UInt32 × UInt32) := do
  let pageRva ← readU32
  let blockSize ← readU32
  return (pageRva, blockSize)

def peBlock (limits : Limits) (imageBase : UInt64) (output : List Relocation) :
    DecodeCall (List Relocation) := do
  let reader ← get
  let blockOffset := UInt64.ofNat reader.position
  let (pageRva, blockSize) ← reporting
    (failure .truncated blockOffset "PE relocation block header is truncated")
    readPeBlockHeader
  rejectIf (blockSize < 8 ∨
      blockSize.toNat > reader.data.length - reader.position ∨
      (blockSize - 8) % 2 ≠ 0)
    (failure .invalidRelocation blockOffset
      "PE relocation block size is invalid")
  let records := (blockSize - 8) / 2
  let output ← (List.range records.toNat).foldlM
    (peRecord limits imageBase blockOffset pageRva) output
  reporting (failure .truncated blockOffset
      "PE relocation block extends beyond input")
    (seek (blockOffset + blockSize.toUInt64))
  return output

/-- The loop over the blocks.  Every block moves the reader, so a pass for each
byte of the table is more than enough. -/
def peBlocks (limits : Limits) (imageBase : UInt64) :
    ℕ → List Relocation → DecodeCall (List Relocation)
  | 0, output => pure output
  | passes + 1, output => do
      let reader ← get
      if reader.remaining = 0 then return output
      else do
        let output ← peBlock limits imageBase output
        peBlocks limits imageBase passes output

def decodePeBase (limits : Limits) (data : Bytes) (imageBase : UInt64)
    (output : List Relocation) : Except Failure (List Relocation) :=
  evaluate (peBlocks limits imageBase data.length output) { data }

/-! ## Mach-O -/

def readMachoEntry : ReaderCall (Int32 × UInt32) := do
  let address ← readI32
  let information ← readU32
  return (address, information)

def machoRecord (limits : Limits) (options : RelocationDecodeOptions)
    (output : List Relocation) (record : ℕ) :
    DecodeCall (List Relocation) := do
  let place := UInt64.ofNat (record * 8)
  let (address, information) ← reporting
    (failure .truncated place "Mach-O relocation entry is truncated")
    readMachoEntry
  rejectIf (address < 0)
    (failure .invalidRelocation place
      "scattered Mach-O relocation is unsupported")
  let symbol := information &&& 0x00ffffff
  let pcRelative := (information >>> 24) &&& 1 != 0
  let encodedLength := (information >>> 25) &&& 3
  let external := (information >>> 27) &&& 1 != 0
  let type := (information >>> 28).toUInt8
  let width := ((1 : UInt32) <<< encodedLength).toUInt8
  let target ← demand
    (checkedAdd options.baseAddress address.toUInt32.toUInt64)
    (failure .addressOverflow place "Mach-O relocation target overflows")
  liftExcept (appendRelocation limits
    { index := UInt32.ofNat output.length,
      kind := machoKind type external pcRelative width,
      targetSection := options.targetSection,
      symbolIndex := if external then symbol else 0, offset := target, width }
    output)

def decodeMacho (limits : Limits) (data : Bytes)
    (options : RelocationDecodeOptions) (output : List Relocation) :
    Except Failure (List Relocation) := do
  rejectIf (data.length % 8 ≠ 0)
    (failure .invalidRelocation 0
      "Mach-O relocation table is not record aligned")
  rejectIf (UInt64.ofNat (data.length / 8) > relocationRoom limits output)
    (failure .resourceLimit 0 "Mach-O relocation table exceeds record limit")
  evaluate ((List.range (data.length / 8)).foldlM (machoRecord limits options)
    output) { data, order := options.byteOrder }

end RelocationTableDecoder
end BinForge
