import BinForge.Reader
import BinForge.Validator

/-!
# The image manifest format

`ImageManifestCodec` writes an image as a checksummed container of seven
tables and reads one back.  Writers are byte strings; readers fail silently
except where the source assigns an error.
-/

namespace BinForge

open StatefulExcept
open ListSplice

structure ManifestOptions where
  includeSymbols : Bool := true
  includeRelocations : Bool := true
  includeImports : Bool := true
  includeExports : Bool := true
  includeDebugSummary : Bool := true
  includeChecksums : Bool := true
  deriving DecidableEq, Repr

namespace ImageManifestCodec

/-! ## Writing -/

/-- `ManifestWriter::text`. -/
def text (value : Bytes) : Bytes :=
  u32Bytes (UInt32.ofNat value.length) ++ value

def flag (value : Bool) : UInt8 := if value then 1 else 0

def encodeHeader (header : FileHeader) : Bytes :=
  [header.format.toByte] ++ ([header.wordSize.toByte] ++
    ([header.byteOrder.toByte] ++ ([ByteCoded.toByte header.kind] ++
    ([ByteCoded.toByte header.architecture] ++ (u64Bytes header.entryPoint ++
    (u64Bytes header.imageBase ++ (u64Bytes header.sectionTableOffset ++
    (u64Bytes header.segmentTableOffset ++ (u32Bytes header.sectionCount ++
    (u32Bytes header.segmentCount ++ u32Bytes header.flags))))))))))

/-- The checksum stored with a section: zero when there is nothing to sum. -/
def sectionChecksum (options : ManifestOptions) (data : Bytes)
    (item : Section) : UInt32 :=
  if options.includeChecksums ∧ item.fileSize ≠ 0 ∧
      rangeInside item.fileOffset.toNat item.fileSize.toNat data.length then
    crc32 (slice data item.fileOffset.toNat item.fileSize.toNat)
  else 0

def encodeSection (options : ManifestOptions) (data : Bytes)
    (item : Section) : Bytes :=
  u32Bytes item.index ++ (text item.name ++ ([ByteCoded.toByte item.kind] ++
    (u64Bytes item.fileOffset ++ (u64Bytes item.fileSize ++
    (u64Bytes item.virtualAddress ++ (u64Bytes item.memorySize ++
    (u64Bytes item.alignment ++ (u64Bytes item.entrySize ++
    (u32Bytes item.link ++ (u32Bytes item.info ++ ([item.permissions] ++
    u32Bytes (sectionChecksum options data item))))))))))))

def encodeSegment (segment : Segment) : Bytes :=
  u32Bytes segment.index ++ (u64Bytes segment.fileOffset ++
    (u64Bytes segment.fileSize ++ (u64Bytes segment.virtualAddress ++
    (u64Bytes segment.memorySize ++ (u64Bytes segment.alignment ++
    ([segment.permissions] ++
    (u32Bytes (UInt32.ofNat segment.sections.length) ++
    segment.sections.flatMap u32Bytes)))))))

def encodeSymbol (symbol : Symbol) : Bytes :=
  u32Bytes symbol.index ++ (text symbol.name ++
    ([ByteCoded.toByte symbol.binding] ++ ([ByteCoded.toByte symbol.kind] ++
    (u32Bytes symbol.sectionIndex ++ (u64Bytes symbol.value ++
    (u64Bytes symbol.size ++ ([symbol.visibility] ++ text symbol.library)))))))

def encodeRelocation (relocation : Relocation) : Bytes :=
  u32Bytes relocation.index ++ ([ByteCoded.toByte relocation.kind] ++
    (u32Bytes relocation.targetSection ++ (u32Bytes relocation.symbolIndex ++
    (u64Bytes relocation.offset ++ (u64Bytes relocation.addend.toUInt64 ++
    [relocation.width])))))

def encodeImport (imported : Import) : Bytes :=
  text imported.library ++ (text imported.name ++ (u64Bytes imported.ordinal ++
    (u64Bytes imported.slotAddress ++ [flag imported.weak])))

def encodeExport (exported : Export) : Bytes :=
  text exported.name ++ (u64Bytes exported.address ++
    (u64Bytes exported.ordinal ++ ([flag exported.forwarded] ++
    text exported.forwardTarget)))

def encodeDebugUnit (unit : DebugUnit) : Bytes :=
  u64Bytes unit.offset ++ (u64Bytes unit.length ++
    (u32Bytes unit.version.toUInt32 ++ ([unit.addressSize] ++
    (u32Bytes (UInt32.ofNat unit.files.length) ++
    (u32Bytes (UInt32.ofNat unit.lines.length) ++
    u32Bytes (UInt32.ofNat unit.entries.length))))))

/-- A count followed by the records of a table. -/
def encodeTable {α : Type} (record : α → Bytes) (items : List α) : Bytes :=
  u32Bytes (UInt32.ofNat items.length) ++ items.flatMap record

/-- The records of an optional table that are written. -/
def included {α : Type} (selected : Bool) (items : List α) : List α :=
  if selected then items else []

def optionFlags (options : ManifestOptions) : UInt32 :=
  (if options.includeSymbols then 1 else 0) |||
    (if options.includeRelocations then 2 else 0) |||
    (if options.includeImports then 4 else 0) |||
    (if options.includeExports then 8 else 0) |||
    (if options.includeDebugSummary then 16 else 0) |||
    (if options.includeChecksums then 32 else 0)

/-- Everything between the signature and the trailing checksum. -/
def encodeBody (options : ManifestOptions) (image : BinaryImage)
    (data : Bytes) : Bytes :=
  u32Bytes 1 ++ (u32Bytes (optionFlags options) ++
    (encodeHeader image.header ++ (u64Bytes (UInt64.ofNat data.length) ++
    (data ++ (encodeTable (encodeSection options data) image.sections ++
    (encodeTable encodeSegment image.segments ++
    (encodeTable encodeSymbol
      (included options.includeSymbols image.symbols) ++
    (encodeTable encodeRelocation
      (included options.includeRelocations image.relocations) ++
    (encodeTable encodeImport
      (included options.includeImports image.imports) ++
    (encodeTable encodeExport
      (included options.includeExports image.exports) ++
    encodeTable encodeDebugUnit
      (included options.includeDebugSummary image.debugUnits)))))))))))

/-- The result is empty, as in the source, exactly when `encode` fails. -/
def encode (limits : Limits) (image : BinaryImage) (options : ManifestOptions) :
    Except Failure Bytes := do
  let exceeded := failure .resourceLimit 0
    "image exceeds manifest encoding limits"
  let data ← demand image.fileData exceeded
  rejectIf (data.length > limits.maxFileSize.toNat ∨
    image.sections.length > limits.maxSections.toNat ∨
    image.segments.length > limits.maxSegments.toNat ∨
    image.symbols.length > limits.maxSymbols.toNat ∨
    image.relocations.length > limits.maxRelocations.toNat) exceeded
  let result := ascii "BFMF" ++ encodeBody options image data
  return result ++ u32Bytes (crc32 result)

/-! ## Reading -/

/-- `ManifestReader::text`. -/
def readText (maximum : UInt64) : ReaderCall Bytes := do
  let size ← ByteReader.readU32
  rejectIf (size.toUInt64 > maximum) ()
  let reader ← get
  rejectIf (size.toNat > reader.remaining) ()
  ByteReader.readBytes size.toNat

def BinaryFormat.ofByte? : UInt8 → Option BinaryFormat
  | 0 => some .unknown
  | 1 => some .elfLike
  | 2 => some .peLike
  | 3 => some .machoLike
  | _ => none

def WordSize.ofByte? : UInt8 → Option WordSize
  | 4 => some .bits32
  | 8 => some .bits64
  | _ => none

def ByteOrder.ofByte? : UInt8 → Option ByteOrder
  | 0 => some .little
  | 1 => some .big
  | _ => none

def decodeHeader : ReaderCall FileHeader := do
  let format ← ByteReader.readU8
  let word ← ByteReader.readU8
  let order ← ByteReader.readU8
  let kind ← ByteReader.readU8
  let architecture ← ByteReader.readU8
  let entryPoint ← ByteReader.readU64
  let imageBase ← ByteReader.readU64
  let sectionTableOffset ← ByteReader.readU64
  let segmentTableOffset ← ByteReader.readU64
  let sectionCount ← ByteReader.readU32
  let segmentCount ← ByteReader.readU32
  let flags ← ByteReader.readU32
  -- The enumerations whose bytes the return value checks.
  let format ← demand (BinaryFormat.ofByte? format) ()
  let wordSize ← demand (WordSize.ofByte? word) ()
  let byteOrder ← demand (ByteOrder.ofByte? order) ()
  return { format, wordSize, byteOrder, kind := ByteCoded.ofByte kind,
           architecture := ByteCoded.ofByte architecture, entryPoint, imageBase,
           sectionTableOffset, segmentTableOffset, sectionCount, segmentCount,
           flags }

/-- The fields of a section and its stored checksum. -/
def decodeSectionFields (limits : Limits) : ReaderCall (Section × UInt32) := do
  let index ← ByteReader.readU32
  let name ← readText limits.maxStringBytes
  let kind ← ByteReader.readU8
  let fileOffset ← ByteReader.readU64
  let fileSize ← ByteReader.readU64
  let virtualAddress ← ByteReader.readU64
  let memorySize ← ByteReader.readU64
  let alignment ← ByteReader.readU64
  let entrySize ← ByteReader.readU64
  let link ← ByteReader.readU32
  let info ← ByteReader.readU32
  let permissions ← ByteReader.readU8
  let storedChecksum ← ByteReader.readU32
  return ({ index, name, kind := ByteCoded.ofByte kind, fileOffset, fileSize,
            virtualAddress, memorySize, alignment, entrySize, link, info,
            permissions }, storedChecksum)

def decodeSection (limits : Limits) (data : Bytes) : DecodeCall Section := do
  let (item, storedChecksum) ←
    adaptError (reportAt .truncated "manifest section is truncated")
      (decodeSectionFields limits)
  rejectIf (storedChecksum ≠ 0 ∧ item.fileSize ≠ 0 ∧
      rangeInside item.fileOffset.toNat item.fileSize.toNat data.length ∧
      crc32 (slice data item.fileOffset.toNat item.fileSize.toNat) ≠
        storedChecksum)
    (failure .invalidSection item.fileOffset
      "manifest section checksum does not match")
  return item

/-- One entry of a segment's section list. -/
def decodeSectionReference (sectionCount : ℕ) : ReaderCall UInt32 := do
  let value ← ByteReader.readU32
  rejectIf (value.toNat ≥ sectionCount) ()
  return value

def decodeSegment (limits : Limits) (sectionCount : ℕ) :
    ReaderCall Segment := do
  let index ← ByteReader.readU32
  let fileOffset ← ByteReader.readU64
  let fileSize ← ByteReader.readU64
  let virtualAddress ← ByteReader.readU64
  let memorySize ← ByteReader.readU64
  let alignment ← ByteReader.readU64
  let permissions ← ByteReader.readU8
  let count ← ByteReader.readU32
  rejectIf (count > limits.maxSections) ()
  let sections ← collect (decodeSectionReference sectionCount) count.toNat
  return { index, fileOffset, fileSize, virtualAddress, memorySize, alignment,
           permissions, sections }

def decodeSymbol (limits : Limits) : ReaderCall Symbol := do
  let index ← ByteReader.readU32
  let name ← readText limits.maxStringBytes
  let binding ← ByteReader.readU8
  let kind ← ByteReader.readU8
  let sectionIndex ← ByteReader.readU32
  let value ← ByteReader.readU64
  let size ← ByteReader.readU64
  let visibility ← ByteReader.readU8
  let library ← readText limits.maxStringBytes
  return { index, name, binding := ByteCoded.ofByte binding,
           kind := ByteCoded.ofByte kind, sectionIndex, value, size, visibility,
           library }

def decodeRelocation : ReaderCall Relocation := do
  let index ← ByteReader.readU32
  let kind ← ByteReader.readU8
  let targetSection ← ByteReader.readU32
  let symbolIndex ← ByteReader.readU32
  let offset ← ByteReader.readU64
  let addend ← ByteReader.readI64
  let width ← ByteReader.readU8
  return { index, kind := ByteCoded.ofByte kind, targetSection, symbolIndex,
           offset, addend, width }

def decodeImport (limits : Limits) : ReaderCall Import := do
  let library ← readText limits.maxStringBytes
  let name ← readText limits.maxStringBytes
  let ordinal ← ByteReader.readU64
  let slotAddress ← ByteReader.readU64
  let weak ← ByteReader.readU8
  return { library, name, ordinal, slotAddress, weak := weak != 0 }

def decodeExport (limits : Limits) : ReaderCall Export := do
  let name ← readText limits.maxStringBytes
  let address ← ByteReader.readU64
  let ordinal ← ByteReader.readU64
  let forwarded ← ByteReader.readU8
  let forwardTarget ← readText limits.maxStringBytes
  return { name, address, ordinal, forwarded := forwarded != 0, forwardTarget }

def decodeDebugUnit : ReaderCall DebugUnit := do
  let offset ← ByteReader.readU64
  let length ← ByteReader.readU64
  let version ← ByteReader.readU32
  let addressSize ← ByteReader.readU8
  let _files ← ByteReader.readU32
  let _lines ← ByteReader.readU32
  let _entries ← ByteReader.readU32
  return { offset, length, version := version.toUInt16, addressSize }

/-- A count within its limit, then that many records. -/
def decodeTable {α : Type} (limit : UInt32) (record : DecodeCall α) :
    DecodeCall (List α) := do
  let count ← silently do
    let count ← ByteReader.readU32
    rejectIf (count > limit) ()
    return count
  collect record count.toNat

def decodePreamble : DecodeCall FileHeader :=
  adaptError (fun _ _ => failure .invalidHeader 4
      "manifest header is invalid") do
    let version ← ByteReader.readU32
    rejectIf (version ≠ 1) ()
    let _flags ← ByteReader.readU32
    decodeHeader

/-- The retained file: a size within limit and input, then the bytes. -/
def decodeFile (limits : Limits) : DecodeCall Bytes := do
  let fileSize ← adaptError
    (reportAt .resourceLimit "manifest backing-file size is invalid") do
      let fileSize ← ByteReader.readU64
      rejectIf (fileSize > limits.maxFileSize) ()
      let reader ← get
      rejectIf (fileSize.toNat > reader.remaining) ()
      return fileSize
  silently (ByteReader.readBytes fileSize.toNat)

def decodeBody (limits : Limits) : DecodeCall BinaryImage := do
  let header ← decodePreamble
  let data ← decodeFile limits
  let sections ← decodeTable limits.maxSections (decodeSection limits data)
  let segments ← decodeTable limits.maxSegments
    (silently (decodeSegment limits sections.length))
  let symbols ← decodeTable limits.maxSymbols (silently (decodeSymbol limits))
  let relocations ← decodeTable limits.maxRelocations
    (silently decodeRelocation)
  let imports ← decodeTable limits.maxImports (silently (decodeImport limits))
  let exports ← decodeTable limits.maxExports (silently (decodeExport limits))
  let debugUnits ← decodeTable limits.maxDebugUnits (silently decodeDebugUnit)
  return { header, sections, segments, symbols, relocations, imports, exports,
           debugUnits, fileData := some data }

def decode (limits : Limits) (data : Bytes) : Except Failure BinaryImage := do
  rejectIf (data.length < 16 ∨
      data.length > (limits.maxFileSize * 2).toNat)
    (failure .truncated 0 "manifest input size is invalid")
  rejectIf (data.take 4 ≠ ascii "BFMF")
    (failure .badMagic 0 "manifest signature is invalid")
  rejectIf (crc32 (data.take (data.length - 4)) ≠ trailerWord data)
    (failure .invalidHeader (UInt64.ofNat (data.length - 4))
      "manifest checksum does not match")
  let image ← evaluate (do
    let image ← decodeBody limits
    let reader ← get
    rejectIf (reader.remaining ≠ 0)
      (failure .invalidHeader (UInt64.ofNat reader.position)
        "manifest contains trailing model data")
    return image) { data := slice data 4 (data.length - 8) }
  let validation := BinaryValidator.validate limits image
  -- An invalid report has an error, so its first one exists.
  rejectIf (validation.valid = false)
    (.reported (validation.errors.headD {}))
  return image

end ImageManifestCodec
end BinForge
