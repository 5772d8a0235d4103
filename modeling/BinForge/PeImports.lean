import BinForge.AddressTranslator
import BinForge.Hardening
import BinForge.Reader

/-!
# PE imports and exports

`PeImportExportParser` walks the import descriptors with their lookup tables,
and the function, name and ordinal tables of the export directory.  The result
of either call is the vector it was given, as a call that succeeds leaves it.
-/

namespace BinForge

open StatefulExcept
open ByteReader

structure ImportTableOptions where
  directoryRva : UInt64 := 0
  directorySize : UInt64 := 0
  imageBase : UInt64 := 0
  wordSize : WordSize := .bits64
  deriving DecidableEq, Repr

namespace PeImportExportParser

def readRvaString (image : BinaryImage) (rva maximum : UInt64) :
    Option Bytes := do
  let location ← AddressTranslator.rvaToFile image rva 1
  let data ← image.fileData
  readCString { data } location.fileOffset (min location.available maximum)

def normalizeLibrary (library : Bytes) : Option Bytes :=
  if library = [] ∨ ∃ character ∈ library, character < 0x20 ∨ character = 0x7f
  then none
  else some (library.map HardeningAnalyzer.toLower)

/-! ## Import descriptors -/

structure ImportDescriptor where
  lookupRva : UInt32 := 0
  timestamp : UInt32 := 0
  forwarder : UInt32 := 0
  nameRva : UInt32 := 0
  addressRva : UInt32 := 0
  deriving DecidableEq, Repr

def ImportDescriptor.tableRva (descriptor : ImportDescriptor) : UInt64 :=
  if descriptor.lookupRva ≠ 0 then descriptor.lookupRva.toUInt64
  else descriptor.addressRva.toUInt64

def readDescriptor : ReaderCall ImportDescriptor := do
  let lookupRva ← readU32
  let timestamp ← readU32
  let forwarder ← readU32
  let nameRva ← readU32
  let addressRva ← readU32
  return { lookupRva, timestamp, forwarder, nameRva, addressRva }

/-! ## Lookup tables -/

def pointerWidth (options : ImportTableOptions) : UInt64 :=
  options.wordSize.toByte.toUInt64

def ordinalFlag (width : UInt64) : UInt64 :=
  if width = 8 then (1 : UInt64) <<< 63 else (1 : UInt64) <<< 31

/-- How far into a table an entry is, and where that is in the image. -/
def lookupAddress (options : ImportTableOptions) (tableRva : UInt64)
    (index : ℕ) : Option (UInt64 × UInt64) := do
  let delta ← checkedMultiply (UInt64.ofNat index) (pointerWidth options)
  let entryRva ← checkedAdd tableRva delta
  return (delta, entryRva)

def readLookup (image : BinaryImage) (width entryRva : UInt64) :
    DecodeCall UInt64 := do
  let entryFile ← demand (AddressTranslator.rvaToFile image entryRva width)
    (failure .invalidOffset entryRva "PE import lookup entry is not file-backed")
  silently (seek entryFile.fileOffset)
  silently (readWord (width == 8))

/-- The import that a nonzero entry describes. -/
def readImport (limits : Limits) (image : BinaryImage)
    (options : ImportTableOptions) (library : Bytes)
    (addressRva delta value : UInt64) : DecodeCall Import := do
  let overflow := failure .addressOverflow addressRva
    "PE import slot address overflows"
  let slotRva ← demand (checkedAdd addressRva delta) overflow
  let slotAddress ← demand (checkedAdd options.imageBase slotRva) overflow
  if value &&& ordinalFlag (pointerWidth options) ≠ 0 then
    return { library, ordinal := value &&& 0xffff, slotAddress }
  else do
    let invalid := failure .invalidOffset value
      "PE import-by-name record is invalid"
    let nameFile ← demand (AddressTranslator.rvaToFile image value 3) invalid
    reporting invalid (seek nameFile.fileOffset)
    let unnamed := failure .invalidString value
      "PE imported symbol name is invalid"
    let hint ← reporting unnamed readU16
    let reader ← get
    let name ← demand (readCString reader (UInt64.ofNat reader.position)
      (min (nameFile.available - 2) limits.maxStringBytes)) unnamed
    return { library, name, ordinal := hint.toUInt64, slotAddress }

/-- The loop over a lookup table from this index on, with this many rounds
left. -/
def lookupLoop (limits : Limits) (image : BinaryImage)
    (options : ImportTableOptions) (library : Bytes)
    (descriptor : ImportDescriptor) :
    ℕ → ℕ → List Import → DecodeCall (List Import)
  | 0, _, imports => pure imports
  | rounds + 1, index, imports => do
      let tableRva := descriptor.tableRva
      let (delta, entryRva) ← demand (lookupAddress options tableRva index)
        (failure .addressOverflow tableRva
          "PE import lookup address overflows")
      let value ← readLookup image (pointerWidth options) entryRva
      if value = 0 then return imports
      else do
        rejectIf (imports.length ≥ limits.maxImports.toNat)
          (failure .resourceLimit entryRva "PE imported symbol limit exceeded")
        let imported ← readImport limits image options library
          descriptor.addressRva.toUInt64 delta value
        lookupLoop limits image options library descriptor rounds (index + 1)
          (imports ++ [imported])

/-! ## The import directory -/

/-- The loop over the descriptors.  Every pass moves the cursor, so a pass for
each byte of the directory is more than enough. -/
def importLoop (limits : Limits) (image : BinaryImage)
    (options : ImportTableOptions) (directoryEnd : UInt64) :
    ℕ → UInt64 → List Import → DecodeCall (List Import)
  | 0, _, imports => pure imports
  | passes + 1, cursor, imports =>
      if cursor < directoryEnd then do
        rejectIf (rangeInside cursor.toNat 20 directoryEnd.toNat = false)
          (failure .truncated cursor "PE import descriptor is truncated")
        silently (seek cursor)
        let descriptor ← reporting (failure .truncated cursor
          "PE import descriptor fields are truncated") readDescriptor
        let cursor := cursor + 20
        if descriptor = {} then return imports
        else do
          rejectIf (imports.length ≥ limits.maxImports.toNat)
            (failure .resourceLimit cursor
              "PE import descriptor limit exceeded")
          let nameRva := descriptor.nameRva.toUInt64
          let library ← demand ((readRvaString image nameRva
              limits.maxStringBytes).bind normalizeLibrary)
            (failure .invalidString nameRva
              "PE import library name is invalid")
          let imports ← lookupLoop limits image options library descriptor
            limits.maxImports.toNat 0 imports
          importLoop limits image options directoryEnd passes cursor imports
      else pure imports

/-- The directory's place in the file. -/
def importDirectory (image : BinaryImage) (options : ImportTableOptions) :
    Option FileAddress :=
  (AddressTranslator.rvaToFile image options.directoryRva
    options.directorySize).filter fun directory =>
      rangeInside directory.fileOffset.toNat options.directorySize.toNat
        (UInt64.ofNat (image.fileData.getD []).length).toNat

def parseImports (limits : Limits) (image : BinaryImage)
    (options : ImportTableOptions) (imports : List Import) :
    Except Failure (List Import) := do
  rejectIf (image.fileData = none ∨ image.header.format ≠ .peLike)
    (failure .invalidHeader options.directoryRva
      "PE import parser requires a PE image")
  if options.directorySize = 0 then return imports
  else do
    let directory ← demand (importDirectory image options)
      (failure .invalidOffset options.directoryRva
        "PE import directory is outside file-backed sections")
    evaluate (importLoop limits image options
      (directory.fileOffset + options.directorySize)
      options.directorySize.toNat directory.fileOffset imports)
      { data := image.fileData.getD [] }

/-! ## The export directory -/

structure ExportDirectory where
  ordinalBase : UInt32 := 0
  functionCount : UInt32 := 0
  nameCount : UInt32 := 0
  functionsRva : UInt32 := 0
  namesRva : UInt32 := 0
  ordinalsRva : UInt32 := 0
  deriving DecidableEq, Repr

/-- The characteristics, the time stamp, the version and the name are read and
dropped. -/
def readExportDirectory : ReaderCall ExportDirectory := do
  let _characteristics ← readU32
  let _timestamp ← readU32
  let _major ← readU16
  let _minor ← readU16
  let _nameRva ← readU32
  let ordinalBase ← readU32
  let functionCount ← readU32
  let nameCount ← readU32
  let functionsRva ← readU32
  let namesRva ← readU32
  let ordinalsRva ← readU32
  return { ordinalBase, functionCount, nameCount, functionsRva, namesRva,
           ordinalsRva }

/-- The directory with the places of its three tables. -/
structure ExportTables where
  directory : ExportDirectory := {}
  functions : FileAddress := {}
  names : FileAddress := {}
  ordinals : FileAddress := {}
  deriving DecidableEq, Repr

/-- The steps up to the first table. -/
def openExports (limits : Limits) (image : BinaryImage)
    (directoryRva fileOffset : UInt64) : DecodeCall ExportTables := do
  silently (seek fileOffset)
  let directory ← reporting (failure .truncated fileOffset
    "PE export directory is truncated") readExportDirectory
  let functionCount := directory.functionCount
  let nameCount := directory.nameCount
  rejectIf (functionCount > limits.maxExports ∨ nameCount > functionCount)
    (failure .resourceLimit directoryRva "PE export table count is invalid")
  let functions := AddressTranslator.rvaToFile image
    directory.functionsRva.toUInt64 (functionCount.toUInt64 * 4)
  let names := AddressTranslator.rvaToFile image directory.namesRva.toUInt64
    (nameCount.toUInt64 * 4)
  let ordinals := AddressTranslator.rvaToFile image
    directory.ordinalsRva.toUInt64 (nameCount.toUInt64 * 2)
  rejectIf (functions = none ∨
      nameCount ≠ 0 ∧ (names = none ∨ ordinals = none))
    (failure .invalidOffset directoryRva "PE export arrays are not file-backed")
  return { directory, functions := functions.getD {}, names := names.getD {},
           ordinals := ordinals.getD {} }

/-- `exports.resize`: the first elements stay as they are. -/
def resizeExports (exports : List Export) (count : ℕ) : List Export :=
  exports.take count ++ List.replicate (count - exports.length) ({} : Export)

/-! ## Functions -/

/-- What the function table says about a symbol. -/
structure ExportedFunction where
  address : UInt64
  forwardTarget : Option Bytes
  deriving DecidableEq, Repr

def readFunction (limits : Limits) (image : BinaryImage)
    (directoryRva directorySize : UInt64) : DecodeCall ExportedFunction := do
  let functionRva ← silently readU32
  let rva := functionRva.toUInt64
  let address ← demand (checkedAdd image.header.imageBase rva)
    (failure .addressOverflow rva "PE exported function address overflows")
  if rva ≥ directoryRva ∧ rva < directoryRva + directorySize then do
    let target ← demand (readRvaString image rva limits.maxStringBytes)
      (failure .invalidString rva "PE forwarder string is invalid")
    return { address, forwardTarget := some target }
  else return { address, forwardTarget := none }

/-- Only a forwarder writes `forwarded` and `forward_target`. -/
def assignFunction (ordinal : UInt64) (function : ExportedFunction)
    (symbol : Export) : Export :=
  match function.forwardTarget with
  | none => { symbol with ordinal, address := function.address }
  | some target => { symbol with
      ordinal, address := function.address
      forwarded := true, forwardTarget := target }

def functionOrdinal (directory : ExportDirectory) (index : ℕ) : UInt64 :=
  directory.ordinalBase.toUInt64 + UInt64.ofNat index

def exportFunction (limits : Limits) (image : BinaryImage)
    (directoryRva directorySize : UInt64) (directory : ExportDirectory)
    (exports : List Export) (index : ℕ) : DecodeCall (List Export) := do
  let function ← readFunction limits image directoryRva directorySize
  return exports.modify index
    (assignFunction (functionOrdinal directory index) function)

/-! ## Names -/

/-- The symbol that a name entry refers to, and its name.  A seek that fails
goes unnoticed. -/
def readName (limits : Limits) (image : BinaryImage) (tables : ExportTables)
    (count index : ℕ) : DecodeCall (ℕ × Bytes) := do
  let _ ← attempt (seek (tables.names.fileOffset + UInt64.ofNat index * 4))
  let nameRva ← silently readU32
  let _ ← attempt (seek (tables.ordinals.fileOffset + UInt64.ofNat index * 2))
  let invalid := failure .invalidSymbol
    (tables.directory.ordinalsRva + UInt32.ofNat index * 2).toUInt64
    "PE export ordinal index is invalid"
  let ordinalIndex ← reporting invalid readU16
  rejectIf (ordinalIndex.toNat ≥ count) invalid
  let name ← demand
    (readRvaString image nameRva.toUInt64 limits.maxStringBytes)
    (failure .invalidString nameRva.toUInt64 "PE export name is invalid")
  return (ordinalIndex.toNat, name)

def exportName (limits : Limits) (image : BinaryImage) (tables : ExportTables)
    (exports : List Export) (index : ℕ) : DecodeCall (List Export) := do
  let (symbol, name) ← readName limits image tables exports.length index
  return exports.modify symbol fun item => { item with name }

/-! ## Both passes -/

def exportLoops (limits : Limits) (image : BinaryImage)
    (directoryRva directorySize fileOffset : UInt64) (exports : List Export) :
    DecodeCall (List Export) := do
  let tables ← openExports limits image directoryRva fileOffset
  let directory := tables.directory
  let exports := resizeExports exports directory.functionCount.toNat
  let _ ← attempt (seek tables.functions.fileOffset)
  let exports ← (List.range directory.functionCount.toNat).foldlM
    (exportFunction limits image directoryRva directorySize directory) exports
  (List.range directory.nameCount.toNat).foldlM
    (exportName limits image tables) exports

def parseExports (limits : Limits) (image : BinaryImage)
    (directoryRva directorySize : UInt64) (exports : List Export) :
    Except Failure (List Export) := do
  rejectIf (image.fileData = none ∨ image.header.format ≠ .peLike)
    (failure .invalidHeader directoryRva "PE export parser requires a PE image")
  if directorySize = 0 then return exports
  else do
    let directory ← demand (AddressTranslator.rvaToFile image directoryRva 40)
      (failure .invalidOffset directoryRva
        "PE export directory is not file-backed")
    evaluate (exportLoops limits image directoryRva directorySize
      directory.fileOffset exports) { data := image.fileData.getD [] }

end PeImportExportParser
end BinForge
