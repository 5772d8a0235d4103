import BinForge.AddressTranslator
import BinForge.Reader

/-!
# PE resources

`PeResourceParser` walks the tree of resource directories and lists its leaves.
A directory may be reached along several paths and is walked along each; the
set of active directories only cuts cycles.
-/

namespace BinForge

open StatefulExcept
open ByteReader

inductive ResourceKind
  | unknown
  | cursor
  | bitmap
  | icon
  | menu
  | dialog
  | stringTable
  | font
  | accelerator
  | rawData
  | messageTable
  | version
  | manifest
  deriving DecidableEq, Repr

structure ResourceIdentifier where
  integer : Option UInt32 := none
  name : Bytes := []
  deriving DecidableEq, Repr

structure ResourceEntry where
  type : ResourceIdentifier := {}
  name : ResourceIdentifier := {}
  language : ResourceIdentifier := {}
  kind : ResourceKind := .unknown
  fileOffset : UInt64 := 0
  size : UInt64 := 0
  codePage : UInt32 := 0
  checksum : UInt32 := 0
  deriving DecidableEq, Repr

structure ResourceReport where
  entries : List ResourceEntry := []
  totalBytes : UInt64 := 0
  maximumDepth : UInt32 := 0
  warnings : List Bytes := []
  deriving DecidableEq, Repr

namespace PeResourceParser

def resourceKind (identifier : ResourceIdentifier) : ResourceKind :=
  match identifier.integer.map UInt32.toNat with
  | some 1 => .cursor
  | some 2 => .bitmap
  | some 3 => .icon
  | some 4 => .menu
  | some 5 => .dialog
  | some 6 => .stringTable
  | some 8 => .font
  | some 9 => .accelerator
  | some 10 => .rawData
  | some 11 => .messageTable
  | some 16 => .version
  | some 24 => .manifest
  | _ => .unknown

/-! ## Names -/

/-- A UTF-16 unit that is not a surrogate, in UTF-8. -/
def appendUnit (name : Bytes) (unit : UInt16) : Bytes :=
  let tail (shift : UInt16) : UInt8 :=
    ((0x80 : UInt16) ||| ((unit >>> shift) &&& 0x3f)).toUInt8
  if unit < 0x80 then name ++ [unit.toUInt8]
  else if unit < 0x800 then
    name ++ [((0xc0 : UInt16) ||| (unit >>> 6)).toUInt8, tail 0]
  else
    name ++ [((0xe0 : UInt16) ||| (unit >>> 12)).toUInt8, tail 6, tail 0]

def readUnit (relative : UInt64) (name : Bytes) (index : ℕ) :
    DecodeCall Bytes := do
  let unit ← silently readU16
  rejectIf (0xd800 ≤ unit ∧ unit ≤ 0xdfff)
    (failure .invalidString (relative + 2 + UInt64.ofNat index * 2)
      "resource name contains an unpaired surrogate")
  return appendUnit name unit

def readResourceName (baseFile directorySize relative maximum : UInt64) :
    DecodeCall ResourceIdentifier := do
  silently (seek (baseFile + relative))
  let characters ← silently readU16
  let bytes := characters.toUInt64 * 2
  rejectIf (bytes > maximum ∨
      rangeInside (relative + 2).toNat bytes.toNat directorySize.toNat = false)
    (failure .resourceLimit relative "resource UTF-16 name exceeds limit")
  let name ← (List.range characters.toNat).foldlM (readUnit relative) []
  return { name }

def resourceName (image : BinaryImage) (baseFile directorySize : UInt64)
    (encoded : UInt32) (maximum : UInt64) :
    Except Failure ResourceIdentifier :=
  if encoded &&& 0x80000000 = 0 then return { integer := some encoded }
  else do
    let relative := (encoded &&& 0x7fffffff).toUInt64
    rejectIf (rangeInside relative.toNat 2 directorySize.toNat = false)
      (failure .invalidString relative
        "resource name length is outside directory")
    evaluate (readResourceName baseFile directorySize relative maximum)
      { data := image.fileData.getD [] }

/-! ## The walk -/

/-- What the walk changes.  The source has no counter of its calls. -/
structure WalkState where
  reader : ByteReader
  report : ResourceReport := {}
  activeDirectories : List UInt64 := []
  visits : ℕ := 0
  deriving DecidableEq, Repr

abbrev WalkCall := EStateM Failure WalkState

def onReader {α : Type} (action : DecodeCall α) : WalkCall α := fun state =>
  match action state.reader with
  | .ok value reader => .ok value { state with reader }
  | .error why reader => .error why { state with reader }

def leave (relative : UInt64) (state : WalkState) : WalkState :=
  { state with activeDirectories := state.activeDirectories.erase relative }

/-- The steps after which a failure erases the directory. -/
def erasing {α : Type} (relative : UInt64) (action : WalkCall α) : WalkCall α :=
  withCleanup (leave relative) action

/-- The header of a directory without what is dropped: how many of its entries
are named and how many have integers. -/
def readHeader : ReaderCall (UInt16 × UInt16) := do
  let _characteristics ← readU32
  let _timestamp ← readU32
  let _major ← readU16
  let _minor ← readU16
  let named ← readU16
  let integer ← readU16
  return (named, integer)

/-- The number of entries of a directory. -/
def openDirectory (limits : Limits) (baseFile directorySize relative : UInt64) :
    WalkCall UInt32 := do
  let header := failure .truncated relative
    "resource directory header is truncated"
  rejectIf (rangeInside relative.toNat 16 directorySize.toNat = false) header
  onReader (reporting header (seek (baseFile + relative)))
  let (named, integer) ← onReader (reporting (failure .truncated relative
    "resource directory fields are truncated") readHeader)
  let count := named.toUInt32 + integer.toUInt32
  rejectIf (count > limits.maxSections ∨
      rangeInside (relative + 16).toNat (count.toUInt64 * 8).toNat
        directorySize.toNat = false)
    (failure .resourceLimit relative "resource directory entry count is invalid")
  return count

def readTwo : ReaderCall (UInt32 × UInt32) := do
  let first ← readU32
  let second ← readU32
  return (first, second)

/-- Address, size and code page; the reserved field is dropped. -/
def readDataEntry : ReaderCall (UInt32 × UInt32 × UInt32) := do
  let dataRva ← readU32
  let dataSize ← readU32
  let codePage ← readU32
  let _reserved ← readU32
  return (dataRva, dataSize, codePage)

/-- The checksum is of the bytes that are there.  The source reads the range
without a check, so a range beyond the end of the file has no outcome there. -/
def resourceEntry (data : Bytes) (path : List ResourceIdentifier)
    (fileOffset size : UInt64) (codePage : UInt32) : ResourceEntry :=
  let type := path.getD 0 {}
  { type, name := path.getD 1 {}, language := path.getD 2 {}
    kind := resourceKind type, fileOffset, size, codePage
    checksum := crc32 (ListSplice.slice data fileOffset.toNat size.toNat) }

/-- The leaf at `target`. -/
def addResource (limits : Limits) (image : BinaryImage)
    (baseFile directorySize target : UInt64) (path : List ResourceIdentifier) :
    WalkCall Unit := do
  let outside := failure .invalidOffset target
    "resource data entry is outside directory"
  rejectIf (rangeInside target.toNat 16 directorySize.toNat = false) outside
  onReader (reporting outside (seek (baseFile + target)))
  let (dataRva, dataSize, codePage) ← onReader (reporting
    (failure .truncated target "resource data descriptor is truncated")
    readDataEntry)
  let dataFile ← demand (AddressTranslator.rvaToFile image dataRva.toUInt64
      dataSize.toUInt64)
    (failure .invalidOffset dataRva.toUInt64
      "resource payload is not file-backed")
  let state ← get
  let report := state.report
  rejectIf (report.entries.length ≥ limits.maxSections.toNat)
    (failure .resourceLimit target "resource entry limit exceeded")
  let entry := resourceEntry (image.fileData.getD []) path dataFile.fileOffset
    dataSize.toUInt64 codePage
  let totalBytes ← demand (checkedAdd report.totalBytes entry.size)
    (failure .addressOverflow entry.fileOffset "resource byte total overflows")
  set { state with report :=
    { report with totalBytes, entries := report.entries ++ [entry] } }

/-- One entry of a directory; `visit` is the call for a subdirectory. -/
def walkEntry (limits : Limits) (image : BinaryImage)
    (baseFile directorySize relative : UInt64) (path : List ResourceIdentifier)
    (visit : UInt64 → List ResourceIdentifier → WalkCall Unit) (index : ℕ) :
    WalkCall Unit := do
  let entryRelative := relative + 16 + UInt64.ofNat index * 8
  onReader (silently (seek (baseFile + entryRelative)))
  erasing relative do
    let (encodedName, encodedTarget) ← onReader (reporting
      (failure .truncated entryRelative
        "resource directory entry is truncated") readTwo)
    let identifier ← liftExcept (resourceName image baseFile directorySize
      encodedName limits.maxStringBytes)
    let childPath := path ++ [identifier]
    let target := (encodedTarget &&& 0x7fffffff).toUInt64
    if encodedTarget &&& 0x80000000 ≠ 0 then visit target childPath
    else addResource limits image baseFile directorySize target childPath

def enter (state : WalkState) : WalkState :=
  { state with visits := state.visits + 1 }

def deepen (depth : UInt32) (state : WalkState) : WalkState :=
  { state with report := { state.report with
      maximumDepth := max state.report.maximumDepth depth } }

def activate (relative : UInt64) (state : WalkState) : WalkState :=
  { state with activeDirectories := relative :: state.activeDirectories }

/-- `walk` when this many levels are left, that is at the depth
`max_debug_depth + 1 - levels`. -/
def walk (limits : Limits) (image : BinaryImage)
    (baseFile directorySize : UInt64) :
    ℕ → UInt64 → List ResourceIdentifier → WalkCall Unit
  | 0, relative, _ => do
      modify enter
      throw (failure .resourceLimit relative
        "resource directory depth limit exceeded")
  | levels + 1, relative, path => do
      modify enter
      modify (deepen (UInt32.ofNat (limits.maxDebugDepth.toNat - levels)))
      let state ← get
      rejectIf (relative ∈ state.activeDirectories)
        (failure .invalidSection relative
          "resource directory contains a cycle")
      modify (activate relative)
      let count ← erasing relative
        (openDirectory limits baseFile directorySize relative)
      (List.range count.toNat).forM
        (walkEntry limits image baseFile directorySize relative path
          (walk limits image baseFile directorySize levels))
      modify (leave relative)

/-! ## The directory -/

def resourceRoot (image : BinaryImage) (directoryRva directorySize : UInt64) :
    Option FileAddress :=
  (AddressTranslator.rvaToFile image directoryRva directorySize).filter
    fun root => rangeInside root.fileOffset.toNat directorySize.toNat
      (image.fileData.getD []).length

def parse (limits : Limits) (image : BinaryImage)
    (directoryRva directorySize : UInt64) : WalkCall ResourceReport := do
  rejectIf (image.fileData = none ∨ image.header.format ≠ .peLike)
    (failure .invalidHeader directoryRva "resource parser requires a PE image")
  if directorySize = 0 then return {}
  else do
    rejectIf (directorySize > limits.maxSectionBytes)
      (failure .resourceLimit directoryRva
        "resource directory exceeds byte limit")
    let root ← demand (resourceRoot image directoryRva directorySize)
      (failure .invalidOffset directoryRva
        "resource directory is outside file-backed data")
    walk limits image root.fileOffset directorySize
      (limits.maxDebugDepth.toNat + 1) 0 []
    let state ← get
    return state.report

def start (image : BinaryImage) : WalkState :=
  { reader := { data := image.fileData.getD [] } }

/-- The number of calls of `walk` in a parse, whether or not it succeeds. -/
def directoryVisits (limits : Limits) (image : BinaryImage)
    (directoryRva directorySize : UInt64) : ℕ :=
  (finalState (parse limits image directoryRva directorySize
    (start image))).visits

end PeResourceParser
end BinForge
