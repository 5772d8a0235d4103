import BinForge.Base

/-!
# The normalized image

The format-independent model every parser fills in and every analysis reads.
Enumerations whose values are cast from an unchecked byte keep the byte they
were cast from when no enumerator has that value.
-/

namespace BinForge

/-- An enumeration stored as one byte, such that reading a stored value back
gives the value. -/
class ByteCoded (α : Type) where
  toByte : α → UInt8
  ofByte : UInt8 → α
  ofByte_toByte : ∀ value, ofByte (toByte value) = value

inductive ByteOrder
  | little
  | big
  deriving DecidableEq, Repr

inductive BinaryFormat
  | unknown
  | elfLike
  | peLike
  | machoLike
  deriving DecidableEq, Repr

inductive WordSize
  | bits32
  | bits64
  deriving DecidableEq, Repr

inductive BinaryKind
  | unknown
  | relocatable
  | executable
  | sharedLibrary
  | core
  | undeclared (value : UInt8) (beyond : 5 ≤ value)
  deriving DecidableEq, Repr

inductive Architecture
  | unknown
  | x86
  | x86_64
  | arm
  | arm64
  | riscv32
  | riscv64
  | undeclared (value : UInt8) (beyond : 7 ≤ value)
  deriving DecidableEq, Repr

inductive SectionKind
  | unknown
  | programBits
  | noBits
  | stringTable
  | symbolTable
  | dynamicSymbols
  | relocations
  | relocationAddends
  | debug
  | imports
  | exports
  | resources
  | unwind
  | notes
  | undeclared (value : UInt8) (beyond : 14 ≤ value)
  deriving DecidableEq, Repr

inductive SymbolBinding
  | local
  | global
  | weak
  | importSymbol
  | exportSymbol
  | undeclared (value : UInt8) (beyond : 5 ≤ value)
  deriving DecidableEq, Repr

inductive SymbolKind
  | unknown
  | object
  | function
  | section
  | file
  | common
  | tlsObject
  | undeclared (value : UInt8) (beyond : 7 ≤ value)
  deriving DecidableEq, Repr

inductive RelocationKind
  | none
  | absolute32
  | absolute64
  | relative32
  | relative64
  | pcRelative32
  | gotRelative
  | pltRelative
  | high16
  | low16
  | undeclared (value : UInt8) (beyond : 10 ≤ value)
  deriving DecidableEq, Repr

/-! ## Enumerators as bytes -/

def ByteOrder.toByte : ByteOrder → UInt8
  | .little => 0
  | .big => 1

def BinaryFormat.toByte : BinaryFormat → UInt8
  | .unknown => 0
  | .elfLike => 1
  | .peLike => 2
  | .machoLike => 3

def WordSize.toByte : WordSize → UInt8
  | .bits32 => 4
  | .bits64 => 8

instance : ByteCoded BinaryKind where
  toByte
    | .unknown => 0
    | .relocatable => 1
    | .executable => 2
    | .sharedLibrary => 3
    | .core => 4
    | .undeclared value _ => value
  ofByte byte :=
    if beyond : 5 ≤ byte then .undeclared byte beyond
    else [.unknown, .relocatable, .executable, .sharedLibrary,
      .core].getD byte.toNat .unknown
  ofByte_toByte value := by
    cases value with
    | undeclared value beyond => exact dif_pos beyond
    | _ => rfl

instance : ByteCoded Architecture where
  toByte
    | .unknown => 0
    | .x86 => 1
    | .x86_64 => 2
    | .arm => 3
    | .arm64 => 4
    | .riscv32 => 5
    | .riscv64 => 6
    | .undeclared value _ => value
  ofByte byte :=
    if beyond : 7 ≤ byte then .undeclared byte beyond
    else [.unknown, .x86, .x86_64, .arm, .arm64, .riscv32,
      .riscv64].getD byte.toNat .unknown
  ofByte_toByte value := by
    cases value with
    | undeclared value beyond => exact dif_pos beyond
    | _ => rfl

instance : ByteCoded SectionKind where
  toByte
    | .unknown => 0
    | .programBits => 1
    | .noBits => 2
    | .stringTable => 3
    | .symbolTable => 4
    | .dynamicSymbols => 5
    | .relocations => 6
    | .relocationAddends => 7
    | .debug => 8
    | .imports => 9
    | .exports => 10
    | .resources => 11
    | .unwind => 12
    | .notes => 13
    | .undeclared value _ => value
  ofByte byte :=
    if beyond : 14 ≤ byte then .undeclared byte beyond
    else [.unknown, .programBits, .noBits, .stringTable, .symbolTable,
      .dynamicSymbols, .relocations, .relocationAddends, .debug, .imports,
      .exports, .resources, .unwind, .notes].getD byte.toNat .unknown
  ofByte_toByte value := by
    cases value with
    | undeclared value beyond => exact dif_pos beyond
    | _ => rfl

instance : ByteCoded SymbolBinding where
  toByte
    | .local => 0
    | .global => 1
    | .weak => 2
    | .importSymbol => 3
    | .exportSymbol => 4
    | .undeclared value _ => value
  ofByte byte :=
    if beyond : 5 ≤ byte then .undeclared byte beyond
    else [.local, .global, .weak, .importSymbol,
      .exportSymbol].getD byte.toNat .local
  ofByte_toByte value := by
    cases value with
    | undeclared value beyond => exact dif_pos beyond
    | _ => rfl

instance : ByteCoded SymbolKind where
  toByte
    | .unknown => 0
    | .object => 1
    | .function => 2
    | .section => 3
    | .file => 4
    | .common => 5
    | .tlsObject => 6
    | .undeclared value _ => value
  ofByte byte :=
    if beyond : 7 ≤ byte then .undeclared byte beyond
    else [.unknown, .object, .function, .section, .file, .common,
      .tlsObject].getD byte.toNat .unknown
  ofByte_toByte value := by
    cases value with
    | undeclared value beyond => exact dif_pos beyond
    | _ => rfl

instance : ByteCoded RelocationKind where
  toByte
    | .none => 0
    | .absolute32 => 1
    | .absolute64 => 2
    | .relative32 => 3
    | .relative64 => 4
    | .pcRelative32 => 5
    | .gotRelative => 6
    | .pltRelative => 7
    | .high16 => 8
    | .low16 => 9
    | .undeclared value _ => value
  ofByte byte :=
    if beyond : 10 ≤ byte then .undeclared byte beyond
    else [.none, .absolute32, .absolute64, .relative32, .relative64,
      .pcRelative32, .gotRelative, .pltRelative, .high16,
      .low16].getD byte.toNat .none
  ofByte_toByte value := by
    cases value with
    | undeclared value beyond => exact dif_pos beyond
    | _ => rfl

/-! ## Records -/

def permissionNone : UInt8 := 0
def permissionRead : UInt8 := 1
def permissionWrite : UInt8 := 2
def permissionExecute : UInt8 := 4

/-- The flag test `permissions & flag`. -/
def hasPermission (permissions flag : UInt8) : Prop :=
  permissions &&& flag ≠ 0

instance (permissions flag : UInt8) : Decidable (hasPermission permissions flag) :=
  inferInstanceAs (Decidable (_ ≠ _))

structure FileHeader where
  format : BinaryFormat := .unknown
  wordSize : WordSize := .bits32
  byteOrder : ByteOrder := .little
  kind : BinaryKind := .unknown
  architecture : Architecture := .unknown
  entryPoint : UInt64 := 0
  imageBase : UInt64 := 0
  sectionTableOffset : UInt64 := 0
  segmentTableOffset : UInt64 := 0
  sectionCount : UInt32 := 0
  segmentCount : UInt32 := 0
  flags : UInt32 := 0
  deriving DecidableEq, Repr

structure Section where
  index : UInt32 := 0
  name : Bytes := []
  kind : SectionKind := .unknown
  fileOffset : UInt64 := 0
  fileSize : UInt64 := 0
  virtualAddress : UInt64 := 0
  memorySize : UInt64 := 0
  alignment : UInt64 := 1
  entrySize : UInt64 := 0
  link : UInt32 := 0
  info : UInt32 := 0
  permissions : UInt8 := permissionRead
  deriving DecidableEq, Repr

structure Segment where
  index : UInt32 := 0
  fileOffset : UInt64 := 0
  fileSize : UInt64 := 0
  virtualAddress : UInt64 := 0
  memorySize : UInt64 := 0
  alignment : UInt64 := 1
  permissions : UInt8 := permissionNone
  sections : List UInt32 := []
  deriving DecidableEq, Repr

structure Symbol where
  index : UInt32 := 0
  name : Bytes := []
  binding : SymbolBinding := .local
  kind : SymbolKind := .unknown
  sectionIndex : UInt32 := 0
  value : UInt64 := 0
  size : UInt64 := 0
  visibility : UInt8 := 0
  library : Bytes := []
  deriving DecidableEq, Repr

structure Relocation where
  index : UInt32 := 0
  kind : RelocationKind := .none
  targetSection : UInt32 := 0
  symbolIndex : UInt32 := 0
  offset : UInt64 := 0
  addend : Int64 := 0
  width : UInt8 := 0
  deriving DecidableEq, Repr

structure DebugLineRow where
  address : UInt64 := 0
  file : UInt32 := 0
  line : UInt32 := 0
  column : UInt32 := 0
  statement : Bool := false
  endSequence : Bool := false
  deriving DecidableEq, Repr

inductive DebugValue
  | unsigned (value : UInt64)
  | signed (value : Int64)
  | text (value : Bytes)
  | block (value : Bytes)
  deriving DecidableEq, Repr

structure DebugAttribute where
  name : UInt32 := 0
  form : UInt32 := 0
  value : DebugValue := .unsigned 0
  deriving DecidableEq, Repr

structure DebugEntry where
  offset : UInt64 := 0
  tag : UInt32 := 0
  hasChildren : Bool := false
  attributes : List DebugAttribute := []
  children : List DebugEntry := []
  deriving Repr

structure DebugUnit where
  offset : UInt64 := 0
  length : UInt64 := 0
  version : UInt16 := 0
  addressSize : UInt8 := 0
  files : List Bytes := []
  lines : List DebugLineRow := []
  entries : List DebugEntry := []
  deriving Repr

structure Import where
  library : Bytes := []
  name : Bytes := []
  ordinal : UInt64 := 0
  slotAddress : UInt64 := 0
  weak : Bool := false
  deriving DecidableEq, Repr

structure Export where
  name : Bytes := []
  address : UInt64 := 0
  ordinal : UInt64 := 0
  forwarded : Bool := false
  forwardTarget : Bytes := []
  deriving DecidableEq, Repr

/-- `fileData` is the shared pointer to the retained file bytes. -/
structure BinaryImage where
  header : FileHeader := {}
  sections : List Section := []
  segments : List Segment := []
  symbols : List Symbol := []
  relocations : List Relocation := []
  imports : List Import := []
  exports : List Export := []
  debugUnits : List DebugUnit := []
  warnings : List Bytes := []
  fileData : Option Bytes := none
  deriving Repr

def BinaryImage.symbol? (image : BinaryImage) (index : UInt32) : Option Symbol :=
  image.symbols[index.toNat]?

end BinForge
