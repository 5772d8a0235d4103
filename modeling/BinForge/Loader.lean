import BinForge.Memory
import BinForge.Validator

/-!
# Resolving, relocating and loading

`BinaryLoader` maps the segments of a valid image page by page, copies their
file bytes, applies the relocations and fills the import slots.  Each of the
three loops stops at the first failure and leaves what it did in place.
-/

namespace BinForge

open StatefulExcept
open ListSplice

/-! ## Import resolution -/

/-- The two maps of the resolver, as association lists without repeated keys. -/
structure SymbolResolver where
  named : List ((Bytes × Bytes) × UInt64) := []
  ordinal : List ((Bytes × UInt64) × UInt64) := []
  deriving DecidableEq, Repr

namespace SymbolResolver

def addExport (library : Bytes) (symbol : Export) :
    EStateM Failure SymbolResolver Unit := do
  let resolver ← get
  rejectIf ((symbol.name ≠ [] ∧
        (resolver.named.lookup (library, symbol.name)).isSome) ∨
      (resolver.ordinal.lookup (library, symbol.ordinal)).isSome)
    (failure .duplicateExport 0 "duplicate exported symbol")
  set { named :=
          if symbol.name ≠ [] then
            ((library, symbol.name), symbol.address) :: resolver.named
          else resolver.named
        ordinal :=
          ((library, symbol.ordinal), symbol.address) :: resolver.ordinal :
        SymbolResolver }

def resolve (resolver : SymbolResolver) (library name : Bytes)
    (ordinal : UInt64) : Option UInt64 :=
  (if name ≠ [] then resolver.named.lookup (library, name) else none) <|>
    resolver.ordinal.lookup (library, ordinal)

end SymbolResolver

/-! ## Relocations -/

namespace RelocationProcessor

/-- The width used when the relocation does not give one. -/
def defaultWidth (kind : RelocationKind) : UInt8 :=
  if kind = .absolute64 ∨ kind = .relative64 then 8 else 4

/-- The symbol's contribution; `target` only places the errors. -/
def symbolValue (relocation : Relocation) (image : BinaryImage)
    (bias target : UInt64) (resolver : Option SymbolResolver) :
    Except Failure UInt64 :=
  if relocation.symbolIndex = 0 then return 0
  else do
    let symbol ← demand (image.symbol? relocation.symbolIndex)
      (failure .invalidSymbol target "relocation symbol index invalid")
    match symbol.binding, resolver with
    | .importSymbol, some resolver =>
        demand (resolver.resolve symbol.library symbol.name 0)
          (failure .unresolvedImport target "relocation import unresolved")
    | _, _ =>
        demand (checkedAdd symbol.value bias)
          (failure .addressOverflow target "symbol address overflow")

/-- The switch over the kind: value and width to store, or nothing for a
relocation without effect. -/
def computeValue (relocation : Relocation) (bias target symbolValue : UInt64) :
    Except Failure (Option (UInt64 × UInt8)) :=
  let width :=
    if relocation.width ≠ 0 then relocation.width
    else defaultWidth relocation.kind
  let addend := relocation.addend.toUInt64
  match relocation.kind with
  | .relative32 | .relative64 => .ok (some (bias + addend, width))
  | .pcRelative32 => .ok (some (symbolValue + addend - target, width))
  | .absolute32 | .absolute64 => .ok (some (symbolValue + addend, width))
  | .high16 => .ok (some ((symbolValue + addend) >>> 16, 2))
  | .low16 => .ok (some ((symbolValue + addend) &&& 0xffff, 2))
  | .none => .ok none
  | .gotRelative | .pltRelative | .undeclared _ _ =>
      .error (failure .invalidRelocation target "unsupported relocation kind")

def applyOne (relocation : Relocation) (image : BinaryImage) (bias : UInt64)
    (resolver : Option SymbolResolver) : MemoryCall Unit := do
  let target ← demand (checkedAdd relocation.offset bias)
    (failure .addressOverflow relocation.offset "relocation target overflow")
  let symbolValue ← liftExcept
    (symbolValue relocation image bias target resolver)
  let stored ← liftExcept (computeValue relocation bias target symbolValue)
  match stored with
  | none => pure ()
  | some (value, width) => do
      rejectIf (width < 8 ∧ value.toNat ≥ 2 ^ (width.toNat * 8))
        (failure .addressOverflow target "relocation result does not fit")
      AddressSpace.writeInteger target width image.header.byteOrder value true

/-- The loop of `apply`; the result counts the relocations applied. -/
def applyAll (image : BinaryImage) (bias : UInt64)
    (resolver : Option SymbolResolver) (relocations : List Relocation) :
    MemoryCall UInt32 :=
  relocations.foldlM (fun applied relocation => do
    applyOne relocation image bias resolver
    return applied + 1) 0

def apply (limits : Limits) (image : BinaryImage) (bias : UInt64)
    (resolver : Option SymbolResolver) : MemoryCall UInt32 := do
  rejectIf (image.relocations.length > limits.maxRelocations.toNat)
    (failure .resourceLimit 0 "relocation count limit")
  applyAll image bias resolver image.relocations

end RelocationProcessor

/-! ## Loading -/

structure LoadOptions where
  preferredBase : UInt64 := 0
  applyRelocations : Bool := true
  resolveImports : Bool := true
  enforceWx : Bool := true
  deriving DecidableEq, Repr

structure LoadResult where
  loadBase : UInt64 := 0
  entryPoint : UInt64 := 0
  mappedBytes : UInt64 := 0
  relocationsApplied : UInt32 := 0
  importsResolved : UInt32 := 0
  warnings : List Bytes := []
  deriving DecidableEq, Repr

namespace BinaryLoader

def leastAddress : Segment → List Segment → UInt64
  | first, rest =>
      rest.foldl (fun least segment =>
        if segment.virtualAddress < least then segment.virtualAddress
        else least) first.virtualAddress

def originalBase (image : BinaryImage) : UInt64 :=
  if image.header.imageBase ≠ 0 then image.header.imageBase
  else
    match image.segments with
    | [] => 0
    | first :: rest => leastAddress first rest

def loadBase (image : BinaryImage) (options : LoadOptions) : UInt64 :=
  if options.preferredBase ≠ 0 then options.preferredBase
  else originalBase image

def loadBias (image : BinaryImage) (options : LoadOptions) : UInt64 :=
  loadBase image options - originalBase image

def initialPermissions (options : LoadOptions) (segment : Segment) : UInt8 :=
  let initial := segment.permissions ||| permissionWrite
  if options.enforceWx ∧ hasPermission initial permissionWrite ∧
      hasPermission initial permissionExecute then
    initial &&& ~~~permissionExecute
  else initial

def decimal (n : ℕ) : Bytes :=
  (Nat.toDigits 10 n).map fun digit => UInt8.ofNat digit.toNat

def segmentName (segment : Segment) : Bytes :=
  ascii "segment." ++ decimal segment.index.toNat

def alignedBase (limits : Limits) (address : UInt64) : UInt64 :=
  address &&& ~~~(limits.pageSize - 1).toUInt64

/-- The pages a segment occupies at its load address: their base and size. -/
def segmentPages (limits : Limits) (bias : UInt64) (segment : Segment) :
    Except Failure (UInt64 × UInt64 × UInt64) := do
  let address ← demand (checkedAdd segment.virtualAddress bias)
    (failure .addressOverflow segment.virtualAddress
      "segment load address overflow")
  let overflow := failure .addressOverflow address
    "aligned segment size overflow"
  let base := alignedBase limits address
  let total ← demand (checkedAdd (address - base) segment.memorySize) overflow
  let size ← demand (checkedAlignUp total limits.pageSize.toUInt64) overflow
  return (address, base, size)

/-- What the segment loop does for a segment that occupies memory; the result
is the size mapped for it. -/
def loadSegment (limits : Limits) (image : BinaryImage) (options : LoadOptions)
    (bias : UInt64) (segment : Segment) : MemoryCall UInt64 := do
  let (address, base, size) ← liftExcept (segmentPages limits bias segment)
  AddressSpace.map base size (initialPermissions options segment)
    (segmentName segment)
  if segment.fileSize ≠ 0 then
    let unavailable := failure .fileRangeOverflow segment.fileOffset
      "segment data unavailable"
    let data ← demand image.fileData unavailable
    rejectIf (rangeInside segment.fileOffset.toNat segment.fileSize.toNat
      data.length = false) unavailable
    AddressSpace.write address
      (slice data segment.fileOffset.toNat segment.fileSize.toNat) true
  return size

/-- The body of the segment loop; the total grows by what is mapped. -/
def segmentStep (limits : Limits) (image : BinaryImage) (options : LoadOptions)
    (bias mappedBytes : UInt64) (segment : Segment) : MemoryCall UInt64 :=
  if segment.memorySize = 0 then pure mappedBytes
  else do
    let size ← loadSegment limits image options bias segment
    return mappedBytes + size

def loadSegments (limits : Limits) (image : BinaryImage) (options : LoadOptions)
    (bias : UInt64) (segments : List Segment) : MemoryCall UInt64 :=
  segments.foldlM (segmentStep limits image options bias) 0

/-- The address an import is bound to, or nothing for an unresolved weak
import. -/
def resolveImport (resolver : Option SymbolResolver) (imported : Import) :
    Except Failure (Option UInt64) :=
  match resolver with
  | none =>
      if imported.weak then .ok none
      else .error (failure .unresolvedImport imported.slotAddress
        "no import resolver")
  | some resolver =>
      match resolver.resolve imported.library imported.name imported.ordinal with
      | some target => .ok (some target)
      | none =>
          if imported.weak then .ok none
          else .error (failure .unresolvedImport imported.slotAddress
            (ascii "unresolved import: " ++ imported.name))

/-- The body of the import loop; the result is one when a slot was written. -/
def bindImport (image : BinaryImage) (bias : UInt64)
    (resolver : Option SymbolResolver) (imported : Import) :
    MemoryCall UInt32 := do
  let target ← liftExcept (resolveImport resolver imported)
  match target with
  | none => return 0
  | some target => do
      let slot ← demand (checkedAdd imported.slotAddress bias) Failure.silent
      AddressSpace.writeInteger slot image.header.wordSize.toByte
        image.header.byteOrder target true
      return 1

def bindImports (image : BinaryImage) (bias : UInt64)
    (resolver : Option SymbolResolver) (imports : List Import) :
    MemoryCall UInt32 :=
  imports.foldlM (fun resolved imported => do
    let count ← bindImport image bias resolver imported
    return resolved + count) 0

def entryPoint (image : BinaryImage) (bias : UInt64) : Except Failure UInt64 :=
  let entry := image.header.entryPoint
  if entry ≠ 0 ∧ originalBase image ≠ 0 ∧ entry ≥ originalBase image then
    demand (checkedAdd entry bias)
      (failure .addressOverflow entry "entry point overflow")
  else .ok entry

def relocateStage (limits : Limits) (image : BinaryImage)
    (options : LoadOptions) (resolver : Option SymbolResolver) :
    MemoryCall UInt32 :=
  if options.applyRelocations then
    RelocationProcessor.apply limits image (loadBias image options) resolver
  else pure 0

def importStage (image : BinaryImage) (options : LoadOptions)
    (resolver : Option SymbolResolver) : MemoryCall UInt32 :=
  if options.resolveImports then
    bindImports image (loadBias image options) resolver image.imports
  else pure 0

def load (limits : Limits) (image : BinaryImage) (options : LoadOptions)
    (resolver : Option SymbolResolver) : MemoryCall LoadResult := do
  let report := BinaryValidator.validate limits image
  -- An invalid report has an error, so its first one exists.
  rejectIf (report.valid = false) (.reported (report.errors.headD {}))
  let mappedBytes ← loadSegments limits image options (loadBias image options)
    image.segments
  let relocationsApplied ← relocateStage limits image options resolver
  let importsResolved ← importStage image options resolver
  let entryPoint ← liftExcept (entryPoint image (loadBias image options))
  return { loadBase := loadBase image options, entryPoint, mappedBytes,
           relocationsApplied, importsResolved }

end BinaryLoader
end BinForge
