import BinForge.Validator

/-!
# Building images

`BinaryImageBuilder` collects sections and records and lays them out as an
image.  A section starts a new segment or extends the last one; the segment
then covers everything from its first section's start to this section's end,
in the file and in memory.
-/

namespace BinForge

open StatefulExcept
open MachineInteger

structure BuilderSection where
  name : Bytes := []
  kind : SectionKind := .programBits
  permissions : UInt8 := permissionRead
  alignment : UInt64 := 1
  data : Bytes := []
  zeroFill : UInt64 := 0
  deriving DecidableEq, Repr

structure BuilderOptions where
  format : BinaryFormat := .elfLike
  kind : BinaryKind := .executable
  architecture : Architecture := .x86_64
  wordSize : WordSize := .bits64
  byteOrder : ByteOrder := .little
  imageBase : UInt64 := 0x400000
  fileAlignment : UInt64 := 16
  memoryAlignment : UInt64 := 4096
  separatePermissions : Bool := true
  deriving DecidableEq, Repr

structure BinaryImageBuilder where
  limits : Limits := {}
  sections : List BuilderSection := []
  symbols : List Symbol := []
  imports : List Import := []
  exports : List Export := []
  relocations : List Relocation := []
  deriving DecidableEq, Repr

namespace BinaryImageBuilder

/-! ## Collecting -/

abbrev BuilderCall := EStateM Failure BinaryImageBuilder

def new (limits : Limits) : BinaryImageBuilder := { limits }

def addSection (item : BuilderSection) : BuilderCall Unit := do
  let builder ← get
  let position := UInt64.ofNat builder.sections.length
  rejectIf (builder.sections.length ≥ builder.limits.maxSections.toNat ∨
      item.name.length > builder.limits.maxStringBytes.toNat ∨
      item.data.length > builder.limits.maxSectionBytes.toNat ∨
      BinaryValidator.badAlignment item.alignment)
    (failure .resourceLimit position
      "builder section exceeds limits or has invalid alignment")
  rejectIf (∃ existing ∈ builder.sections, existing.name = item.name)
    (failure .invalidSection position "builder section name is duplicated")
  set { builder with sections := builder.sections ++ [item] }

def addSymbol (symbol : Symbol) : BuilderCall Unit := do
  let builder ← get
  rejectIf (builder.symbols.length ≥ builder.limits.maxSymbols.toNat ∨
      symbol.name.length > builder.limits.maxStringBytes.toNat ∨
      symbol.library.length > builder.limits.maxStringBytes.toNat)
    (failure .resourceLimit (UInt64.ofNat builder.symbols.length)
      "builder symbol exceeds limits")
  set { builder with symbols := builder.symbols ++
    [{ symbol with index := UInt32.ofNat builder.symbols.length }] }

def addImport (imported : Import) : BuilderCall Unit := do
  let builder ← get
  rejectIf (builder.imports.length ≥ builder.limits.maxImports.toNat ∨
      imported.name.length > builder.limits.maxStringBytes.toNat ∨
      imported.library.length > builder.limits.maxStringBytes.toNat)
    (failure .resourceLimit (UInt64.ofNat builder.imports.length)
      "builder import exceeds limits")
  set { builder with imports := builder.imports ++ [imported] }

def addExport (exported : Export) : BuilderCall Unit := do
  let builder ← get
  rejectIf (builder.exports.length ≥ builder.limits.maxExports.toNat ∨
      exported.name.length > builder.limits.maxStringBytes.toNat ∨
      exported.forwardTarget.length > builder.limits.maxStringBytes.toNat)
    (failure .resourceLimit (UInt64.ofNat builder.exports.length)
      "builder export exceeds limits")
  set { builder with exports := builder.exports ++ [exported] }

def addRelocation (relocation : Relocation) : BuilderCall Unit := do
  let builder ← get
  rejectIf (builder.relocations.length ≥ builder.limits.maxRelocations.toNat)
    (failure .resourceLimit (UInt64.ofNat builder.relocations.length)
      "builder relocation limit exceeded")
  set { builder with relocations := builder.relocations ++
    [{ relocation with index := UInt32.ofNat builder.relocations.length }] }

def clear : BuilderCall Unit :=
  modify fun builder => { limits := builder.limits }

/-- A mutating call with its arguments. -/
inductive Command
  | addSection (item : BuilderSection)
  | addSymbol (symbol : Symbol)
  | addImport (imported : Import)
  | addExport (exported : Export)
  | addRelocation (relocation : Relocation)
  | clear

def Command.call : Command → BuilderCall Unit
  | .addSection item => BinaryImageBuilder.addSection item
  | .addSymbol symbol => BinaryImageBuilder.addSymbol symbol
  | .addImport imported => BinaryImageBuilder.addImport imported
  | .addExport exported => BinaryImageBuilder.addExport exported
  | .addRelocation relocation => BinaryImageBuilder.addRelocation relocation
  | .clear => BinaryImageBuilder.clear

/-- The builder after a sequence of calls, succeeding or failing. -/
def run (builder : BinaryImageBuilder) (commands : List Command) :
    BinaryImageBuilder :=
  commands.foldl (fun builder command => finalState (command.call builder))
    builder

/-! ## Laying out -/

/-- What the section loop carries along. -/
structure BuildState where
  storage : Bytes := []
  fileCursor : UInt64 := 0
  memoryCursor : UInt64 := 0
  sections : List Section := []
  segments : List Segment := []
  deriving DecidableEq, Repr

/-- `std::vector::resize` with zeros. -/
def resize (bytes : Bytes) (size : ℕ) : Bytes :=
  bytes.take size ++ List.replicate (size - bytes.length) 0

/-- The segment is the first one or, with separate permissions, the last one
has others. -/
def startsSegment (options : BuilderOptions) (segments : List Segment)
    (permissions : UInt8) : Bool :=
  match segments.getLast? with
  | none => true
  | some last => options.separatePermissions && last.permissions != permissions

/-- The segments once `item` has been placed; `position` only places the
error. -/
def placeInSegment (options : BuilderOptions) (memoryAlignment : UInt64)
    (item : Section) (position : UInt64) (segments : List Segment) :
    Except Failure (List Segment) :=
  match segments.getLast?, startsSegment options segments item.permissions with
  | some last, false => do
      let overflow := failure .addressOverflow position
        "builder combined segment overflows"
      let fileEnd ← demand (checkedAdd item.fileOffset item.fileSize) overflow
      let memoryEnd ← demand
        (checkedAdd item.virtualAddress item.memorySize) overflow
      return segments.dropLast ++
        [{ last with
            fileSize := fileEnd - last.fileOffset
            memorySize := memoryEnd - last.virtualAddress
            sections := last.sections ++ [item.index] }]
  | _, _ =>
      .ok (segments ++
        [{ index := UInt32.ofNat segments.length, fileOffset := item.fileOffset,
           fileSize := item.fileSize, virtualAddress := item.virtualAddress,
           memorySize := item.memorySize, alignment := memoryAlignment,
           permissions := item.permissions, sections := [item.index] }])

/-- The body of the section loop. -/
def placeSection (limits : Limits) (options : BuilderOptions)
    (state : BuildState) (item : BuilderSection × ℕ) :
    Except Failure BuildState := do
  let (source, index) := item
  let position := UInt64.ofNat index
  let size := UInt64.ofNat source.data.length
  let memoryAlignment := max options.memoryAlignment source.alignment
  let misplaced := failure .addressOverflow position
    "builder section placement overflows"
  let fileOffset ← demand (checkedAlignUp state.fileCursor
    (max options.fileAlignment source.alignment)) misplaced
  let virtualAddress ← demand
    (checkedAlignUp state.memoryCursor memoryAlignment) misplaced
  rejectIf (fileOffset > limits.maxFileSize ∨
      source.data.length > (limits.maxFileSize - fileOffset).toNat)
    (failure .resourceLimit position "builder file-size limit exceeded")
  let memorySize ← demand (checkedAdd size source.zeroFill)
    (failure .addressOverflow position "builder section memory size overflows")
  let placed : Section :=
    { index := UInt32.ofNat index, name := source.name, kind := source.kind,
      fileOffset, fileSize := size, virtualAddress, memorySize,
      alignment := source.alignment, permissions := source.permissions }
  let segments ← placeInSegment options memoryAlignment placed position
    state.segments
  let exhausted := failure .addressOverflow position
    "builder cursor update overflows"
  let fileCursor ← demand (checkedAdd fileOffset size) exhausted
  let memoryCursor ← demand (checkedAdd virtualAddress memorySize) exhausted
  return { storage := resize state.storage fileOffset.toNat ++ source.data
           fileCursor, memoryCursor, sections := state.sections ++ [placed]
           segments }

def entryPoint (sections : List Section) : UInt64 :=
  ((sections.find? fun item =>
    hasPermission item.permissions permissionExecute).map
      Section.virtualAddress).getD 0

def builtImage (builder : BinaryImageBuilder) (options : BuilderOptions)
    (state : BuildState) : BinaryImage :=
  { header :=
      { format := options.format, kind := options.kind
        architecture := options.architecture, wordSize := options.wordSize
        byteOrder := options.byteOrder, imageBase := options.imageBase
        sectionCount := UInt32.ofNat state.sections.length
        segmentCount := UInt32.ofNat state.segments.length
        entryPoint := entryPoint state.sections }
    sections := state.sections, segments := state.segments
    symbols := builder.symbols, relocations := builder.relocations
    imports := builder.imports, exports := builder.exports
    fileData := some state.storage }

def build (builder : BinaryImageBuilder) (options : BuilderOptions) :
    Except Failure BinaryImage := do
  let limits := builder.limits
  rejectIf (BinaryValidator.badAlignment options.fileAlignment ∨
      BinaryValidator.badAlignment options.memoryAlignment ∨
      options.fileAlignment > limits.maxSectionBytes ∨
      options.memoryAlignment > limits.maxMappedBytes)
    (failure .invalidAlignment 0 "builder output alignments are invalid")
  let state ← builder.sections.zipIdx.foldlM (placeSection limits options)
    { memoryCursor := options.imageBase }
  let image := builtImage builder options state
  let report := BinaryValidator.validate limits image
  -- An invalid report has an error, so its first one exists.
  rejectIf (report.valid = false) (.reported (report.errors.headD {}))
  return image

end BinaryImageBuilder
end BinForge
