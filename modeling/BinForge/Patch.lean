import BinForge.Memory

/-!
# Patch plans and their application

`PatchEngine` checks a plan once against the memory it is given and then
performs the operations one by one, keeping the bytes each operation is about
to overwrite so that a later failure can put them back.
-/

namespace BinForge

open StatefulExcept

inductive PatchOperationKind
  | writeBytes
  | fillBytes
  | writeInteger
  | copyBytes
  | assertBytes
  deriving DecidableEq, Repr

structure PatchOperation where
  kind : PatchOperationKind := .writeBytes
  address : UInt64 := 0
  sourceAddress : UInt64 := 0
  length : UInt64 := 0
  integer : UInt64 := 0
  width : UInt8 := 0
  fill : UInt8 := 0
  byteOrder : ByteOrder := .little
  bytes : Bytes := []
  deriving DecidableEq, Repr

structure PatchPlan where
  name : Bytes := []
  expectedChecksum : UInt32 := 0
  operations : List PatchOperation := []
  bytesWritten : UInt64 := 0
  deriving DecidableEq, Repr

structure PatchResult where
  operationsApplied : UInt32 := 0
  bytesWritten : UInt64 := 0
  resultingChecksum : UInt32 := 0
  deriving DecidableEq, Repr

namespace PatchEngine

/-- The value `operation_size` stores. -/
def operationSize (operation : PatchOperation) : ℕ :=
  match operation.kind with
  | .writeBytes | .assertBytes => operation.bytes.length
  | .fillBytes | .copyBytes => operation.length.toNat
  | .writeInteger => operation.width.toNat

/-- The value `operation_size` returns. -/
def operationSizeValid (operation : PatchOperation) : Bool :=
  match operation.kind with
  | .writeBytes | .assertBytes =>
      operation.length == 0 ||
        operation.length.toNat == operation.bytes.length
  | .fillBytes | .copyBytes => true
  | .writeInteger =>
      operation.width == 1 || operation.width == 2 || operation.width == 4 ||
        operation.width == 8

def mixChecksum (combined : UInt32) (item : UInt64 × MemoryRegion) : UInt32 :=
  let regionChecksum := crc32 item.2.bytes
  combined ^^^
    (regionChecksum + (0x9e3779b9 : UInt32) + (combined <<< (6 : UInt32)) +
      (combined >>> (2 : UInt32)))

def memoryChecksum (memory : AddressSpace) : UInt32 :=
  memory.regions.entries.foldl mixChecksum 0

/-- The range lies in the region that holds its first address. -/
def fullyMapped (memory : AddressSpace) (address : UInt64) (size : ℕ) : Bool :=
  match memory.regionAt address with
  | none => false
  | some region => region.contains address size

/-- The write-byte count at the end of a pass; assertions write nothing. -/
def countWritten (limits : Limits) (totalWritten : UInt64)
    (operation : PatchOperation) : Except Failure UInt64 :=
  if operation.kind = .assertBytes then return totalWritten
  else do
    let next ← demand
      (checkedAdd totalWritten (UInt64.ofNat (operationSize operation)))
      (failure .resourceLimit operation.address
        "patch write-byte limit exceeded")
    rejectIf (next > limits.maxMappedBytes)
      (failure .resourceLimit operation.address
        "patch write-byte limit exceeded")
    return next

/-- One pass of the loop of `validate`; the result is the new
`total_written`. -/
def validateOperation (limits : Limits) (memory : AddressSpace) (index : ℕ)
    (totalWritten : UInt64) (operation : PatchOperation) :
    Except Failure UInt64 := do
  let size := operationSize operation
  rejectIf (operationSizeValid operation = false ∨ size = 0)
    (failure .invalidRelocation (UInt64.ofNat index)
      "patch operation has an invalid size")
  let _ ← demand (checkedAdd operation.address (UInt64.ofNat size))
    (failure .addressOverflow operation.address
      "patch destination range overflows")
  rejectIf (fullyMapped memory operation.address size = false)
    (failure .mappingMissing operation.address
      "patch destination is not fully mapped")
  if operation.kind = .copyBytes then
    let _ ← demand (checkedAdd operation.sourceAddress (UInt64.ofNat size))
      (failure .addressOverflow operation.sourceAddress
        "patch source range overflows")
    rejectIf (fullyMapped memory operation.sourceAddress size = false)
      (failure .mappingMissing operation.sourceAddress
        "patch source is not fully mapped")
  countWritten limits totalWritten operation

def validateOperations (limits : Limits) (memory : AddressSpace) :
    ℕ → UInt64 → List PatchOperation → Except Failure UInt64
  | _, totalWritten, [] => .ok totalWritten
  | index, totalWritten, operation :: rest => do
      let next ← validateOperation limits memory index totalWritten operation
      validateOperations limits memory (index + 1) next rest

def validate (limits : Limits) (plan : PatchPlan) (memory : AddressSpace) :
    Except Failure Unit := do
  rejectIf (plan.operations.length > limits.maxRelocations.toNat)
    (failure .resourceLimit 0 "patch operation limit exceeded")
  let totalWritten ← validateOperations limits memory 0 0 plan.operations
  rejectIf (plan.bytesWritten ≠ 0 ∧ plan.bytesWritten ≠ totalWritten)
    (failure .invalidRelocation 0
      "patch declared write count does not match operations")

/-- The bytes an operation is about to overwrite. -/
structure Undo where
  address : UInt64
  bytes : Bytes
  deriving DecidableEq, Repr

/-- The body of the rollback loop; its error is ignored. -/
def undoOne (memory : AddressSpace) (entry : Undo) : AddressSpace :=
  finalState (AddressSpace.write entry.address entry.bytes true memory)

/-- The rollback loop.  The log is kept newest first, which is the order the
loop walks it in. -/
def rollback (undo : List Undo) (memory : AddressSpace) : AddressSpace :=
  undo.foldl undoOne memory

/-- The write an operation performs. -/
def performOperation (operation : PatchOperation) : MemoryCall Unit :=
  match operation.kind with
  | .writeBytes => AddressSpace.write operation.address operation.bytes true
  | .fillBytes =>
      AddressSpace.write operation.address
        (List.replicate (operationSize operation) operation.fill) true
  | .writeInteger =>
      AddressSpace.writeInteger operation.address operation.width
        operation.byteOrder operation.integer true
  | .copyBytes => do
      let copy ← AddressSpace.read operation.sourceAddress
        (operationSize operation)
      AddressSpace.write operation.address copy true
  | .assertBytes => pure ()

/-- The loop of `apply`, with the undo log and the result so far. -/
def applyOperations :
    List Undo → PatchResult → List PatchOperation → MemoryCall PatchResult
  | _, result, [] => pure result
  | undo, result, operation :: rest => do
      let before ← withCleanup (rollback undo)
        (AddressSpace.read operation.address (operationSize operation))
      if operation.kind = .assertBytes then
        withCleanup (rollback undo) (rejectIf (before ≠ operation.bytes)
          (failure .invalidHeader operation.address
            "patch byte assertion failed"))
        applyOperations undo
          { result with operationsApplied := result.operationsApplied + 1 } rest
      else
        withCleanup (rollback (⟨operation.address, before⟩ :: undo))
          (performOperation operation)
        applyOperations (⟨operation.address, before⟩ :: undo)
          { result with
            operationsApplied := result.operationsApplied + 1
            bytesWritten := result.bytesWritten +
              UInt64.ofNat (operationSize operation) } rest

def apply (limits : Limits) (plan : PatchPlan) : MemoryCall PatchResult := do
  let memory ← get
  liftExcept (validate limits plan memory)
  rejectIf (plan.expectedChecksum ≠ 0 ∧
      memoryChecksum memory ≠ plan.expectedChecksum)
    (failure .invalidHeader 0 "patch precondition checksum does not match")
  let result ← applyOperations [] {} plan.operations
  let memory ← get
  return { result with resultingChecksum := memoryChecksum memory }

end PatchEngine
end BinForge
