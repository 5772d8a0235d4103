import BinForge.Patch
import BinForge.Reader

/-!
# Patch containers

`PatchEngine::encode` writes a plan as a checksummed container and
`PatchEngine::decode` reads one back.  The two check different limits at
different places.
-/

namespace BinForge

open StatefulExcept
open ListSplice
open ByteReader

def PatchOperationKind.toByte : PatchOperationKind → UInt8
  | .writeBytes => 0
  | .fillBytes => 1
  | .writeInteger => 2
  | .copyBytes => 3
  | .assertBytes => 4

/-- The cast of a byte that is at most the last enumerator. -/
def PatchOperationKind.ofByte (byte : UInt8) : PatchOperationKind :=
  [.writeBytes, .fillBytes, .writeInteger, .copyBytes,
    .assertBytes].getD byte.toNat .writeBytes

def ByteOrder.ofByte (byte : UInt8) : ByteOrder :=
  [.little, .big].getD byte.toNat .little

namespace PatchEngine

/-- What the loop of `encode` appends for one operation. -/
def operationRecord (operation : PatchOperation) : Bytes :=
  operation.kind.toByte :: (u64Bytes operation.address ++
    (u64Bytes operation.sourceAddress ++ (u64Bytes operation.length ++
      (u64Bytes operation.integer ++ (operation.width :: operation.fill ::
        operation.byteOrder.toByte ::
          (u32Bytes (UInt32.ofNat operation.bytes.length) ++
            operation.bytes))))))

/-- The loop of `encode`; the size is checked after each operation. -/
def encodeOperations (limits : Limits) :
    Bytes → List PatchOperation → Except Failure Bytes
  | output, [] => .ok output
  | output, operation :: rest => do
      let next := output ++ operationRecord operation
      rejectIf (next.length > limits.maxFileSize.toNat)
        (failure .resourceLimit (UInt64.ofNat next.length)
          "encoded patch exceeds size limit")
      encodeOperations limits next rest

/-- What `encode` writes before the first operation, after the signature. -/
def planRecord (plan : PatchPlan) : Bytes :=
  u32Bytes 1 ++ (u32Bytes (UInt32.ofNat plan.name.length) ++ (plan.name ++
    (u32Bytes plan.expectedChecksum ++ (u64Bytes plan.bytesWritten ++
      u32Bytes (UInt32.ofNat plan.operations.length)))))

/-- The result is empty, as in the source, exactly when `encode` fails. -/
def encode (limits : Limits) (plan : PatchPlan) : Except Failure Bytes := do
  rejectIf (plan.name.length > limits.maxStringBytes.toNat ∨
      plan.operations.length > limits.maxRelocations.toNat)
    (failure .resourceLimit 0 "patch plan exceeds encode limits")
  let output ← encodeOperations limits (ascii "BFPT" ++ planRecord plan)
    plan.operations
  return output ++ u32Bytes (crc32 output)

/-- The size of the name, which follows. -/
def decodeNameSize (limits : Limits) : DecodeCall UInt32 :=
  reporting (failure .invalidHeader 4 "patch header is invalid") do
    let version ← readU32
    rejectIf (version ≠ 1) ()
    let nameSize ← readU32
    rejectIf (nameSize.toUInt64 > limits.maxStringBytes) ()
    let reader ← get
    rejectIf (nameSize.toNat > reader.remaining) ()
    return nameSize

/-- Expected checksum, bytes written and operation count. -/
def decodeCounts (limits : Limits) : DecodeCall (UInt32 × UInt64 × UInt32) :=
  adaptError (reportAt .resourceLimit "patch operation count is invalid") do
    let expectedChecksum ← readU32
    let bytesWritten ← readU64
    let operationCount ← readU32
    rejectIf (operationCount > limits.maxRelocations) ()
    return (expectedChecksum, bytesWritten, operationCount)

/-- The fixed part of an operation record, as it is stored. -/
structure OperationFields where
  kind : UInt8
  address : UInt64
  sourceAddress : UInt64
  length : UInt64
  integer : UInt64
  width : UInt8
  fill : UInt8
  order : UInt8
  byteCount : UInt32
  deriving DecidableEq, Repr

def decodeOperationFields (limits : Limits) : DecodeCall OperationFields :=
  adaptError (reportAt .truncated "patch operation is truncated") do
    let kind ← readU8
    let address ← readU64
    let sourceAddress ← readU64
    let length ← readU64
    let integer ← readU64
    let width ← readU8
    let fill ← readU8
    let order ← readU8
    let byteCount ← readU32
    rejectIf (byteCount.toUInt64 > limits.maxSectionBytes) ()
    let reader ← get
    rejectIf (byteCount.toNat > reader.remaining) ()
    return { kind, address, sourceAddress, length, integer, width, fill, order,
             byteCount }

def OperationFields.operation (fields : OperationFields) (bytes : Bytes) :
    PatchOperation :=
  { kind := .ofByte fields.kind
    address := fields.address
    sourceAddress := fields.sourceAddress
    length := fields.length
    integer := fields.integer
    width := fields.width
    fill := fields.fill
    byteOrder := .ofByte fields.order
    bytes }

def decodeOperation (limits : Limits) : DecodeCall PatchOperation := do
  let fields ← decodeOperationFields limits
  let reader ← get
  rejectIf (fields.kind > PatchOperationKind.assertBytes.toByte ∨
      fields.order > ByteOrder.big.toByte)
    (failure .invalidHeader (UInt64.ofNat reader.position)
      "patch operation enum is invalid")
  let bytes ← silently (readBytes fields.byteCount.toNat)
  return fields.operation bytes

/-- The part of `decode` that reads the container's body. -/
def decodeBody (limits : Limits) : DecodeCall PatchPlan := do
  let nameSize ← decodeNameSize limits
  let name ← silently (readBytes nameSize.toNat)
  let (expectedChecksum, bytesWritten, operationCount) ← decodeCounts limits
  let operations ← collect (decodeOperation limits) operationCount.toNat
  let reader ← get
  rejectIf (reader.remaining ≠ 0)
    (failure .invalidHeader (UInt64.ofNat reader.position)
      "patch container contains trailing data")
  return { name, expectedChecksum, operations, bytesWritten }

def decode (limits : Limits) (data : Bytes) : Except Failure PatchPlan := do
  rejectIf (data.length < 28 ∨ data.length > limits.maxFileSize.toNat ∨
      data.take 4 ≠ ascii "BFPT")
    (failure .badMagic 0 "patch container is invalid")
  rejectIf (trailerWord data ≠ crc32 (data.take (data.length - 4)))
    (failure .invalidHeader (UInt64.ofNat (data.length - 4))
      "patch checksum does not match")
  evaluate (decodeBody limits) { data := slice data 4 (data.length - 8) }

end PatchEngine
end BinForge
