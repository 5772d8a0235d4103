import BinForge.Memory
import BinForge.Reader

/-!
# Memory snapshots

`MemorySnapshotCodec` copies an address space into a snapshot, writes it as a
checksummed container, reads such a container back and rebuilds an address
space from it.
-/

namespace BinForge

open StatefulExcept
open ListSplice

structure SnapshotRegion where
  base : UInt64 := 0
  size : UInt64 := 0
  permissions : UInt8 := permissionNone
  name : Bytes := []
  checksum : UInt32 := 0
  bytes : Bytes := []
  deriving DecidableEq, Repr

structure MemorySnapshot where
  version : UInt32 := 1
  mappedBytes : UInt64 := 0
  regions : List SnapshotRegion := []
  deriving DecidableEq, Repr

namespace MemorySnapshotCodec

def captureRegion (includeBytes : Bool) (source : MemoryRegion) :
    SnapshotRegion :=
  { base := source.base
    size := source.size
    permissions := source.permissions
    name := source.name
    checksum := crc32 source.bytes
    bytes := if includeBytes then source.bytes else [] }

/-- The snapshot `capture` returns, with the error it reports, if any. -/
def capture (limits : Limits) (memory : AddressSpace) (includeBytes : Bool) :
    MemorySnapshot × Option Failure :=
  let snapshot : MemorySnapshot := { mappedBytes := memory.mappedBytes }
  if snapshot.mappedBytes > limits.maxMappedBytes ∨
      memory.regions.entries.length > limits.maxSegments.toNat then
    (snapshot, some (failure .resourceLimit 0
      "address space exceeds snapshot limits"))
  else
    ({ snapshot with
      regions := memory.regions.entries.map fun item =>
        captureRegion includeBytes item.2 }, none)

/-- The loop of `restore` over the staged address space; the result is the
byte total. -/
def restoreRegions (limits : Limits) :
    UInt64 → List SnapshotRegion → MemoryCall UInt64
  | total, [] => pure total
  | total, source :: rest => do
      rejectIf (source.size = 0 ∨ source.size > limits.maxMappedBytes ∨
          source.name.length > limits.maxStringBytes.toNat ∨
          (source.bytes ≠ [] ∧ source.bytes.length ≠ source.size.toNat))
        (failure .invalidSegment source.base "snapshot region is invalid")
      let next ← demand (checkedAdd total source.size)
        (failure .resourceLimit source.base
          "snapshot mapped-byte total exceeds limit")
      rejectIf (next > limits.maxMappedBytes)
        (failure .resourceLimit source.base
          "snapshot mapped-byte total exceeds limit")
      AddressSpace.map source.base source.size source.permissions source.name
      if source.bytes ≠ [] then
        rejectIf (crc32 source.bytes ≠ source.checksum)
          (failure .invalidHeader source.base
            "snapshot region checksum does not match")
        AddressSpace.write source.base source.bytes true
      restoreRegions limits next rest

/-- The address space `restore` builds before it replaces the target. -/
def stage (limits : Limits) (snapshot : MemorySnapshot) :
    Except Failure AddressSpace :=
  evaluate (do
    let total ← restoreRegions limits 0 snapshot.regions
    rejectIf (snapshot.mappedBytes ≠ total)
      (failure .invalidHeader 0
        "snapshot mapped-byte total does not match regions")
    get) (AddressSpace.new limits)

def restore (limits : Limits) (snapshot : MemorySnapshot) : MemoryCall Unit := do
  rejectIf (snapshot.version ≠ 1 ∨
      snapshot.mappedBytes > limits.maxMappedBytes ∨
      snapshot.regions.length > limits.maxSegments.toNat)
    (failure .resourceLimit 0 "memory snapshot metadata is invalid")
  let staged ← liftExcept (stage limits snapshot)
  set staged

/-- What the loop of `encode` appends for one region. -/
def regionRecord (region : SnapshotRegion) : Bytes :=
  u64Bytes region.base ++ (u64Bytes region.size ++ (region.permissions ::
    (u32Bytes (UInt32.ofNat region.name.length) ++ (region.name ++
      (u32Bytes region.checksum ++
        (u64Bytes (UInt64.ofNat region.bytes.length) ++ region.bytes))))))

def encodeRegions (limits : Limits) :
    Bytes → List SnapshotRegion → Except Failure Bytes
  | output, [] => .ok output
  | output, region :: rest => do
      rejectIf (region.name.length > limits.maxStringBytes.toNat ∨
          region.bytes.length > limits.maxMappedBytes.toNat)
        (failure .resourceLimit region.base
          "snapshot region exceeds encoding limits")
      encodeRegions limits (output ++ regionRecord region) rest

/-- What `encode` writes before the first region, after the signature. -/
def headerRecord (snapshot : MemorySnapshot) : Bytes :=
  u32Bytes snapshot.version ++ (u64Bytes snapshot.mappedBytes ++
    u32Bytes (UInt32.ofNat snapshot.regions.length))

/-- The result is empty, as in the source, exactly when `encode` fails. -/
def encode (limits : Limits) (snapshot : MemorySnapshot) :
    Except Failure Bytes := do
  rejectIf (snapshot.regions.length > limits.maxSegments.toNat ∨
      snapshot.mappedBytes > limits.maxMappedBytes)
    (failure .resourceLimit 0 "snapshot exceeds encoding limits")
  let output ← encodeRegions limits (ascii "BFSN" ++ headerRecord snapshot)
    snapshot.regions
  return output ++ u32Bytes (crc32 output)

abbrev DecodeCall := EStateM Failure ByteReader

def truncatedAt (message : Bytes) (reader : ByteReader) (_ : Unit) : Failure :=
  failure .truncated (UInt64.ofNat reader.position) message

/-- The fields of the container header: version, mapped bytes and count. -/
def decodeHeader (limits : Limits) : DecodeCall (UInt32 × UInt64 × UInt32) :=
  adaptError (fun _ _ => failure .invalidHeader 4
      "snapshot container header is invalid") do
    let version ← ByteReader.readU32
    let mappedBytes ← ByteReader.readU64
    let count ← ByteReader.readU32
    rejectIf (version ≠ 1) ()
    rejectIf (count > limits.maxSegments) ()
    rejectIf (mappedBytes > limits.maxMappedBytes) ()
    return (version, mappedBytes, count)

/-- The first check of the loop of `decode`. -/
def decodeRegionHeader (limits : Limits) :
    DecodeCall (UInt64 × UInt64 × UInt8 × UInt32) :=
  adaptError (truncatedAt "snapshot region header is truncated") do
    let base ← ByteReader.readU64
    let size ← ByteReader.readU64
    let permissions ← ByteReader.readU8
    let nameSize ← ByteReader.readU32
    rejectIf (nameSize.toUInt64 > limits.maxStringBytes) ()
    let reader ← get
    rejectIf (nameSize.toNat > reader.remaining) ()
    return (base, size, permissions, nameSize)

def decodeRegionData (limits : Limits) (nameSize : UInt32) :
    DecodeCall (Bytes × UInt32 × UInt64) :=
  adaptError (truncatedAt "snapshot region data is truncated") do
    let name ← ByteReader.readBytes nameSize.toNat
    let checksum ← ByteReader.readU32
    let byteSize ← ByteReader.readU64
    rejectIf (byteSize > limits.maxMappedBytes) ()
    let reader ← get
    rejectIf (byteSize.toNat > reader.remaining) ()
    return (name, checksum, byteSize)

def decodeRegion (limits : Limits) : DecodeCall SnapshotRegion := do
  let (base, size, permissions, nameSize) ← decodeRegionHeader limits
  let (name, checksum, byteSize) ← decodeRegionData limits nameSize
  let bytes ← adaptError (fun _ _ => Failure.silent)
    (ByteReader.readBytes byteSize.toNat)
  return { base, size, permissions, name, checksum, bytes }

/-- The part of `decode` that reads the container's body. -/
def decodeBody (limits : Limits) : DecodeCall MemorySnapshot := do
  let (version, mappedBytes, count) ← decodeHeader limits
  let regions ← collect (decodeRegion limits) count.toNat
  let reader ← get
  rejectIf (reader.remaining ≠ 0)
    (failure .invalidHeader (UInt64.ofNat reader.position)
      "snapshot container contains trailing bytes")
  return { version, mappedBytes, regions }

def decode (limits : Limits) (data : Bytes) : Except Failure MemorySnapshot := do
  rejectIf (data.length < 24 ∨ data.take 4 ≠ ascii "BFSN" ∨
      data.length > (limits.maxMappedBytes + limits.maxFileSize).toNat)
    (failure .badMagic 0 "snapshot container is invalid")
  rejectIf (trailerWord data ≠ crc32 (data.take (data.length - 4)))
    (failure .invalidHeader (UInt64.ofNat (data.length - 4))
      "snapshot container checksum does not match")
  evaluate (decodeBody limits) { data := slice data 4 (data.length - 8) }

end MemorySnapshotCodec
end BinForge
