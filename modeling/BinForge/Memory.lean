import BinForge.Image
import BinForge.OrderedMap
import BinForge.ListSplice

/-!
# The simulated address space

`AddressSpace` owns its regions in an ordered map keyed by base address.
Every call runs in `EStateM Failure AddressSpace`, so the object left behind
by a failing call is part of its result.
-/

namespace BinForge

open StatefulExcept
open MachineInteger
open ListSplice

structure MemoryRegion where
  base : UInt64 := 0
  size : UInt64 := 0
  permissions : UInt8 := permissionNone
  name : Bytes := []
  bytes : Bytes := []
  deriving DecidableEq, Repr

def MemoryRegion.contains (region : MemoryRegion) (address : UInt64)
    (length : ℕ) : Bool :=
  if address < region.base then false
  else rangeInside (address - region.base).toNat length region.size.toNat

@[ext]
structure AddressSpace where
  limits : Limits := {}
  regions : OrderedMap UInt64 MemoryRegion := OrderedMap.empty
  mappedBytes : UInt64 := 0
  deriving DecidableEq

abbrev MemoryCall := EStateM Failure AddressSpace

namespace AddressSpace

def new (limits : Limits) : AddressSpace := { limits := limits }

def entryAt (memory : AddressSpace) (address : UInt64) :
    Option (UInt64 × MemoryRegion) :=
  match memory.regions.beforeUpperBound address with
  | none => none
  | some candidate =>
      if candidate.2.contains address 1 then some candidate else none

def regionAt (memory : AddressSpace) (address : UInt64) :
    Option MemoryRegion :=
  (memory.entryAt address).map Prod.snd

/-- The check against the region at the lower bound. -/
def overlapsNext (finish : UInt64) : Option (UInt64 × MemoryRegion) → Bool
  | none => false
  | some next => finish > next.2.base

/-- The check against the region before the lower bound. -/
def overlapsPrevious (base : UInt64) : Option (UInt64 × MemoryRegion) → Bool
  | none => false
  | some previous =>
      (checkedAdd previous.2.base previous.2.size).elim true
        fun previousEnd => previousEnd > base

def map (base size : UInt64) (permissions : UInt8) (name : Bytes) :
    MemoryCall Unit := do
  rejectIf (size = 0)
    (failure .invalidSegment base "cannot map an empty region")
  match checkedAdd base size with
  | none =>
      throw (failure .addressOverflow base "mapping address overflows")
  | some finish => do
  let memory ← get
  match checkedAdd memory.mappedBytes size with
  | none =>
      throw (failure .resourceLimit base "mapped byte limit exceeded")
  | some total => do
  rejectIf (total > memory.limits.maxMappedBytes)
    (failure .resourceLimit base "mapped byte limit exceeded")
  rejectIf (overlapsNext finish (memory.regions.lowerBound base))
    (failure .mappingOverlap base "mapping overlaps next region")
  rejectIf (overlapsPrevious base (memory.regions.beforeLowerBound base))
    (failure .mappingOverlap base "mapping overlaps previous region")
  set { memory with
    regions := memory.regions.emplace base
      { base, size, permissions, name, bytes := List.replicate size.toNat 0 }
    mappedBytes := total }

def unmap (base : UInt64) : MemoryCall Unit := do
  let memory ← get
  match memory.regions.find? base with
  | none =>
      throw (failure .mappingMissing base "mapping does not exist")
  | some found =>
      set { memory with
        regions := memory.regions.erase base
        mappedBytes := memory.mappedBytes - found.size }

def protect (base size : UInt64) (permissions : UInt8) : MemoryCall Unit := do
  let memory ← get
  match memory.entryAt base with
  | none =>
      throw (failure .mappingMissing base
        "protection range must match a complete mapping")
  | some entry => do
  rejectIf (entry.2.base ≠ base ∨ entry.2.size ≠ size)
    (failure .mappingMissing base
      "protection range must match a complete mapping")
  set { memory with
    regions := memory.regions.adjust entry.1 fun region =>
      { region with permissions } }

def read (address : UInt64) (size : ℕ) : MemoryCall Bytes :=
  if size = 0 then pure []
  else do
  let memory ← get
  match memory.regionAt address with
  | none =>
      throw (failure .mappingMissing address
        "read crosses an unmapped boundary")
  | some region => do
  rejectIf (!region.contains address size)
    (failure .mappingMissing address "read crosses an unmapped boundary")
  rejectIf (¬hasPermission region.permissions permissionRead)
    (failure .permissionDenied address "mapping is not readable")
  return slice region.bytes (address - region.base).toNat size

def write (address : UInt64) (input : Bytes) (ignorePermissions : Bool) :
    MemoryCall Unit :=
  if input.length = 0 then pure ()
  else do
  let memory ← get
  match memory.entryAt address with
  | none =>
      throw (failure .mappingMissing address
        "write crosses an unmapped boundary")
  | some entry => do
  rejectIf (!entry.2.contains address input.length)
    (failure .mappingMissing address "write crosses an unmapped boundary")
  rejectIf (¬ignorePermissions ∧
      ¬hasPermission entry.2.permissions permissionWrite)
    (failure .permissionDenied address "mapping is not writable")
  set { memory with
    regions := memory.regions.adjust entry.1 fun region =>
      { region with
        bytes := splice region.bytes (address - region.base).toNat input } }

def integerWidth (width : UInt8) : Bool :=
  width == 1 || width == 2 || width == 4 || width == 8

/-- The number the bytes at increasing addresses stand for. -/
def integerValue (order : ByteOrder) (bytes : Bytes) : UInt64 :=
  match order with
  | .little => bytes.foldr (fun byte value => shiftIn64 value byte) 0
  | .big => bytes.foldl shiftIn64 0

/-- The bytes at increasing addresses that store the low `width` bytes. -/
def integerBytes (order : ByteOrder) (width : UInt8) (value : UInt64) : Bytes :=
  let digits := (List.range width.toNat).map fun i =>
    (value >>> UInt64.ofNat (i * 8)).toUInt8
  match order with
  | .little => digits
  | .big => digits.reverse

def readInteger (address : UInt64) (width : UInt8) (order : ByteOrder) :
    MemoryCall UInt64 := do
  rejectIf (!integerWidth width)
    (failure .invalidRelocation address "integer width is unsupported")
  let bytes ← read address width.toNat
  return integerValue order bytes

def writeInteger (address : UInt64) (width : UInt8) (order : ByteOrder)
    (value : UInt64) (ignorePermissions : Bool) : MemoryCall Unit := do
  rejectIf (!integerWidth width)
    (failure .invalidRelocation address "integer width is unsupported")
  write address (integerBytes order width value) ignorePermissions

def clear : MemoryCall Unit :=
  modify fun memory =>
    { memory with regions := OrderedMap.empty, mappedBytes := 0 }

/-! ## Runs -/

/-- A mutating call with its arguments. -/
inductive Command
  | map (base size : UInt64) (permissions : UInt8) (name : Bytes)
  | unmap (base : UInt64)
  | protect (base size : UInt64) (permissions : UInt8)
  | write (address : UInt64) (input : Bytes) (ignorePermissions : Bool)
  | writeInteger (address : UInt64) (width : UInt8) (order : ByteOrder)
      (value : UInt64) (ignorePermissions : Bool)
  | clear

def Command.call : Command → MemoryCall Unit
  | .map base size permissions name => AddressSpace.map base size permissions name
  | .unmap base => AddressSpace.unmap base
  | .protect base size permissions => AddressSpace.protect base size permissions
  | .write address input ignorePermissions =>
      AddressSpace.write address input ignorePermissions
  | .writeInteger address width order value ignorePermissions =>
      AddressSpace.writeInteger address width order value ignorePermissions
  | .clear => AddressSpace.clear

/-- The object after a call, succeeding or failing. -/
def perform (memory : AddressSpace) (command : Command) : AddressSpace :=
  finalState (command.call memory)

def run (memory : AddressSpace) (commands : List Command) : AddressSpace :=
  commands.foldl perform memory

/-- The states some sequence of calls leads to from a new object. -/
def Reachable (memory : AddressSpace) : Prop :=
  ∃ limits commands, memory = (new limits).run commands

end AddressSpace
end BinForge
