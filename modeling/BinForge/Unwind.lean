import BinForge.Leb128
import BinForge.OrderedMap
import BinForge.RoundLoop

/-!
# Unwind information

`parse_eh_frame` reads call-frame records, each of a declared length: common
records are noted and passed over, frame records give an address range and
instructions.  `parse_pe_functions` reads a table of ranges.  Both add up how
many bytes the ranges cover.
-/

namespace BinForge

open StatefulExcept
open ByteReader
open RoundLoop

inductive UnwindOperation
  | none
  | pushRegister
  | allocateStack
  | saveRegister
  | setFramePointer
  | restoreState
  | finish
  deriving DecidableEq, Repr

structure UnwindInstruction where
  operation : UnwindOperation := .none
  registerNumber : UInt32 := 0
  offset : UInt64 := 0
  value : Int64 := 0
  deriving DecidableEq, Repr

structure UnwindRecord where
  startAddress : UInt64 := 0
  endAddress : UInt64 := 0
  personality : UInt64 := 0
  landingPad : UInt64 := 0
  signalFrame : Bool := false
  instructions : List UnwindInstruction := []
  deriving DecidableEq, Repr

structure UnwindReport where
  records : List UnwindRecord := []
  coveredBytes : UInt64 := 0
  warnings : List Bytes := []
  deriving DecidableEq, Repr

namespace UnwindParser

def readAddress (wordSize : WordSize) : ReaderCall UInt64 :=
  readWord (wordSize = .bits64)

/-! ## Instructions -/

def appendUnwindInstruction (limits : Limits) (offset : UInt64)
    (record : UnwindRecord) (instruction : UnwindInstruction) :
    Except Failure UnwindRecord := do
  rejectIf (record.instructions.length ≥
      limits.maxDisassemblyInstructions.toNat)
    (failure .resourceLimit offset "unwind instruction limit exceeded")
  return { record with instructions := record.instructions ++ [instruction] }

/-- A register number of 32 bits and a displacement. -/
def readRegisterOffset : ReaderCall (UInt32 × UInt64) := do
  let register ← readUleb128
  let displacement ← readUleb128
  rejectIf (register > 0xffffffff) ()
  return (register.toUInt32, displacement)

/-- The opcodes whose two highest bits are clear. -/
def readExtendedInstruction (offset : UInt64) (opcode : UInt8) :
    DecodeCall UnwindInstruction :=
  if opcode = 0 then return {}
  else if opcode = 1 then do
    let location ← silently readU64
    return { operation := .setFramePointer, offset := location }
  else if opcode = 2 then do
    let delta ← silently readU8
    return { value := delta.toUInt64.toInt64 }
  else if opcode = 3 then do
    let delta ← silently readU16
    return { value := delta.toUInt64.toInt64 }
  else if opcode = 4 then do
    let delta ← silently readU32
    return { value := delta.toUInt64.toInt64 }
  else if opcode = 5 then do
    let (register, displacement) ← silently readRegisterOffset
    return { operation := .saveRegister, registerNumber := register,
             offset := displacement }
  else if opcode = 10 then return { operation := .restoreState }
  else if opcode = 12 then do
    let (register, displacement) ← silently readRegisterOffset
    return { operation := .setFramePointer, registerNumber := register,
             offset := displacement }
  else if opcode = 14 then do
    let displacement ← silently readUleb128
    return { operation := .allocateStack, offset := displacement }
  else throw (failure .invalidDebugInfo offset "unsupported call-frame opcode")

def readInstruction (offset : UInt64) : DecodeCall UnwindInstruction := do
  let opcode ← silently readU8
  let primary := opcode &&& 0xc0
  if primary = 0x40 then
    return { value := (opcode &&& 0x3f).toUInt64.toInt64 }
  else if primary = 0x80 then do
    let displacement ← silently readUleb128
    return { operation := .saveRegister,
             registerNumber := (opcode &&& 0x3f).toUInt32
             offset := displacement }
  else if primary = 0xc0 then
    return { operation := .restoreState,
             registerNumber := (opcode &&& 0x3f).toUInt32 }
  else readExtendedInstruction offset opcode

/-- A round of the loop of `parse_cfi_instructions`. -/
def instructionRound (limits : Limits) (recordEnd : ℕ) (record : UnwindRecord) :
    DecodeCall (ForInStep UnwindRecord) := do
  let reader ← get
  if reader.position < recordEnd then do
    let offset := UInt64.ofNat reader.position
    let instruction ← readInstruction offset
    let record ← liftExcept
      (appendUnwindInstruction limits offset record instruction)
    return .yield record
  else return .done record

/-- Every round takes a byte.  The instructions must end with the record. -/
def parseCfiInstructions (limits : Limits) (recordEnd : ℕ)
    (record : UnwindRecord) : DecodeCall UnwindRecord := do
  let reader ← get
  let record ← loop (instructionRound limits recordEnd) (reader.remaining + 1)
    record
  let reader ← get
  rejectIf (reader.position ≠ recordEnd) .silent
  return record

/-! ## Call-frame records -/

/-- What the record loop carries along. -/
structure FrameWalk where
  report : UnwindReport := {}
  cieOffsets : OrderedMap UInt64 UInt64 := OrderedMap.empty
  deriving DecidableEq

/-- The length of a record; there is none at the terminator. -/
def readLength (recordOffset : UInt64) : DecodeCall (Option UInt64) := do
  let smallLength ← reporting (failure .truncated recordOffset
    "call-frame record length is truncated") readU32
  if smallLength = 0 then return none
  else if smallLength = 0xffffffff then do
    let length ← reporting (failure .truncated recordOffset
      "extended call-frame length is truncated") readU64
    return some length
  else return some smallLength.toUInt64

/-- A frame record behind its identifier. -/
def readFrame (limits : Limits) (sectionAddress : UInt64) (wordSize : WordSize)
    (recordOffset : UInt64) (recordEnd : ℕ) : DecodeCall UnwindRecord := do
  let first ← adaptError
    (reportAt .truncated "frame start address is truncated")
    (readAddress wordSize)
  let last ← adaptError
    (reportAt .addressOverflow "frame address range is invalid") do
      let range ← readAddress wordSize
      demand (checkedAdd first range) ()
  let overflows := failure .addressOverflow recordOffset
    "relocated frame range overflows"
  let startAddress ← demand (checkedAdd first sectionAddress) overflows
  let endAddress ← demand (checkedAdd last sectionAddress) overflows
  parseCfiInstructions limits recordEnd { startAddress, endAddress }

def addRecord (limits : Limits) (recordOffset : UInt64) (report : UnwindReport)
    (record : UnwindRecord) : Except Failure UnwindReport := do
  let covered := record.endAddress - record.startAddress
  let total ← demand (checkedAdd report.coveredBytes covered)
    (failure .addressOverflow record.startAddress
      "unwind coverage total overflows")
  rejectIf (report.records.length + 1 > limits.maxDebugUnits.toNat)
    (failure .resourceLimit recordOffset "unwind record limit exceeded")
  return { report with
    coveredBytes := total, records := report.records ++ [record] }

/-- The warning about a frame whose common record was not seen. -/
def FrameWalk.note (walk : FrameWalk) (cieAddress : UInt64) : UnwindReport :=
  if walk.cieOffsets.contains cieAddress then walk.report
  else { walk.report with
    warnings := walk.report.warnings ++
      [ascii "frame record references unknown CIE"] }

/-- The record whose contents begin here. -/
def readRecord (limits : Limits) (sectionAddress : UInt64)
    (wordSize : WordSize) (recordOffset length : UInt64) (walk : FrameWalk) :
    DecodeCall FrameWalk := do
  let content ← get
  rejectIf (length.toNat > content.remaining) (failure .truncated recordOffset
    "call-frame record exceeds section")
  let recordEnd := content.position + length.toNat
  let identifier ← silently readU32
  if identifier = 0 then do
    silently (seek (UInt64.ofNat recordEnd))
    return { walk with
      cieOffsets := walk.cieOffsets.assign recordOffset
        (UInt64.ofNat recordEnd) }
  else do
    let noted := walk.note
      (UInt64.ofNat content.position - identifier.toUInt64)
    let record ← readFrame limits sectionAddress wordSize recordOffset recordEnd
    let report ← liftExcept (addRecord limits recordOffset noted record)
    return { walk with report }

/-- A round of the record loop. -/
def recordRound (limits : Limits) (sectionAddress : UInt64)
    (wordSize : WordSize) (walk : FrameWalk) :
    DecodeCall (ForInStep FrameWalk) := do
  let reader ← get
  if reader.remaining = 0 then return .done walk
  else do
    let recordOffset := UInt64.ofNat reader.position
    match ← readLength recordOffset with
    | none => return .done walk
    | some length => do
        let walk ← readRecord limits sectionAddress wordSize recordOffset length
          walk
        return .yield walk

/-- What the call returns when its loop has ended. -/
def ehFrameReport (outcome : EStateM.Result Failure ByteReader FrameWalk) :
    Except Failure UnwindReport :=
  match outcome with
  | .ok walk _ => .ok walk.report
  | .error why _ => .error why

/-- Every round takes a byte.  The error is cleared on entry, so that a silent
failure leaves it empty. -/
def parseEhFrame (limits : Limits) (data : Bytes) (sectionAddress : UInt64)
    (wordSize : WordSize) (order : ByteOrder) : Except Failure UnwindReport :=
  if data.length > limits.maxDebugBytes.toNat then
    .error (failure .resourceLimit 0 "call-frame section exceeds limit")
  else
    ehFrameReport (loop (recordRound limits sectionAddress wordSize)
      (data.length + 1) {} { data, order })

/-! ## The PE function table -/

def readFunctionEntry : ReaderCall (UInt32 × UInt32 × UInt32) := do
  let first ← readU32
  let last ← readU32
  let unwind ← readU32
  return (first, last, unwind)

def functionRecord (imageBase : UInt64) (first last unwind : UInt32) :
    Option UnwindRecord := do
  let startAddress ← checkedAdd imageBase first.toUInt64
  let endAddress ← checkedAdd imageBase last.toUInt64
  let personality ← checkedAdd imageBase unwind.toUInt64
  return { startAddress, endAddress, personality
           instructions := [{ operation := .finish
                              offset := unwind.toUInt64 }] }

def readFunction (imageBase : UInt64) (report : UnwindReport) (index : ℕ) :
    DecodeCall UnwindReport := do
  let place := UInt64.ofNat (index * 12)
  let (first, last, unwind) ← adaptError
    (reportAt .truncated "PE runtime-function entry is truncated")
    readFunctionEntry
  rejectIf (last < first) (failure .invalidDebugInfo place
    "PE runtime-function range is reversed")
  let record ← demand (functionRecord imageBase first last unwind)
    (failure .addressOverflow place "PE runtime-function address overflows")
  return { report with
    coveredBytes := report.coveredBytes + (last - first).toUInt64
    records := report.records ++ [record] }

def parsePeFunctions (limits : Limits) (data : Bytes) (imageBase : UInt64) :
    Except Failure UnwindReport := do
  rejectIf (data.length % 12 ≠ 0 ∨
      data.length / 12 > limits.maxDebugUnits.toNat)
    (failure .invalidDebugInfo 0 "PE runtime-function table size is invalid")
  evaluate ((List.range (data.length / 12)).foldlM (readFunction imageBase) {})
    { data }

end UnwindParser
end BinForge
