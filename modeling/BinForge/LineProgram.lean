import BinForge.DebugInfo

/-!
# Line programs

`parse_line_program` reads the header of a line unit and its file table, and
then runs opcodes to the end of the input.  An opcode may push a row, change
the registers, or be passed over.
-/

namespace BinForge

open StatefulExcept
open ByteReader

namespace DebugInfoParser

structure LineHeader where
  unitLength : UInt32
  version : UInt16
  programStart : ℕ
  minimumInstruction : UInt8
  defaultStatement : UInt8
  lineBase : UInt8
  lineRange : UInt8
  opcodeBase : UInt8
  deriving DecidableEq, Repr

/-- The registers of the line machine. -/
structure LineRegisters where
  address : UInt64 := 0
  line : Int64 := 1
  file : UInt32 := 1
  statement : Bool
  deriving DecidableEq, Repr

/-- The reader and the unit that is filled. -/
structure LineState where
  reader : ByteReader
  unit : DebugUnit

abbrev LineCall := EStateM Failure LineState

/-- A call of the reader. -/
def onReader {α : Type} (action : DecodeCall α) : LineCall α := fun state =>
  match action state.reader with
  | .ok value reader => .ok value { state with reader }
  | .error why reader => .error why { state with reader }

/-- An error at the reader's position. -/
def lineFailure {α : Type} (code : ErrorCode) (message : Bytes) : LineCall α :=
  do
    let state ← get
    throw (failure code (UInt64.ofNat state.reader.position) message)

/-- A sum of addresses, which must not overflow. -/
def lineSum (address delta : UInt64) (message : Bytes) : LineCall UInt64 := do
  let state ← get
  demand (checkedAdd address delta) (failure .addressOverflow
    (UInt64.ofNat state.reader.position) message)

/-! ## The header -/

def readUnitLength : ReaderCall UInt32 := do
  let unitLength ← readU32
  let reader ← get
  rejectIf (unitLength.toNat > reader.remaining) ()
  return unitLength

def readVersion : ReaderCall UInt16 := do
  let version ← readU16
  rejectIf (version < 2 ∨ version > 5) ()
  return version

/-- Where the program starts. -/
def readHeaderLength : ReaderCall ℕ := do
  let headerLength ← readU32
  let reader ← get
  rejectIf (headerLength.toNat > reader.remaining) ()
  return reader.position + headerLength.toNat

/-- The fields whose values the opcodes depend on. -/
def readLineFields (unitLength : UInt32) (version : UInt16)
    (programStart : ℕ) : ReaderCall LineHeader := do
  let minimumInstruction ← readU8
  let defaultStatement ← readU8
  let lineBase ← readU8
  let lineRange ← readU8
  let opcodeBase ← readU8
  rejectIf (minimumInstruction = 0 ∨ lineRange = 0) ()
  return { unitLength, version, programStart, minimumInstruction,
           defaultStatement, lineBase, lineRange, opcodeBase }

def readLineHeader : DecodeCall LineHeader := do
  let unitLength ← reporting (failure .truncated 0 "line unit truncated")
    readUnitLength
  let version ← reporting
    (failure .invalidDebugInfo 4 "unsupported line version") readVersion
  let programStart ← reporting
    (failure .truncated 6 "line header truncated") readHeaderLength
  let header ← adaptError (reportAt .invalidDebugInfo "invalid line header")
    (readLineFields unitLength version programStart)
  -- The lengths of the standard opcodes are not looked at.
  if header.opcodeBase ≠ 0 then do
    adaptError (reportAt .truncated "opcode lengths truncated")
      (skip (header.opcodeBase.toUInt64 - 1))
    return header
  else return header

/-! ## The file table -/

/-- The loop over the file names with this many rounds left; every round takes
a byte. -/
def fileLoop (limits : Limits) (programStart : ℕ) : ℕ → LineCall Unit
  | 0 => pure ()
  | rounds + 1 => do
      let state ← get
      if state.reader.position < programStart then
        match state.reader.readCString (UInt64.ofNat state.reader.position)
            (UInt64.ofNat (programStart - state.reader.position)) with
        | none => pure ()
        | some file => do
            let _ ← onReader (attempt (skip (UInt64.ofNat (file.length + 1))))
            if file = [] then pure ()
            else do
              modify fun state =>
                { state with
                  unit.files := state.unit.files ++ [file] }
              let state ← get
              if state.unit.files.length > limits.maxStringBytes.toNat then
                lineFailure .resourceLimit "file table limit"
              else fileLoop limits programStart rounds
      else pure ()

/-! ## The opcodes -/

/-- The registers at the start of a sequence. -/
def LineHeader.initial (header : LineHeader) : LineRegisters :=
  { statement := header.defaultStatement != 0 }

/-- Push a row; the line is cast to 32 bits. -/
def emit (registers : LineRegisters) (endSequence : Bool) : LineCall Unit :=
  modify fun state =>
    { state with
      unit.lines := state.unit.lines ++
        [{ address := registers.address, file := registers.file
           line := registers.line.toUInt64.toUInt32
           statement := registers.statement, endSequence }] }

/-- The length of an extended opcode, which its code is part of. -/
def readExtendedLength : ReaderCall UInt64 := do
  let length ← readUleb128
  let reader ← get
  rejectIf (length = 0 ∨ length.toNat > reader.remaining) ()
  return length

def readLineAddress (addressSize : UInt8) : ReaderCall UInt64 :=
  if addressSize = 4 then do
    let value ← readU32
    return value.toUInt64
  else readU64

def extendedOpcode (header : LineHeader) (addressSize : UInt8)
    (registers : LineRegisters) : LineCall LineRegisters := do
  let length ← onReader (adaptError
    (reportAt .truncated "extended line opcode truncated") readExtendedLength)
  -- The length is at least one, so this byte is there.
  let extended ← onReader (silently readU8)
  if extended = 1 then do
    emit registers true
    let _ ← onReader (attempt (skip (length - 1)))
    return header.initial
  else if extended = 2 then
    if length - 1 ≠ addressSize.toUInt64 then
      lineFailure .invalidDebugInfo "invalid set-address width"
    else do
      let address ← onReader (silently (readLineAddress addressSize))
      return { registers with address }
  else do
    let _ ← onReader (attempt (skip (length - 1)))
    return registers

def readFileNumber : ReaderCall UInt32 := do
  let file ← readUleb128
  rejectIf (file > 0xffffffff) ()
  return file.toUInt32

/-- Signed overflow of the line is taken as two's complement. -/
def standardOpcode (header : LineHeader) (op : UInt8)
    (registers : LineRegisters) : LineCall LineRegisters :=
  if op = 1 then do
    emit registers false
    return registers
  else if op = 2 then do
    let advance ← onReader (adaptError
      (reportAt .addressOverflow "line address overflow") readUleb128)
    let address ← lineSum registers.address
      (advance * header.minimumInstruction.toUInt64) "line address overflow"
    return { registers with address }
  else if op = 3 then do
    let advance ← onReader (silently readSleb128)
    if registers.line + advance < 0 then
      lineFailure .invalidDebugInfo "negative source line"
    else return { registers with line := registers.line + advance }
  else if op = 4 then do
    let file ← onReader (silently readFileNumber)
    return { registers with file }
  else if op = 6 then
    return { registers with statement := !registers.statement }
  else return registers

/-- How far a special opcode moves the address. -/
def LineHeader.addressDelta (header : LineHeader) (op : UInt8) : UInt64 :=
  ((op - header.opcodeBase) / header.lineRange).toUInt64 *
    header.minimumInstruction.toUInt64

/-- How far a special opcode moves the line. -/
def LineHeader.lineDelta (header : LineHeader) (op : UInt8) : Int64 :=
  header.lineBase.toInt8.toInt64 +
    ((op - header.opcodeBase) % header.lineRange).toUInt64.toInt64

def specialOpcode (header : LineHeader) (op : UInt8)
    (registers : LineRegisters) : LineCall LineRegisters := do
  let address ← lineSum registers.address (header.addressDelta op)
    "special opcode overflow"
  let line := registers.line + header.lineDelta op
  rejectIf (line < 0) .silent
  let moved := { registers with address, line }
  emit moved false
  return moved

def lineRound (header : LineHeader) (addressSize : UInt8)
    (registers : LineRegisters) : LineCall LineRegisters := do
  let op ← onReader (silently readU8)
  if op = 0 then extendedOpcode header addressSize registers
  else if op < header.opcodeBase then standardOpcode header op registers
  else specialOpcode header op registers

/-- The loop with this many rounds left; every round takes a byte. -/
def lineLoop (limits : Limits) (header : LineHeader) (addressSize : UInt8) :
    ℕ → LineRegisters → LineCall Unit
  | 0, _ => pure ()
  | rounds + 1, registers => do
      let state ← get
      if state.reader.remaining ≠ 0 ∧
          state.unit.lines.length < limits.maxLineRows.toNat then do
        let registers ← lineRound header addressSize registers
        lineLoop limits header addressSize rounds registers
      else pure ()

/-! ## The call -/

/-- The check of the row limit, and the fields that are set last. -/
def finishUnit (limits : Limits) (header : LineHeader) (addressSize : UInt8) :
    LineCall Unit := do
  let state ← get
  if state.unit.lines.length ≥ limits.maxLineRows.toNat then
    lineFailure .resourceLimit "line row limit"
  else
    set { state with
      unit.version := header.version
      unit.length := header.unitLength.toUInt64
      unit.addressSize := addressSize }

def lineUnit (limits : Limits) (size : ℕ) (addressSize : UInt8) :
    LineCall Unit := do
  let header ← onReader readLineHeader
  fileLoop limits header.programStart size
  onReader (silently (seek (UInt64.ofNat header.programStart)))
  lineLoop limits header addressSize size header.initial
  finishUnit limits header addressSize

/-- A call on the unit, with a reader of its own. -/
def withReader (reader : ByteReader) (call : LineCall Unit) :
    EStateM Failure DebugUnit Unit := fun unit =>
  match call { reader, unit } with
  | .ok _ state => .ok () state.unit
  | .error why state => .error why state.unit

/-- The data is a pointer, which may be null; what was read before a failure
stays in the unit. -/
def parseLineProgram (limits : Limits) (data : Option Bytes) (order : ByteOrder)
    (addressSize : UInt8) : EStateM Failure DebugUnit Unit :=
  let invalid := failure .invalidDebugInfo 0 "invalid line program input"
  match data with
  | none => throw invalid
  | some data =>
      if data.length < 10 ∨ data.length > limits.maxDebugBytes.toNat ∨
          addressSize ≠ 4 ∧ addressSize ≠ 8 then
        throw invalid
      else
        withReader { data, order } (lineUnit limits data.length addressSize)

end DebugInfoParser
end BinForge
