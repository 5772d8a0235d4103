import BinForge.Reader

/-!
# Notes

`parse_elf` reads records of an owner, a type and a descriptor, whose two
fields of variable length are padded to four bytes each.  The descriptor is
kept as a number, as text or as bytes.
-/

namespace BinForge

open StatefulExcept
open ByteReader
open MachineInteger

inductive NoteValueKind
  | bytes
  | text
  | integer
  deriving DecidableEq, Repr

inductive NoteValue
  | bytes (value : Bytes)
  | text (value : Bytes)
  | integer (value : UInt64)
  deriving DecidableEq, Repr

structure BinaryNote where
  owner : Bytes := []
  type : UInt32 := 0
  valueKind : NoteValueKind := .bytes
  value : NoteValue := .bytes []
  fileOffset : UInt64 := 0
  deriving DecidableEq, Repr

namespace NoteParser

/-! ## Text -/

def isPrint (value : UInt8) : Bool := 0x20 ≤ value && value ≤ 0x7e

def isSpace (value : UInt8) : Bool :=
  value = 0x20 || 0x09 ≤ value && value ≤ 0x0d

def noteText (bytes : Bytes) : Bool :=
  !bytes.isEmpty &&
    bytes.all fun value => value = 0 || isPrint value || isSpace value

/-- The loop that pops zeros off the end. -/
def dropZeros (bytes : Bytes) : Bytes := bytes.rdropWhile (· = 0)

/-! ## One record -/

def alignedAdvance (consumed alignment : UInt64) : ReaderCall Unit := do
  let aligned ← demand (checkedAlignUp consumed alignment) ()
  skip (aligned - consumed)

def readPadded (size : UInt32) : ReaderCall Bytes := do
  let bytes ← readBytes size.toNat
  alignedAdvance size.toUInt64 4
  return bytes

/-- Name size, descriptor size and type. -/
def readNoteHeader : ReaderCall (UInt32 × UInt32 × UInt32) := do
  let nameSize ← readU32
  let descriptorSize ← readU32
  let type ← readU32
  return (nameSize, descriptorSize, type)

/-- One byte of a number in the order of the file. -/
def integerOf (order : ByteOrder) (descriptor : Bytes) : UInt64 :=
  match order with
  | .little => descriptor.zipIdx.foldl (fun integer entry =>
      integer ||| (entry.1.toUInt64 <<< UInt64.ofNat (entry.2 * 8))) 0
  | .big => descriptor.foldl shiftIn64 0

def noteOf (order : ByteOrder) (offset : UInt64) (owner : Bytes)
    (type : UInt32) (descriptor : Bytes) : BinaryNote :=
  let note : BinaryNote := { owner, type, fileOffset := offset }
  if descriptor.length ≤ 8 ∧ (owner = ascii "GNU" ∨ owner = ascii "CORE") then
    { note with
      valueKind := .integer, value := .integer (integerOf order descriptor) }
  else if noteText descriptor then
    { note with valueKind := .text, value := .text (dropZeros descriptor) }
  else { note with valueKind := .bytes, value := .bytes descriptor }

/-- The record at this offset, when there are this many notes already. -/
def readNoteAt (limits : Limits) (order : ByteOrder) (count : ℕ)
    (offset : UInt64) : DecodeCall BinaryNote := do
  let (nameSize, descriptorSize, type) ← reporting
    (failure .truncated offset "ELF note header is truncated") readNoteHeader
  let reader ← get
  rejectIf (nameSize.toUInt64 > limits.maxStringBytes ∨
      descriptorSize.toUInt64 > limits.maxDebugBytes ∨
      nameSize.toNat > reader.remaining)
    (failure .resourceLimit offset "ELF note sizes are invalid")
  let nameBytes ← reporting
    (failure .truncated offset "ELF note owner is truncated")
    (readPadded nameSize)
  let owner := dropZeros nameBytes
  rejectIf (noteText owner = false)
    (failure .invalidString offset "ELF note owner is not printable")
  let reader ← get
  rejectIf (descriptorSize.toNat > reader.remaining)
    (failure .truncated (UInt64.ofNat reader.position)
      "ELF note descriptor is truncated")
  let descriptor ← adaptError
    (reportAt .truncated "ELF note descriptor padding is truncated")
    (readPadded descriptorSize)
  rejectIf (count ≥ limits.maxDebugUnits.toNat)
    (failure .resourceLimit offset "ELF note record limit exceeded")
  return noteOf order offset owner type descriptor

/-! ## The loop -/

/-- The loop with this many rounds left; every round takes a header.  The notes
before a record that fails stay in the vector. -/
def noteLoop (limits : Limits) (order : ByteOrder) :
    ℕ → ByteReader → EStateM Failure (List BinaryNote) Unit
  | 0, _ => pure ()
  | rounds + 1, reader => do
      let notes ← get
      if reader.remaining = 0 then pure ()
      else
        match readNoteAt limits order notes.length
            (UInt64.ofNat reader.position) reader with
        | .error why _ => throw why
        | .ok note next => do
            set (notes ++ [note])
            noteLoop limits order rounds next

def parseElf (limits : Limits) (data : Bytes) (order : ByteOrder) :
    EStateM Failure (List BinaryNote) Unit := do
  rejectIf (data.length > limits.maxDebugBytes.toNat)
    (failure .resourceLimit 0 "ELF note data exceeds limit")
  noteLoop limits order (data.length + 1) { data, order }

end NoteParser
end BinForge
