import BinForge.BitFields
import BinForge.ReportWriter

/-!
# Decoding single instructions

A disassembler decodes the instruction at the front of the bytes it is given.
The x86 decoder has instructions of one, two and five bytes, the ARM64 decoder
of four, and the RISC-V decoder of four and, when the compressed extension is
on, of two.
-/

namespace BinForge

open StatefulExcept
open BinaryLoader
open BinaryReportWriter

structure Instruction where
  address : UInt64 := 0
  size : UInt8 := 0
  bytes : Vector UInt8 16 := Vector.replicate 16 0
  mnemonic : Bytes := []
  operands : Bytes := []
  branch : Bool := false
  call : Bool := false
  terminal : Bool := false
  target : Option UInt64 := none
  deriving DecidableEq, Repr

/-- `decode` of the interface: the bytes ahead, and the address they have. -/
abbrev Disassembler := Bytes → UInt64 → Except Failure Instruction

/-! ## What the decoders share -/

namespace Disassembler

/-- These bytes at the front of the array of an instruction. -/
def copied (bytes : Bytes) : Vector UInt8 16 :=
  Vector.ofFn fun i => bytes.getD i 0

def little32 (data : Bytes) : UInt32 :=
  (data.getD 0 0).toUInt32 ||| ((data.getD 1 0).toUInt32 <<< 8) |||
    ((data.getD 2 0).toUInt32 <<< 16) ||| ((data.getD 3 0).toUInt32 <<< 24)

/-- The value as the source casts it to a signed one. -/
def signExtend (value : UInt64) (bits : UInt64) : Int64 :=
  let sign : UInt64 := 1 <<< (bits - 1)
  ((value ^^^ sign) - sign).toInt64

/-- The source's sign extension is that of the field. -/
theorem signExtend_eq {value : UInt64} {bits : UInt64} {k : ℕ}
    (field : BitVec (k + 1)) (hfit : k < 64)
    (hsign : ((1 : UInt64) <<< (bits - 1)).toBitVec = BitVec.twoPow 64 k)
    (hvalue : value.toBitVec = field.setWidth 64) :
    (signExtend value bits).toUInt64.toBitVec = field.signExtend 64 := by
  rw [← BitFields.xor_sub_eq_signExtend field hfit, ← hsign, ← hvalue]
  rfl

/-- A displacement added to an address, modulo `2 ^ 64`. -/
def displaced (address : UInt64) (displacement : Int64) : UInt64 :=
  address + displacement.toUInt64

/-- `0x` and the digits of a number, padded with zeros. -/
def paddedHexadecimal (width n : ℕ) : Bytes :=
  ascii "0x" ++ (hexadecimal n).leftpad width 0x30

end Disassembler

open Disassembler

/-! ## x86 -/

namespace X86Disassembler

def truncated (address : UInt64) : Failure :=
  failure .truncated address "x86 instruction operand truncated"

/-- The two-byte branches. -/
def rel8 (data : Bytes) (address : UInt64) (name : Bytes) :
    Except Failure Instruction := do
  rejectIf (data.length < 2) (truncated address)
  return { address, size := 2, bytes := copied (data.take 2), mnemonic := name
           branch := true
           target := some (displaced (address + 2)
             (data.getD 1 0).toInt8.toInt64) }

/-- The five-byte call and jump. -/
def rel32 (data : Bytes) (address : UInt64) (call : Bool) :
    Except Failure Instruction := do
  rejectIf (data.length < 5) (truncated address)
  let relative := (little32 (data.drop 1)).toInt32
  return { address, size := 5, bytes := copied (data.take 5)
           mnemonic := if call then "call" else "jmp"
           branch := true, call, terminal := !call
           target := some (displaced (address + 5) relative.toInt64) }

def decode : Disassembler := fun data address =>
  match data with
  | [] => .error (failure .truncated address "instruction byte missing")
  | opcode :: _ =>
      let plain : Instruction := { address, size := 1, bytes := copied [opcode] }
      if opcode = 0x90 then .ok { plain with mnemonic := "nop" }
      else if opcode = 0xc3 then
        .ok { plain with mnemonic := "ret", terminal := true }
      else if opcode = 0xcc then
        .ok { plain with mnemonic := "int3", terminal := true }
      else if opcode = 0xeb then do
        let instruction ← rel8 data address "jmp"
        return { instruction with terminal := true }
      else if opcode = 0x74 then rel8 data address "je"
      else if opcode = 0x75 then rel8 data address "jne"
      else if opcode = 0xe8 ∨ opcode = 0xe9 then
        rel32 data address (opcode == 0xe8)
      else if opcode = 0x55 then
        .ok { plain with mnemonic := "push", operands := "rbp" }
      else if opcode = 0x5d then
        .ok { plain with mnemonic := "pop", operands := "rbp" }
      else
        .ok { plain with mnemonic := "db"
                         operands := paddedHexadecimal 2 opcode.toNat }

end X86Disassembler

/-! ## ARM64 -/

namespace Arm64Disassembler

def armRegister (value : UInt32) : Bytes :=
  if value = 31 then "sp" else ascii "x" ++ decimal value.toNat

/-- A branch to a displacement in words. -/
def branchTo (instruction : Instruction) (displacement : Int64) : Instruction :=
  { instruction with
    branch := true
    target := some (displaced instruction.address (displacement <<< 2)) }

/-- The target as the operand of a branch. -/
def targetText (instruction : Instruction) : Bytes :=
  ascii "0x" ++ decimal (instruction.target.getD 0).toNat

/-- The chain of tests on a word; `plain` has its address and its bytes. -/
def decodeWord (word : UInt32) (plain : Instruction) : Instruction :=
  let destination := word &&& 31
  let source := (word >>> 5) &&& 31
  if word = 0xd503201f then { plain with mnemonic := "nop" }
  else if word = 0xd65f03c0 then
    { plain with mnemonic := "ret", terminal := true }
  else if word &&& 0xfffffc1f = 0xd61f0000 then
    { plain with mnemonic := "br", operands := armRegister source
                 branch := true, terminal := true }
  else if word &&& 0xfffffc1f = 0xd63f0000 then
    { plain with mnemonic := "blr", operands := armRegister source
                 branch := true, call := true }
  else if word &&& 0x7c000000 = 0x14000000 then
    let call := word &&& 0x80000000 != 0
    let instruction :=
      branchTo plain (signExtend (word &&& 0x03ffffff).toUInt64 26)
    { instruction with mnemonic := if call then "bl" else "b"
                       call, terminal := !call
                       operands := targetText instruction }
  else if word &&& 0xff000010 = 0x54000000 then
    let instruction :=
      branchTo plain (signExtend ((word >>> 5) &&& 0x7ffff).toUInt64 19)
    { instruction with mnemonic := "b.cond"
                       operands := targetText instruction }
  else if word &&& 0x7f000000 = 0x34000000 then
    let instruction :=
      branchTo plain (signExtend ((word >>> 5) &&& 0x7ffff).toUInt64 19)
    { instruction with
      mnemonic := if word &&& 0x01000000 ≠ 0 then "cbnz" else "cbz"
      operands := armRegister destination ++ ascii ", " ++
        targetText instruction }
  else if word &&& 0x7f800000 = 0x52800000 then
    { plain with
      mnemonic := "mov"
      operands := armRegister destination ++ ascii ", #" ++
        decimal ((word >>> 5) &&& 0xffff).toNat }
  else if word &&& 0x7f000000 = 0x11000000 then
    { plain with
      mnemonic := if word &&& 0x40000000 ≠ 0 then "sub" else "add"
      operands := armRegister destination ++ ascii ", " ++
        armRegister source ++ ascii ", #" ++
        decimal ((word >>> 10) &&& 0xfff).toNat }
  else if word &&& 0xffc00000 = 0xf9400000 then
    { plain with
      mnemonic := "ldr"
      operands := armRegister destination ++ ascii ", [" ++
        armRegister source ++ ascii ", #" ++
        decimal (((word >>> 10) &&& 0xfff) * 8).toNat ++ ascii "]" }
  else if word &&& 0xffc00000 = 0xf9000000 then
    { plain with
      mnemonic := "str"
      operands := armRegister destination ++ ascii ", [" ++
        armRegister source ++ ascii ", #" ++
        decimal (((word >>> 10) &&& 0xfff) * 8).toNat ++ ascii "]" }
  else
    { plain with mnemonic := ".word"
                 operands := paddedHexadecimal 8 word.toNat }

def decode : Disassembler := fun data address => do
  rejectIf (data.length < 4)
    (failure .truncated address "ARM64 instruction is truncated")
  return decodeWord (little32 data)
    { address, size := 4, bytes := copied (data.take 4) }

end Arm64Disassembler

/-! ## RISC-V -/

namespace RiscVDisassembler

def riscvRegister (value : UInt32) : Bytes :=
  let names := ["zero", "ra", "sp", "gp", "tp", "t0", "t1", "t2", "s0", "s1",
    "a0", "a1", "a2", "a3", "a4", "a5", "a6", "a7", "s2", "s3", "s4", "s5",
    "s6", "s7", "s8", "s9", "s10", "s11", "t3", "t4", "t5", "t6"]
  names.getD (value &&& 31).toNat ""

def branchTo (instruction : Instruction) (displacement : Int64) : Instruction :=
  { instruction with
    branch := true
    target := some (displaced instruction.address displacement) }

/-- The compressed instructions. -/
def decodeHalf (half : UInt16) (plain : Instruction) : Instruction :=
  let quadrant := half &&& 3
  let function := half >>> 13
  if half = 1 then { plain with mnemonic := "c.nop" }
  else if quadrant = 1 ∧ function = 5 then
    { branchTo plain
        (signExtend ((half >>> 2) &&& 0x7ff).toUInt64 11 <<< 1) with
      mnemonic := "c.j", terminal := true }
  else if quadrant = 2 ∧ function = 4 ∧ (half >>> 12) &&& 1 ≠ 0 then
    let source := ((half >>> 2) &&& 31).toUInt32
    { plain with
      mnemonic := if source ≠ 0 then "c.jalr" else "c.ebreak"
      call := source != 0, branch := source != 0, terminal := source == 0
      operands := if source ≠ 0 then riscvRegister source else [] }
  else
    { plain with mnemonic := ".half"
                 operands := paddedHexadecimal 4 half.toNat }

/-- The instructions of four bytes. -/
def decodeWord (word : UInt32) (plain : Instruction) : Instruction :=
  let opcode := word &&& 0x7f
  let destination := (word >>> 7) &&& 31
  let function3 := (word >>> 12) &&& 7
  let source1 := (word >>> 15) &&& 31
  let source2 := (word >>> 20) &&& 31
  let function7 := word >>> 25
  if word = 0x00008067 then
    { plain with mnemonic := "ret", terminal := true }
  else if opcode = 0x6f then
    let encoded := ((word >>> 31) <<< 20) |||
      (((word >>> 12) &&& 0xff) <<< 12) ||| (((word >>> 20) &&& 1) <<< 11) |||
      (((word >>> 21) &&& 0x3ff) <<< 1)
    { branchTo plain (signExtend encoded.toUInt64 21) with
      mnemonic := "jal", operands := riscvRegister destination
      call := destination == 1, terminal := destination != 1 }
  else if opcode = 0x67 then
    let immediate := signExtend (word >>> 20).toUInt64 12
    { plain with
      mnemonic := "jalr"
      operands := riscvRegister destination ++ ascii ", " ++
        signedDecimal immediate.toInt ++ ascii "(" ++
        riscvRegister source1 ++ ascii ")"
      branch := true, call := destination == 1 }
  else if opcode = 0x63 then
    let encoded := ((word >>> 31) <<< 12) ||| (((word >>> 7) &&& 1) <<< 11) |||
      (((word >>> 25) &&& 0x3f) <<< 5) ||| (((word >>> 8) &&& 0xf) <<< 1)
    let names := ["beq", "bne", "?", "?", "blt", "bge", "bltu", "bgeu"]
    { branchTo plain (signExtend encoded.toUInt64 13) with
      mnemonic := names.getD function3.toNat ""
      operands := riscvRegister source1 ++ ascii ", " ++
        riscvRegister source2 }
  else if opcode = 0x13 then
    let immediate := signExtend (word >>> 20).toUInt64 12
    { plain with
      mnemonic := if function3 = 0 then "addi" else "op-imm"
      operands := riscvRegister destination ++ ascii ", " ++
        riscvRegister source1 ++ ascii ", " ++ signedDecimal immediate.toInt }
  else if opcode = 0x33 then
    { plain with
      mnemonic :=
        if function3 = 0 then (if function7 = 0x20 then "sub" else "add")
        else "op"
      operands := riscvRegister destination ++ ascii ", " ++
        riscvRegister source1 ++ ascii ", " ++ riscvRegister source2 }
  else if opcode = 0x03 then
    { plain with
      mnemonic := if function3 = 3 then "ld" else "lw"
      operands := riscvRegister destination ++ ascii ", (" ++
        riscvRegister source1 ++ ascii ")" }
  else if opcode = 0x23 then
    { plain with
      mnemonic := if function3 = 3 then "sd" else "sw"
      operands := riscvRegister source2 ++ ascii ", (" ++
        riscvRegister source1 ++ ascii ")" }
  else
    { plain with mnemonic := ".word"
                 operands := paddedHexadecimal 8 word.toNat }

def decode (compressed : Bool) : Disassembler := fun data address => do
  rejectIf (data.length < 2)
    (failure .truncated address "RISC-V instruction is truncated")
  let half := (data.getD 0 0).toUInt16 ||| ((data.getD 1 0).toUInt16 <<< 8)
  if half &&& 3 ≠ 3 then do
    rejectIf (compressed = false)
      (failure .invalidHeader address
        "compressed RISC-V instruction is disabled")
    return decodeHalf half { address, size := 2, bytes := copied (data.take 2) }
  else do
    rejectIf (data.length < 4)
      (failure .truncated address "RISC-V 32-bit instruction is truncated")
    return decodeWord (little32 data)
      { address, size := 4, bytes := copied (data.take 4) }

end RiscVDisassembler
end BinForge
