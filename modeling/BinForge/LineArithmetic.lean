import BinForge.LineInputs

/-!
# The arithmetic of a line program

The registers are compared with those of the same machine over unbounded
integers.  The sums of addresses are checked and a line that leaves its
register is negative there, but the product of an advance and the minimum
instruction length is reduced modulo 2^64 and a row keeps 32 bits of its line.
-/

namespace BinForge

open StatefulExcept
open InstructionStream

namespace DebugInfoParser

/-! ## The exact machine -/

/-- A place in the code and in a source file. -/
structure ExactRegisters where
  address : ℕ := 0
  line : ℤ := 1
  deriving DecidableEq, Repr

/-- A 64-bit address and a line that a signed 64-bit register holds. -/
def ExactRegisters.Fits (registers : ExactRegisters) : Prop :=
  registers.address < 2 ^ 64 ∧ 0 ≤ registers.line ∧ registers.line < 2 ^ 63

def rowPlace (row : DebugLineRow) : ExactRegisters :=
  { address := row.address.toNat, line := row.line.toNat }

section Sums

variable {header : LineHeader} {registers after : LineRegisters}

/-- A sum that overflows is negative, so one that is not is exact. -/
theorem toInt_add_of_not_negative {line delta : Int64}
    (hline : 0 ≤ line.toInt) (hsum : ¬line + delta < 0) :
    (line + delta).toInt = line.toInt + delta.toInt := by
  have hnonneg : 0 ≤ (line + delta).toInt := by
    rw [Int64.lt_iff_toInt_lt, not_lt] at hsum
    exact hsum
  rw [Int64.toInt_add] at hnonneg ⊢
  have hlineTop := line.toInt_lt
  have hdeltaTop := delta.toInt_lt
  have hdeltaBottom := delta.le_toInt
  have hbound := Int.bmod_def (line.toInt + delta.toInt) (2 ^ 64)
  split_ifs at hbound
  · omega
  · omega

theorem toInt_toInt64 {value : UInt64} (hsmall : value.toNat < 2 ^ 63) :
    value.toInt64.toInt = value.toNat := by
  have hvalue : value.toInt64.toInt =
      if 2 * value.toNat < 2 ^ 64 then (value.toNat : ℤ)
      else (value.toNat : ℤ) - (2 ^ 64 : ℕ) :=
    BitVec.toInt_eq_toNat_cond value.toBitVec
  rw [hvalue, if_pos (by omega)]

theorem toNat_toUInt64 {line : Int64} (hline : 0 ≤ line.toInt) :
    (line.toUInt64.toNat : ℤ) = line.toInt := by
  have hvalue : line.toInt =
      if 2 * line.toUInt64.toNat < 2 ^ 64 then (line.toUInt64.toNat : ℤ)
      else (line.toUInt64.toNat : ℤ) - (2 ^ 64 : ℕ) :=
    BitVec.toInt_eq_toNat_cond line.toBitVec
  have hbound := line.toUInt64.toNat_lt
  split_ifs at hvalue
  · exact hvalue.symm
  · omega

theorem advanceAddress_eq_some {delta : UInt64}
    (hmoved : registers.advanceAddress delta = some after) :
    after.address.toNat = registers.address.toNat + delta.toNat ∧
      after.line = registers.line := by
  rw [LineRegisters.advanceAddress, Option.map_eq_some_iff] at hmoved
  obtain ⟨address, hsum, rfl⟩ := hmoved
  exact ⟨checkedAdd_toNat hsum, rfl⟩

theorem advanceLine_eq_some {delta : Int64}
    (hline : 0 ≤ registers.line.toInt)
    (hmoved : registers.advanceLine delta = some after) :
    after.line.toInt = registers.line.toInt + delta.toInt ∧
      0 ≤ after.line.toInt ∧ after.address = registers.address := by
  rw [LineRegisters.advanceLine] at hmoved
  split_ifs at hmoved with hnegative
  rw [Option.some.injEq] at hmoved
  rw [← hmoved]
  refine ⟨toInt_add_of_not_negative hline hnegative, ?_, rfl⟩
  rw [Int64.lt_iff_toInt_lt, not_lt] at hnegative
  exact hnegative

/-- A row keeps the line modulo 2^32. -/
theorem row_line {endSequence : Bool} (hline : 0 ≤ registers.line.toInt) :
    ((registers.row endSequence).line.toNat : ℤ) =
      registers.line.toInt % 2 ^ 32 := by
  rw [LineRegisters.row, UInt64.toNat_toUInt32, Int.natCast_mod,
    toNat_toUInt64 hline]
  rfl

end Sums

/-! ## One instruction -/

section Mirrors

variable {header : LineHeader} {registers after : LineRegisters}
variable {exact : ExactRegisters} {instruction : LineInstruction}
variable {rows : List DebugLineRow}

/-- The registers hold the values of the exact machine. -/
structure Mirrors (registers : LineRegisters) (exact : ExactRegisters) :
    Prop where
  address : registers.address.toNat = exact.address
  line : registers.line.toInt = exact.line
  nonnegative : 0 ≤ registers.line.toInt

theorem Mirrors.fits (hmirrors : Mirrors registers exact) : exact.Fits := by
  have hline := registers.line.toInt_lt
  have hnonnegative := hmirrors.nonnegative
  rw [hmirrors.line] at hline hnonnegative
  refine ⟨?_, hnonnegative, hline⟩
  rw [← hmirrors.address]
  exact registers.address.toNat_lt

theorem Mirrors.advanceAddress {delta : UInt64} {moved : ℕ}
    (hmirrors : Mirrors registers exact)
    (hmoved : registers.advanceAddress delta = some after)
    (hdelta : delta.toNat = moved) :
    Mirrors after { exact with address := exact.address + moved } := by
  obtain ⟨haddress, hline⟩ := advanceAddress_eq_some hmoved
  constructor
  · rw [haddress, hmirrors.address, hdelta]
  · rw [hline]
    exact hmirrors.line
  · rw [hline]
    exact hmirrors.nonnegative

theorem Mirrors.advanceLine {delta : Int64} {moved : ℤ}
    (hmirrors : Mirrors registers exact)
    (hmoved : registers.advanceLine delta = some after)
    (hdelta : delta.toInt = moved) :
    Mirrors after { exact with line := exact.line + moved } := by
  obtain ⟨hline, hnonnegative, haddress⟩ :=
    advanceLine_eq_some hmirrors.nonnegative hmoved
  constructor
  · rw [haddress]
    exact hmirrors.address
  · rw [hline, hmirrors.line, hdelta]
  · exact hnonnegative

theorem Mirrors.row {endSequence : Bool} (hmirrors : Mirrors registers exact)
    (hline : exact.line < 2 ^ 32) :
    rowPlace (registers.row endSequence) = exact := by
  have hrow := @row_line registers endSequence hmirrors.nonnegative
  have hnonnegative := hmirrors.nonnegative
  rw [hmirrors.line] at hrow hnonnegative
  rw [Int.emod_eq_of_lt hnonnegative hline] at hrow
  rw [rowPlace, hrow]
  exact congrArg (fun address => { exact with address }) hmirrors.address

end Mirrors

section Inputs

variable {limits : Limits} {order : ByteOrder} {addressSize : UInt8}
variable {data : Bytes} {unit produced : DebugUnit}

end Inputs

end DebugInfoParser
end BinForge
