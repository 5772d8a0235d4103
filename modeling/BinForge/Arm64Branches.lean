import BinForge.BitFields
import BinForge.Disassembler

/-!
# Direct branches of ARM64

The bits of a word say whether it is an unconditional branch, a conditional
branch or a compare-and-branch, and where it goes.  The decoder finds the same
from its masks, except for the compare-and-branch on nonzero.
-/

namespace BinForge

open StatefulExcept
open BitFields
open Disassembler

namespace Arm64Disassembler

/-! ## What the bits of a word say -/

/-- The field of the word from a bit on. -/
def field (word : UInt32) (start width : ℕ) : BitVec width :=
  word.toBitVec.extractLsb' start width

/-- `B` and `BL`. -/
def IsBranch (word : UInt32) : Prop := field word 26 5 = 0b00101#5

/-- `B.cond`. -/
def IsConditional (word : UInt32) : Prop :=
  field word 24 8 = 0b01010100#8 ∧ field word 4 1 = 0#1

/-- `CBZ` and `CBNZ`. -/
def IsCompare (word : UInt32) : Prop := field word 25 6 = 0b011010#6

/-- `CBNZ` among the two. -/
def IsCompareNonzero (word : UInt32) : Prop :=
  IsCompare word ∧ field word 24 1 = 1#1

def IsDirectBranch (word : UInt32) : Prop :=
  IsBranch word ∨ IsConditional word ∨ IsCompare word

/-- The word has its link bit. -/
def Links (word : UInt32) : Prop := field word 31 1 = 1#1

instance (word : UInt32) : Decidable (IsBranch word) :=
  inferInstanceAs (Decidable (_ = _))

instance (word : UInt32) : Decidable (IsConditional word) :=
  inferInstanceAs (Decidable (_ ∧ _))

instance (word : UInt32) : Decidable (IsCompare word) :=
  inferInstanceAs (Decidable (_ = _))

instance (word : UInt32) : Decidable (Links word) :=
  inferInstanceAs (Decidable (_ = _))

/-- The immediate of a direct branch, extended to 64 bits. -/
def immediate (word : UInt32) : UInt64 :=
  .ofBitVec (if IsBranch word then (field word 0 26).signExtend 64
    else (field word 5 19).signExtend 64)

/-- What is owed to a direct branch. -/
structure Recognised (word : UInt32) (address : UInt64)
    (instruction : Instruction) : Prop where
  branch : instruction.branch = true
  target : instruction.target = some (address + 4 * immediate word)
  call : instruction.call = true ↔ IsBranch word ∧ Links word
  terminal : instruction.terminal = true ↔ IsBranch word ∧ ¬Links word

/-! ## Masks and fields -/

variable {word : UInt32} {address : UInt64} {plain : Instruction}

theorem and_mask_iff {maskWord value : UInt32} {start width : ℕ}
    {bits : BitVec width} (hfit : start + width ≤ 32)
    (hmask : maskWord.toBitVec = mask 32 start width)
    (hvalue : value.toBitVec = inPlace 32 start bits) :
    word &&& maskWord = value ↔ field word start width = bits := by
  rw [← UInt32.toBitVec_inj, UInt32.toBitVec_and, hmask, hvalue]
  exact and_mask_eq_iff hfit

theorem isBranch_iff : IsBranch word ↔ word &&& 0x7c000000 = 0x14000000 :=
  (and_mask_iff (by decide) (by decide) (by decide)).symm

theorem isCompare_iff : IsCompare word ↔ word &&& 0x7e000000 = 0x34000000 :=
  (and_mask_iff (by decide) (by decide) (by decide)).symm

theorem and_or_iff {whole value firstMask secondMask first second : UInt32}
    (hwhole : whole = firstMask ||| secondMask)
    (hvalue : value = first ||| second)
    (hfirst : first &&& firstMask = first)
    (hsecond : second &&& secondMask = second)
    (hfirstOut : first &&& secondMask = 0)
    (hsecondOut : second &&& firstMask = 0) :
    word &&& whole = value ↔
      word &&& firstMask = first ∧ word &&& secondMask = second := by
  rw [hwhole, hvalue]
  simp only [← UInt32.toBitVec_inj, UInt32.toBitVec_and,
    UInt32.toBitVec_or] at *
  exact and_or_eq_or_iff hfirst hsecond hfirstOut hsecondOut

theorem isConditional_iff :
    IsConditional word ↔ word &&& 0xff000010 = 0x54000000 := by
  have hkind : word &&& 0xff000000 = 0x54000000 ↔
      field word 24 8 = 0b01010100#8 :=
    and_mask_iff (by decide) (by decide) (by decide)
  have hbit : word &&& 0x10 = 0 ↔ field word 4 1 = 0#1 :=
    and_mask_iff (by decide) (by decide) (by decide)
  rw [IsConditional, ← hkind, ← hbit]
  exact (and_or_iff (by decide) (by decide) (by decide) (by decide)
    (by decide) (by decide)).symm

/-- The compare-and-branch on zero is what the decoder tests for. -/
theorem isCompareZero_iff :
    IsCompare word ∧ ¬IsCompareNonzero word ↔
      word &&& 0x7f000000 = 0x34000000 := by
  have hbit : word &&& 0x01000000 = 0 ↔ field word 24 1 = 0#1 :=
    and_mask_iff (by decide) (by decide) (by decide)
  have hzero : field word 24 1 = 0#1 ↔ ¬field word 24 1 = 1#1 := by
    generalize field word 24 1 = bit
    revert bit
    decide
  have hsplit : word &&& 0x7f000000 = 0x34000000 ↔
      word &&& 0x7e000000 = 0x34000000 ∧ word &&& 0x01000000 = 0 :=
    and_or_iff (by decide) (by decide) (by decide) (by decide) (by decide)
      (by decide)
  rw [hsplit, hbit, hzero, ← isCompare_iff, IsCompareNonzero]
  tauto

theorem isCompareNonzero_iff :
    IsCompareNonzero word ↔ word &&& 0x7f000000 = 0x35000000 := by
  have hbit : word &&& 0x01000000 = 0x01000000 ↔ field word 24 1 = 1#1 :=
    and_mask_iff (by decide) (by decide) (by decide)
  have hsplit : word &&& 0x7f000000 = 0x35000000 ↔
      word &&& 0x7e000000 = 0x34000000 ∧ word &&& 0x01000000 = 0x01000000 :=
    and_or_iff (by decide) (by decide) (by decide) (by decide) (by decide)
      (by decide)
  rw [hsplit, hbit, ← isCompare_iff, IsCompareNonzero]

/-- Two tests that ask for different bits where their masks meet. -/
theorem tests_differ {first second : UInt32} {value other : UInt32}
    (hword : word &&& first = value)
    (hdiffer : value &&& second ≠ other &&& first) :
    word &&& second ≠ other := by
  intro hother
  apply hdiffer
  rw [← hword, ← hother, UInt32.and_assoc, UInt32.and_assoc,
    UInt32.and_comm first]

/-! ## Displacements -/

theorem shiftLeft_two (displacement : Int64) :
    (displacement <<< 2).toUInt64 = 4 * displacement.toUInt64 := by
  have hshift : (displacement <<< 2).toUInt64.toBitVec =
      displacement.toBitVec <<< 2 := rfl
  apply UInt64.toBitVec_inj.mp
  apply BitVec.eq_of_toNat_eq
  rw [hshift, BitVec.toNat_shiftLeft, Nat.shiftLeft_eq, UInt64.toBitVec_mul,
    BitVec.toNat_mul, Nat.mul_comm]
  rfl

theorem and_toUInt64 {shifted maskWord : UInt32} {start width : ℕ}
    (hwidth : width ≤ 32)
    (hshifted : shifted.toBitVec = word.toBitVec >>> start)
    (hmask : maskWord.toBitVec = (BitVec.allOnes width).setWidth 32) :
    (shifted &&& maskWord).toUInt64.toBitVec =
      (field word start width).setWidth 64 := by
  rw [UInt32.toBitVec_toUInt64, UInt32.toBitVec_and, hshifted, hmask,
    shift_and_allOnes, field, BitVec.setWidth_setWidth (by omega)]

/-- The displacement of `B` and `BL`, and where it leads. -/
theorem displaced_low (word : UInt32) (address : UInt64) :
    displaced address
        (signExtend (word &&& 0x03ffffff).toUInt64 26 <<< 2) =
      address + 4 * .ofBitVec ((field word 0 26).signExtend 64) := by
  have hfield : (word &&& 0x03ffffff).toUInt64.toBitVec =
      (field word 0 26).setWidth 64 :=
    and_toUInt64 (by decide) (BitVec.ushiftRight_zero _).symm (by decide)
  have hsigned : (signExtend (word &&& 0x03ffffff).toUInt64 26).toUInt64 =
      .ofBitVec ((field word 0 26).signExtend 64) :=
    UInt64.toBitVec_inj.mp
      (signExtend_eq (field word 0 26) (by decide) (by decide) hfield)
  rw [displaced, shiftLeft_two, hsigned]

/-- The displacement of the conditional branches. -/
theorem displaced_middle (word : UInt32) (address : UInt64) :
    displaced address
        (signExtend ((word >>> 5) &&& 0x7ffff).toUInt64 19 <<< 2) =
      address + 4 * .ofBitVec ((field word 5 19).signExtend 64) := by
  have hfield : ((word >>> 5) &&& 0x7ffff).toUInt64.toBitVec =
      (field word 5 19).setWidth 64 :=
    and_toUInt64 (by decide) rfl (by decide)
  have hsigned :
      (signExtend ((word >>> 5) &&& 0x7ffff).toUInt64 19).toUInt64 =
        .ofBitVec ((field word 5 19).signExtend 64) :=
    UInt64.toBitVec_inj.mp
      (signExtend_eq (field word 5 19) (by decide) (by decide) hfield)
  rw [displaced, shiftLeft_two, hsigned]

/-! ## The chain of tests -/

/-- The tests the decoder makes before it looks for a direct branch. -/
structure PastIndirect (word : UInt32) : Prop where
  nop : word ≠ 0xd503201f
  ret : word ≠ 0xd65f03c0
  br : word &&& 0xfffffc1f ≠ 0xd61f0000
  blr : word &&& 0xfffffc1f ≠ 0xd63f0000

/-- Bits of another class of words rule these out. -/
theorem pastIndirect {part value : UInt32} (hword : word &&& part = value)
    (hnop : 0xd503201f &&& part ≠ value) (hret : 0xd65f03c0 &&& part ≠ value)
    (hbr : value &&& 0xfffffc1f ≠ 0xd61f0000 &&& part)
    (hblr : value &&& 0xfffffc1f ≠ 0xd63f0000 &&& part) :
    PastIndirect word where
  nop := by
    intro hnopWord
    apply hnop
    rw [← hnopWord, hword]
  ret := by
    intro hretWord
    apply hret
    rw [← hretWord, hword]
  br := tests_differ hword hbr
  blr := tests_differ hword hblr

theorem recognised_of_isBranch (hplain : plain.address = address)
    (hbranch : IsBranch word) :
    Recognised word address (decodeWord word plain) := by
  have hword := isBranch_iff.mp hbranch
  have hpast : PastIndirect word :=
    pastIndirect hword (by decide) (by decide) (by decide) (by decide)
  have hlink : (word &&& 0x80000000 != 0) = true ↔ Links word := by
    have hbit : word &&& 0x80000000 = 0 ↔ field word 31 1 = 0#1 :=
      and_mask_iff (by decide) (by decide) (by decide)
    rw [bne_iff_ne, ne_eq, hbit, Links]
    generalize field word 31 1 = bit
    revert bit
    decide
  unfold decodeWord
  rw [if_neg hpast.nop, if_neg hpast.ret, if_neg hpast.br, if_neg hpast.blr,
    if_pos hword]
  constructor
  · rfl
  · simp only [Arm64Disassembler.branchTo]
    rw [displaced_low, hplain, immediate, if_pos hbranch]
  · simp only [hlink, hbranch, true_and]
  · simp only [Bool.not_eq_true', ← Bool.not_eq_true, hlink, hbranch, true_and]

/-- What the two conditional classes have in common. -/
theorem recognised_branchTo {instruction : Instruction}
    (hplain : plain.address = address) (hbranch : ¬IsBranch word)
    (hkeeps : plain.call = false ∧ plain.terminal = false)
    (hinstruction : ∃ mnemonic operands, instruction =
      { Arm64Disassembler.branchTo plain
          (signExtend ((word >>> 5) &&& 0x7ffff).toUInt64 19) with
        mnemonic, operands }) :
    Recognised word address instruction := by
  obtain ⟨mnemonic, operands, rfl⟩ := hinstruction
  constructor
  · rfl
  · simp only [Arm64Disassembler.branchTo]
    rw [displaced_middle, hplain, immediate, if_neg hbranch]
  · simp [Arm64Disassembler.branchTo, hkeeps, hbranch]
  · simp [Arm64Disassembler.branchTo, hkeeps, hbranch]

theorem recognised_of_isConditional (hplain : plain.address = address)
    (hkeeps : plain.call = false ∧ plain.terminal = false)
    (hconditional : IsConditional word) :
    Recognised word address (decodeWord word plain) := by
  have hword := isConditional_iff.mp hconditional
  have hpast : PastIndirect word :=
    pastIndirect hword (by decide) (by decide) (by decide) (by decide)
  have hnotBranch : word &&& 0x7c000000 ≠ 0x14000000 :=
    tests_differ hword (by decide)
  apply recognised_branchTo hplain (mt isBranch_iff.mp hnotBranch) hkeeps
  unfold decodeWord
  rw [if_neg hpast.nop, if_neg hpast.ret, if_neg hpast.br, if_neg hpast.blr,
    if_neg hnotBranch, if_pos hword]
  exact ⟨_, _, rfl⟩

theorem recognised_of_isCompareZero (hplain : plain.address = address)
    (hkeeps : plain.call = false ∧ plain.terminal = false)
    (hcompare : IsCompare word ∧ ¬IsCompareNonzero word) :
    Recognised word address (decodeWord word plain) := by
  have hword := isCompareZero_iff.mp hcompare
  have hpast : PastIndirect word :=
    pastIndirect hword (by decide) (by decide) (by decide) (by decide)
  have hnotBranch : word &&& 0x7c000000 ≠ 0x14000000 :=
    tests_differ hword (by decide)
  have hnotConditional : word &&& 0xff000010 ≠ 0x54000000 :=
    tests_differ hword (by decide)
  apply recognised_branchTo hplain (mt isBranch_iff.mp hnotBranch) hkeeps
  unfold decodeWord
  rw [if_neg hpast.nop, if_neg hpast.ret, if_neg hpast.br, if_neg hpast.blr,
    if_neg hnotBranch, if_neg hnotConditional, if_pos hword]
  exact ⟨_, _, rfl⟩

/-- The mask of the compare-and-branch keeps the bit that tells the two apart,
and the other of them goes through the chain as a word of data. -/
theorem decodeWord_of_isCompareNonzero (plain : Instruction)
    (hcompare : IsCompareNonzero word) :
    (decodeWord word plain).branch = plain.branch := by
  have hword := isCompareNonzero_iff.mp hcompare
  have hpast : PastIndirect word :=
    pastIndirect hword (by decide) (by decide) (by decide) (by decide)
  have hnotBranch : word &&& 0x7c000000 ≠ 0x14000000 :=
    tests_differ hword (by decide)
  have hnotConditional : word &&& 0xff000010 ≠ 0x54000000 :=
    tests_differ hword (by decide)
  have hnotZero : word &&& 0x7f000000 ≠ 0x34000000 :=
    tests_differ hword (by decide)
  unfold decodeWord
  rw [if_neg hpast.nop, if_neg hpast.ret, if_neg hpast.br, if_neg hpast.blr,
    if_neg hnotBranch, if_neg hnotConditional, if_neg hnotZero]
  split_ifs <;> rfl

/-! ## Direct branches -/

theorem decode_eq {data : Bytes} (hlength : 4 ≤ data.length) :
    decode data address = .ok (decodeWord (little32 data)
      { address, size := 4, bytes := copied (data.take 4) }) := by
  have hlong : ¬data.length < 4 := not_lt.mpr hlength
  simp [decode, rejectIf, hlong, bind, Except.bind]
  rfl

/-- The direct branches are recognised, all but those on nonzero. -/
theorem branches_recognised_iff (data : Bytes) (address : UInt64)
    (hlength : 4 ≤ data.length) :
    (IsDirectBranch (little32 data) →
        ∃ instruction, decode data address = .ok instruction ∧
          Recognised (little32 data) address instruction) ↔
      ¬IsCompareNonzero (little32 data) := by
  rw [decode_eq hlength]
  constructor
  · intro hrecognised hnonzero
    obtain ⟨instruction, hdecode, hinstruction⟩ :=
      hrecognised (.inr (.inr hnonzero.1))
    cases hdecode
    have hplain := decodeWord_of_isCompareNonzero
      { address, size := 4, bytes := copied (data.take 4) } hnonzero
    rw [hinstruction.branch] at hplain
    exact Bool.noConfusion hplain
  · intro hnonzero hdirect
    refine ⟨_, rfl, ?_⟩
    rcases hdirect with hbranch | hconditional | hcompare
    · exact recognised_of_isBranch rfl hbranch
    · exact recognised_of_isConditional rfl ⟨rfl, rfl⟩ hconditional
    · exact recognised_of_isCompareZero rfl ⟨rfl, rfl⟩ ⟨hcompare, hnonzero⟩

/-- A loop back to the instruction before, on zero and on nonzero. -/
def loopOnZero : Bytes := [0xe0, 0xff, 0xff, 0x34]

def loopOnNonzero : Bytes := [0xe0, 0xff, 0xff, 0x35]

theorem branches_recognised_loopOnZero :
    IsDirectBranch (little32 loopOnZero) ∧
      ∃ instruction, decode loopOnZero 0x1000 = .ok instruction ∧
        Recognised (little32 loopOnZero) 0x1000 instruction := by
  have hdirect : IsDirectBranch (little32 loopOnZero) := by
    right
    right
    rw [isCompare_iff]
    decide
  have hzero : ¬IsCompareNonzero (little32 loopOnZero) := by
    rw [isCompareNonzero_iff]
    decide
  exact ⟨hdirect, (branches_recognised_iff loopOnZero 0x1000 (by decide)).mpr
    hzero hdirect⟩

theorem loopOnNonzero_unrecognised :
    IsDirectBranch (little32 loopOnNonzero) ∧
      ¬∃ instruction, decode loopOnNonzero 0x1000 = .ok instruction ∧
        Recognised (little32 loopOnNonzero) 0x1000 instruction := by
  constructor
  · right
    right
    rw [isCompare_iff]
    decide
  · rintro ⟨instruction, hdecode, hinstruction⟩
    rw [decode_eq (by decide)] at hdecode
    cases hdecode
    have hplain := hinstruction.branch
    rw [decodeWord_of_isCompareNonzero] at hplain
    · exact Bool.noConfusion hplain
    · rw [isCompareNonzero_iff]
      decide

end Arm64Disassembler
end BinForge
