import BinForge.BitFields
import BinForge.Disassembler

/-!
# Control transfers of RISC-V

The formats of the instruction set scatter an immediate over the word.  The
decoder puts those of the jump and of the conditional branches together again,
but takes the eleven bits of a compressed jump as they stand, and it tells a
compressed call from an addition by the wrong register field.
-/

namespace BinForge

open StatefulExcept
open BitFields
open Disassembler

namespace RiscVDisassembler

/-! ## What the bits of an instruction say -/

def little16 (data : Bytes) : UInt16 :=
  (data.getD 0 0).toUInt16 ||| ((data.getD 1 0).toUInt16 <<< 8)

/-- The field of the bits from one on. -/
def field {n : ℕ} (bits : BitVec n) (start width : ℕ) : BitVec width :=
  bits.extractLsb' start width

/-- `JAL`. -/
def IsJal (word : UInt32) : Prop := field word.toBitVec 0 7 = 0b1101111#7

/-- The conditional branches, two of whose eight functions are not assigned. -/
def IsConditional (word : UInt32) : Prop :=
  field word.toBitVec 0 7 = 0b1100011#7 ∧
    field word.toBitVec 12 3 ≠ 0b010#3 ∧ field word.toBitVec 12 3 ≠ 0b011#3

/-- `C.J`. -/
def IsCompressedJump (half : UInt16) : Prop :=
  field half.toBitVec 0 2 = 0b01#2 ∧ field half.toBitVec 13 3 = 0b101#3

/-- What `C.JALR` and `C.ADD` have in common. -/
def IsCompressedPair (half : UInt16) : Prop :=
  field half.toBitVec 0 2 = 0b10#2 ∧ field half.toBitVec 13 3 = 0b100#3 ∧
    field half.toBitVec 12 1 = 1#1 ∧ field half.toBitVec 7 5 ≠ 0#5

/-- `C.JALR`. -/
def IsCompressedCall (half : UInt16) : Prop :=
  IsCompressedPair half ∧ field half.toBitVec 2 5 = 0#5

/-- `C.ADD`. -/
def IsCompressedAdd (half : UInt16) : Prop :=
  IsCompressedPair half ∧ field half.toBitVec 2 5 ≠ 0#5

instance (half : UInt16) : Decidable (IsCompressedJump half) :=
  inferInstanceAs (Decidable (_ ∧ _))

/-- The bytes hold an instruction the decoder accepts: four of them, or two
when the extension for these is on. -/
structure Complete (compressed : Bool) (data : Bytes) : Prop where
  half : 2 ≤ data.length
  word : field (little16 data).toBitVec 0 2 = 0b11#2 → 4 ≤ data.length
  extension : field (little16 data).toBitVec 0 2 ≠ 0b11#2 → compressed = true

/-- `imm[20|10:1|11|19:12]`. -/
def jImmediate (word : UInt32) : BitVec 21 :=
  let bits := word.toBitVec
  field bits 31 1 ++ field bits 12 8 ++ field bits 20 1 ++ field bits 21 10 ++
    0#1

/-- `imm[12|10:5]` and `imm[4:1|11]`. -/
def bImmediate (word : UInt32) : BitVec 13 :=
  let bits := word.toBitVec
  field bits 31 1 ++ field bits 7 1 ++ field bits 25 6 ++ field bits 8 4 ++ 0#1

/-- `imm[11|4|9:8|10|6|7|3:1|5]`. -/
def cjImmediate (half : UInt16) : BitVec 12 :=
  let bits := half.toBitVec
  field bits 12 1 ++ field bits 8 1 ++ field bits 9 2 ++ field bits 6 1 ++
    field bits 7 1 ++ field bits 2 1 ++ field bits 11 1 ++ field bits 3 3 ++ 0#1

/-- The address this far from another, forwards or backwards. -/
def relativeTo (address : UInt64) {width : ℕ} (immediate : BitVec width) :
    UInt64 :=
  address + .ofBitVec (immediate.signExtend 64)

/-- What the instruction set asks of a decoded control transfer. -/
structure FollowsEncoding (data : Bytes) (address : UInt64)
    (instruction : Instruction) : Prop where
  jal : IsJal (little32 data) →
    instruction.target =
      some (relativeTo address (jImmediate (little32 data)))
  conditional : IsConditional (little32 data) →
    instruction.target =
      some (relativeTo address (bImmediate (little32 data)))
  jump : IsCompressedJump (little16 data) →
    instruction.target =
      some (relativeTo address (cjImmediate (little16 data)))
  call : IsCompressedCall (little16 data) → instruction.call = true
  add : IsCompressedAdd (little16 data) →
    instruction.branch = false ∧ instruction.call = false ∧
      instruction.terminal = false

/-- The bits of a compressed jump that the format moves around are alike. -/
def JumpUnmoved (half : UInt16) : Prop :=
  ∀ i ∈ [3, 4, 5, 6, 8, 11],
    half.toBitVec.getLsbD i = half.toBitVec.getLsbD 2

/-- The instruction is none of those the decoder misreads. -/
structure ReadRight (half : UInt16) : Prop where
  notCall : ¬IsCompressedCall half
  notAdd : ¬IsCompressedAdd half
  jump : IsCompressedJump half → JumpUnmoved half

/-! ## The immediates the decoder puts together -/

variable {word : UInt32} {half : UInt16} {address : UInt64}
  {plain : Instruction}

/-- A field shifted down, masked and shifted up to its place. -/
theorem placed {start width place : ℕ} {down mask up : UInt32}
    (word : UInt32)
    (hdown : ∀ bits : UInt32, (bits >>> down).toBitVec = bits.toBitVec >>> start)
    (hmask : mask.toBitVec = (BitVec.allOnes width).setWidth 32)
    (hup : ∀ bits : UInt32, (bits <<< up).toBitVec = bits.toBitVec <<< place) :
    (((word >>> down) &&& mask) <<< up).toBitVec =
      inPlace 32 place (field word.toBitVec start width) := by
  rw [hup, UInt32.toBitVec_and, hdown, hmask]
  exact shift_and_shift word.toBitVec

/-- The sign bit shifted to its place. -/
theorem placed_sign {place : ℕ} {up : UInt32} (word : UInt32)
    (hup : ∀ bits : UInt32, (bits <<< up).toBitVec = bits.toBitVec <<< place) :
    ((word >>> 31) <<< up).toBitVec =
      inPlace 32 place (field word.toBitVec 31 1) := by
  have hdown : (word >>> 31).toBitVec = word.toBitVec >>> 31 := rfl
  rw [hup, hdown, shift_eq_top word.toBitVec (le_refl (31 + 1))]
  rfl

theorem setWidth_eq_inPlace {n width : ℕ} (value : BitVec width) :
    value.setWidth n = inPlace n 0 value :=
  (BitVec.shiftLeft_zero _).symm

theorem jal_encoded (word : UInt32) :
    (((word >>> 31) <<< 20) ||| (((word >>> 12) &&& 0xff) <<< 12) |||
      (((word >>> 20) &&& 1) <<< 11) |||
      (((word >>> 21) &&& 0x3ff) <<< 1)).toBitVec =
        (jImmediate word).setWidth 32 := by
  have hsign : ((word >>> 31) <<< 20).toBitVec =
      inPlace 32 20 (field word.toBitVec 31 1) :=
    placed_sign word fun _ => rfl
  have hmiddle : (((word >>> 12) &&& 0xff) <<< 12).toBitVec =
      inPlace 32 12 (field word.toBitVec 12 8) :=
    placed word (fun _ => rfl) (by decide) (fun _ => rfl)
  have hbit : (((word >>> 20) &&& 1) <<< 11).toBitVec =
      inPlace 32 11 (field word.toBitVec 20 1) :=
    placed word (fun _ => rfl) (by decide) (fun _ => rfl)
  have hlow : (((word >>> 21) &&& 0x3ff) <<< 1).toBitVec =
      inPlace 32 1 (field word.toBitVec 21 10) :=
    placed word (fun _ => rfl) (by decide) (fun _ => rfl)
  rw [setWidth_eq_inPlace, jImmediate]
  simp only [UInt32.toBitVec_or, inPlace_append, hsign, hmiddle, hbit, hlow]
  simp [inPlace, BitVec.or_assoc]

theorem conditional_encoded (word : UInt32) :
    (((word >>> 31) <<< 12) ||| (((word >>> 7) &&& 1) <<< 11) |||
      (((word >>> 25) &&& 0x3f) <<< 5) |||
      (((word >>> 8) &&& 0xf) <<< 1)).toBitVec =
        (bImmediate word).setWidth 32 := by
  have hsign : ((word >>> 31) <<< 12).toBitVec =
      inPlace 32 12 (field word.toBitVec 31 1) :=
    placed_sign word fun _ => rfl
  have hbit : (((word >>> 7) &&& 1) <<< 11).toBitVec =
      inPlace 32 11 (field word.toBitVec 7 1) :=
    placed word (fun _ => rfl) (by decide) (fun _ => rfl)
  have hmiddle : (((word >>> 25) &&& 0x3f) <<< 5).toBitVec =
      inPlace 32 5 (field word.toBitVec 25 6) :=
    placed word (fun _ => rfl) (by decide) (fun _ => rfl)
  have hlow : (((word >>> 8) &&& 0xf) <<< 1).toBitVec =
      inPlace 32 1 (field word.toBitVec 8 4) :=
    placed word (fun _ => rfl) (by decide) (fun _ => rfl)
  rw [setWidth_eq_inPlace, bImmediate]
  simp only [UInt32.toBitVec_or, inPlace_append, hsign, hbit, hmiddle, hlow]
  simp [inPlace, BitVec.or_assoc]

theorem displaced_encoded {encoded : UInt32} {k : ℕ} (address bits : UInt64)
    (immediate : BitVec (k + 1)) (hfit : k < 32)
    (hsign : ((1 : UInt64) <<< (bits - 1)).toBitVec = BitVec.twoPow 64 k)
    (hencoded : encoded.toBitVec = immediate.setWidth 32) :
    displaced address (signExtend encoded.toUInt64 bits) =
      relativeTo address immediate := by
  have hvalue : encoded.toUInt64.toBitVec = immediate.setWidth 64 := by
    rw [UInt32.toBitVec_toUInt64, hencoded,
      BitVec.setWidth_setWidth (by omega)]
  have hsigned : (signExtend encoded.toUInt64 bits).toUInt64 =
      .ofBitVec (immediate.signExtend 64) :=
    UInt64.toBitVec_inj.mp
      (signExtend_eq immediate (by omega) hsign hvalue)
  rw [displaced, hsigned]
  rfl

theorem relativeTo_inj {width : ℕ} {first second : BitVec width}
    (hfit : width ≤ 64) :
    relativeTo address first = relativeTo address second ↔ first = second := by
  rw [relativeTo, relativeTo, UInt64.add_right_inj, ← UInt64.toBitVec_inj]
  exact signExtend_inj hfit

/-! ## The compressed jump -/

/-- The bits as the decoder takes them. -/
def takenImmediate (half : UInt16) : BitVec 12 :=
  field half.toBitVec 2 11 ++ 0#1

theorem displaced_taken (half : UInt16) (address : UInt64) :
    displaced address
        (signExtend ((half >>> 2) &&& 0x7ff).toUInt64 11 <<< 1) =
      relativeTo address (takenImmediate half) := by
  have hdown : (half >>> 2).toBitVec = half.toBitVec >>> 2 := rfl
  have hmask : (0x7ff : UInt16).toBitVec =
      (BitVec.allOnes 11).setWidth 16 := by decide
  have hvalue : ((half >>> 2) &&& 0x7ff).toUInt64.toBitVec =
      (field half.toBitVec 2 11).setWidth 64 := by
    rw [UInt16.toBitVec_toUInt64, UInt16.toBitVec_and, hdown, hmask,
      shift_and_allOnes, BitVec.setWidth_setWidth (by omega), field]
  have hsigned :
      (signExtend ((half >>> 2) &&& 0x7ff).toUInt64 11).toUInt64.toBitVec =
        (field half.toBitVec 2 11).signExtend 64 :=
    signExtend_eq _ (by decide) (by decide) hvalue
  rw [displaced, relativeTo, takenImmediate,
    ← signExtend_shiftLeft_one _ (by decide), ← hsigned]
  rfl

/-- Apart from the bits the format moves the two are the same number. -/
theorem taken_eq_iff :
    takenImmediate half = cjImmediate half ↔ JumpUnmoved half := by
  have hplaces : takenImmediate half = cjImmediate half ↔
      ∀ i ∈ List.range 12, (takenImmediate half).getLsbD i =
        (cjImmediate half).getLsbD i := by
    rw [BitVec.eq_of_getLsbD_eq_iff]
    simp only [List.mem_range]
  rw [hplaces]
  simp only [takenImmediate, cjImmediate, JumpUnmoved, field,
    BitVec.getLsbD_append, BitVec.getLsbD_extractLsb', List.range_succ]
  simp
  grind

/-! ## The tests of the decoder -/

theorem quadrant_iff {value : UInt16} {bits : BitVec 2}
    (hvalue : value.toBitVec = bits.setWidth 16) :
    half &&& 3 = value ↔ field half.toBitVec 0 2 = bits := by
  have hmask : (3 : UInt16).toBitVec = (BitVec.allOnes 2).setWidth 16 := by
    decide
  have htest : half.toBitVec >>> 0 &&& (BitVec.allOnes 2).setWidth 16 =
      bits.setWidth 16 ↔ field half.toBitVec 0 2 = bits :=
    shift_and_eq_iff (by decide)
  rw [← UInt16.toBitVec_inj, UInt16.toBitVec_and, hmask, hvalue]
  exact htest

theorem function_iff {value : UInt16} {bits : BitVec 3}
    (hvalue : value.toBitVec = bits.setWidth 16) :
    half >>> 13 = value ↔ field half.toBitVec 13 3 = bits := by
  have hdown : (half >>> 13).toBitVec = half.toBitVec >>> 13 := rfl
  rw [← UInt16.toBitVec_inj, hdown, hvalue,
    shift_eq_top half.toBitVec (le_refl (13 + 3))]
  exact setWidth_inj (by decide)

theorem pairBit_iff :
    (half >>> 12) &&& 1 ≠ 0 ↔ field half.toBitVec 12 1 = 1#1 := by
  have hdown : (half >>> 12).toBitVec = half.toBitVec >>> 12 := rfl
  have hmask : (1 : UInt16).toBitVec = (BitVec.allOnes 1).setWidth 16 := by
    decide
  have hclear : (half >>> 12) &&& 1 = 0 ↔ field half.toBitVec 12 1 = 0#1 := by
    have hzero : (0 : UInt16).toBitVec = (0#1).setWidth 16 := by decide
    rw [← UInt16.toBitVec_inj, UInt16.toBitVec_and, hdown, hmask, hzero]
    exact shift_and_eq_iff (by decide)
  rw [ne_eq, hclear]
  generalize field half.toBitVec 12 1 = bit
  revert bit
  decide

theorem source_iff :
    ((half >>> 2) &&& 31).toUInt32 = 0 ↔ field half.toBitVec 2 5 = 0#5 := by
  have hdown : (half >>> 2).toBitVec = half.toBitVec >>> 2 := rfl
  have hmask : (31 : UInt16).toBitVec = (BitVec.allOnes 5).setWidth 16 := by
    decide
  have hzero : (0 : UInt32).toBitVec = (0#5).setWidth 32 := by decide
  rw [← UInt32.toBitVec_inj, UInt16.toBitVec_toUInt32, UInt16.toBitVec_and,
    hdown, hmask, shift_and_allOnes, hzero, BitVec.setWidth_setWidth (by omega)]
  exact setWidth_inj (by decide)

theorem opcode_iff {value : UInt32} {bits : BitVec 7}
    (hvalue : value.toBitVec = bits.setWidth 32) :
    word &&& 0x7f = value ↔ field word.toBitVec 0 7 = bits := by
  have hmask : (0x7f : UInt32).toBitVec = (BitVec.allOnes 7).setWidth 32 := by
    decide
  have htest : word.toBitVec >>> 0 &&& (BitVec.allOnes 7).setWidth 32 =
      bits.setWidth 32 ↔ field word.toBitVec 0 7 = bits :=
    shift_and_eq_iff (by decide)
  rw [← UInt32.toBitVec_inj, UInt32.toBitVec_and, hmask, hvalue]
  exact htest

/-! ## The instructions of four bytes -/

theorem ne_ret_of_opcode {value : UInt32} (hword : word &&& 0x7f = value)
    (hvalue : value ≠ 0x67) : word ≠ 0x00008067 := by
  rintro rfl
  exact hvalue hword.symm

theorem decodeWord_of_isJal (hjal : IsJal word) :
    (decodeWord word plain).target =
      some (relativeTo plain.address (jImmediate word)) := by
  have hword : word &&& 0x7f = 0x6f := (opcode_iff (by decide)).mpr hjal
  have hret := ne_ret_of_opcode hword (by decide)
  have hlands := displaced_encoded plain.address 21 (jImmediate word)
    (by decide) (by decide) (jal_encoded word)
  simp only [decodeWord, hret, hword, if_true, if_false, branchTo, hlands]

theorem decodeWord_of_opcode (hopcode : field word.toBitVec 0 7 = 0b1100011#7) :
    (decodeWord word plain).target =
      some (relativeTo plain.address (bImmediate word)) := by
  have hword : word &&& 0x7f = 0x63 := (opcode_iff (by decide)).mpr hopcode
  have hret := ne_ret_of_opcode hword (by decide)
  have hjal : ¬(0x63 : UInt32) = 0x6f := by decide
  have hjalr : ¬(0x63 : UInt32) = 0x67 := by decide
  have hlands := displaced_encoded plain.address 13 (bImmediate word)
    (by decide) (by decide) (conditional_encoded word)
  simp only [decodeWord, hret, hword, hjal, hjalr, if_true, if_false, branchTo,
    hlands]

/-! ## The compressed instructions -/

theorem decodeHalf_of_jump (hjump : IsCompressedJump half) :
    (decodeHalf half plain).target =
      some (relativeTo plain.address (takenImmediate half)) := by
  have hquadrant : half &&& 3 = 1 := (quadrant_iff (by decide)).mpr hjump.1
  have hfunction : half >>> 13 = 5 := (function_iff (by decide)).mpr hjump.2
  have hnop : half ≠ 1 := by
    rintro rfl
    exact absurd hfunction (by decide)
  simp only [decodeHalf, hnop, hquadrant, hfunction, and_self, if_true,
    if_false, branchTo, displaced_taken]

/-- Of the pair the decoder calls the second a call and the first no call. -/
theorem decodeHalf_of_pair (hpair : IsCompressedPair half) :
    (decodeHalf half plain).call = true ↔ field half.toBitVec 2 5 ≠ 0#5 := by
  obtain ⟨hlowest, hhighest, hbit, -⟩ := hpair
  have hquadrant : half &&& 3 = 2 := (quadrant_iff (by decide)).mpr hlowest
  have hfunction : half >>> 13 = 4 := (function_iff (by decide)).mpr hhighest
  have hnop : half ≠ 1 := by
    rintro rfl
    exact absurd hquadrant (by decide)
  have hnotJump : ¬((2 : UInt16) = 1 ∧ (4 : UInt16) = 5) := by decide
  have hset := pairBit_iff.mpr hbit
  simp only [decodeHalf, hnop, hquadrant, hfunction, hnotJump, hset, and_self,
    if_true, if_false, bne_iff_ne, ne_eq, source_iff,
    not_false_eq_true]

/-! ## Where the instruction comes from -/

theorem lowest_eq (data : Bytes) :
    field (little32 data).toBitVec 0 2 = field (little16 data).toBitVec 0 2 := by
  apply BitVec.eq_of_getLsbD_eq
  intro i hi
  have hbyte : i < 8 := by omega
  have hword : i < 16 := by omega
  have hthird : i < 24 := by omega
  have hwide : i < 32 := by omega
  simp [field, little32, little16, hi, hbyte, hword, hthird, hwide]

theorem decode_complete {compressed : Bool} {data : Bytes} (address : UInt64)
    (hcomplete : Complete compressed data) :
    ∃ plain : Instruction, plain.address = address ∧
      decode compressed data address = .ok
        (if field (little16 data).toBitVec 0 2 = 0b11#2
          then decodeWord (little32 data) plain
          else decodeHalf (little16 data) plain) := by
  have htest : little16 data &&& 3 = 3 ↔
      field (little16 data).toBitVec 0 2 = 0b11#2 := quadrant_iff (by decide)
  have hhalf : ¬data.length < 2 := not_lt.mpr hcomplete.half
  by_cases hlowest : field (little16 data).toBitVec 0 2 = 0b11#2
  · have hword : ¬data.length < 4 := not_lt.mpr (hcomplete.word hlowest)
    have hmask : ¬little16 data &&& 3 ≠ 3 := not_not.mpr (htest.mpr hlowest)
    refine ⟨{ address, size := 4, bytes := copied (data.take 4) }, rfl, ?_⟩
    rw [if_pos hlowest]
    apply rejectIf_except_bind_eq_ok.mpr ⟨hhalf, ?_⟩
    change (if little16 data &&& 3 ≠ 3 then _ else _) = _
    rw [if_neg hmask]
    exact rejectIf_except_bind_eq_ok.mpr ⟨hword, rfl⟩
  · have hoff : ¬compressed = false := by
      rw [hcomplete.extension hlowest]
      decide
    refine ⟨{ address, size := 2, bytes := copied (data.take 2) }, rfl, ?_⟩
    rw [if_neg hlowest]
    apply rejectIf_except_bind_eq_ok.mpr ⟨hhalf, ?_⟩
    change (if little16 data &&& 3 ≠ 3 then _ else _) = _
    rw [if_pos (mt htest.mp hlowest)]
    exact rejectIf_except_bind_eq_ok.mpr ⟨hoff, rfl⟩

theorem lowest_of_opcode {opcode : BitVec 7}
    (hopcode : field word.toBitVec 0 7 = opcode) :
    field word.toBitVec 0 2 = field opcode 0 2 := by
  apply BitVec.eq_of_getLsbD_eq
  intro i hi
  simp [← hopcode, field, hi]

/-! ## The decoder and the encoding -/

/-- The low bits of a word are none of those a compressed instruction has. -/
theorem not_compressed (hlowest : field half.toBitVec 0 2 = 0b11#2) :
    ¬IsCompressedJump half ∧ ¬IsCompressedPair half := by
  constructor
  · intro hjump
    rw [hjump.1] at hlowest
    exact absurd hlowest (by decide)
  · intro hpair
    rw [hpair.1] at hlowest
    exact absurd hlowest (by decide)

theorem decodeWord_follows {data : Bytes}
    (hlowest : field (little16 data).toBitVec 0 2 = 0b11#2) :
    FollowsEncoding data plain.address (decodeWord (little32 data) plain) where
  jal := decodeWord_of_isJal
  conditional := fun hconditional => decodeWord_of_opcode hconditional.1
  jump := fun hjump => absurd hjump (not_compressed hlowest).1
  call := fun hcall => absurd hcall.1 (not_compressed hlowest).2
  add := fun hadd => absurd hadd.1 (not_compressed hlowest).2

theorem readRight_of_lowest (hlowest : field half.toBitVec 0 2 = 0b11#2) :
    ReadRight half where
  notCall := fun hcall => (not_compressed hlowest).2 hcall.1
  notAdd := fun hadd => (not_compressed hlowest).2 hadd.1
  jump := fun hjump => absurd hjump (not_compressed hlowest).1

theorem decodeHalf_follows_iff {data : Bytes}
    (hlowest : field (little16 data).toBitVec 0 2 ≠ 0b11#2) :
    FollowsEncoding data plain.address (decodeHalf (little16 data) plain) ↔
      ReadRight (little16 data) := by
  rw [← lowest_eq] at hlowest
  constructor
  · intro hfollows
    constructor
    · intro hcall
      have hmarked := hfollows.call hcall
      exact decodeHalf_of_pair hcall.1 |>.mp hmarked hcall.2
    · intro hadd
      have hunmarked := (hfollows.add hadd).2.1
      rw [(decodeHalf_of_pair hadd.1).mpr hadd.2] at hunmarked
      exact Bool.noConfusion hunmarked
    · intro hjump
      have htarget := hfollows.jump hjump
      rw [decodeHalf_of_jump hjump, Option.some_inj,
        relativeTo_inj (by decide)] at htarget
      exact taken_eq_iff.mp htarget
  · intro hright
    constructor
    · intro hjal
      exact absurd (lowest_of_opcode hjal) hlowest
    · intro hconditional
      exact absurd (lowest_of_opcode hconditional.1) hlowest
    · intro hjump
      rw [decodeHalf_of_jump hjump, taken_eq_iff.mpr (hright.jump hjump)]
    · intro hcall
      exact absurd hcall hright.notCall
    · intro hadd
      exact absurd hadd hright.notAdd

/-- A control transfer is decoded as it is encoded unless it is a compressed
call, a compressed addition, or a compressed jump whose moved bits differ. -/
theorem follows_encoding_iff (compressed : Bool) (data : Bytes)
    (address : UInt64) (hcomplete : Complete compressed data) :
    (∃ instruction, decode compressed data address = .ok instruction ∧
      FollowsEncoding data address instruction) ↔
        ReadRight (little16 data) := by
  obtain ⟨plain, rfl, hdecode⟩ := decode_complete address hcomplete
  simp only [hdecode, Except.ok.injEq, exists_eq_left']
  by_cases hlowest : field (little16 data).toBitVec 0 2 = 0b11#2
  · rw [if_pos hlowest]
    exact iff_of_true (decodeWord_follows hlowest)
      (readRight_of_lowest hlowest)
  · rw [if_neg hlowest]
    exact decodeHalf_follows_iff hlowest

/-- `jal ra, 4`. -/
def jumpAndLink : Bytes := [0xef, 0x00, 0x40, 0x00]

theorem follows_encoding_jumpAndLink :
    ReadRight (little16 jumpAndLink) ∧
      ∃ instruction, decode false jumpAndLink 0x1000 = .ok instruction ∧
        FollowsEncoding jumpAndLink 0x1000 instruction := by
  have hlowest : field (little16 jumpAndLink).toBitVec 0 2 = 0b11#2 := by decide
  have hcomplete : Complete false jumpAndLink :=
    ⟨by decide, fun _ => by decide, fun hhalf => absurd hlowest hhalf⟩
  have hright := readRight_of_lowest hlowest
  exact ⟨hright, (follows_encoding_iff false jumpAndLink 0x1000
    hcomplete).mpr hright⟩

/-- `c.j 4`. -/
def jumpAhead : Bytes := [0x11, 0xa0]

/-- The decoder takes the jump four bytes ahead for one of eight. -/
theorem jumpAhead_misread :
    ∃ instruction, decode true jumpAhead 0x1000 = .ok instruction ∧
      instruction.target = some 0x1008 ∧
      ¬FollowsEncoding jumpAhead 0x1000 instruction := by
  refine ⟨_, rfl, by decide, ?_⟩
  intro hfollows
  have htarget := hfollows.jump (by decide)
  revert htarget
  decide

end RiscVDisassembler
end BinForge
