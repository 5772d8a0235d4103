import BinForge.Accumulators
import BinForge.EncodedNumbers
import BinForge.Unwind

/-!
# Call-frame sections written and read back

Every record has a length in one of two forms, and behind an identifier the
contents of a common record, or a range of addresses and instructions.  A
section of any such records is read back to the ranges and instructions of its
frames, with a warning for each frame whose identifier does not lead to the
start of a common record before it.
-/

namespace BinForge

open StatefulExcept
open StreamCodec
open RoundLoop
open RecordLayout
open OrderedMap

namespace UnwindParser

open ByteReader
open ElfEncoding

variable {limits : Limits} {order : ByteOrder} {data tail : Bytes}
  {wordSize : WordSize} {sectionAddress : UInt64}

/-! ## Instructions -/

/-- The call-frame instructions that are understood. -/
inductive FrameOpcode
  | advance (delta : Fin 64)
  | offset (register : Fin 64) (displacement : UInt64)
  | restore (register : Fin 64)
  | nop
  | setLocation (location : UInt64)
  | advance1 (delta : UInt8)
  | advance2 (delta : UInt16)
  | advance4 (delta : UInt32)
  | offsetExtended (register : UInt32) (displacement : UInt64)
  | rememberState
  | defineFrame (register : UInt32) (displacement : UInt64)
  | defineOffset (displacement : UInt64)
  deriving DecidableEq, Repr

def FrameOpcode.bytes (order : ByteOrder) : FrameOpcode → Bytes
  | .advance delta => [UInt8.ofNat (0x40 + delta)]
  | .offset register displacement =>
      [UInt8.ofNat (0x80 + register)] ++ ulebBytes displacement
  | .restore register => [UInt8.ofNat (0xc0 + register)]
  | .nop => [0]
  | .setLocation location => [1] ++ address true order location
  | .advance1 delta => [2] ++ [delta]
  | .advance2 delta => [3] ++ half order delta
  | .advance4 delta => [4] ++ word order delta
  | .offsetExtended register displacement =>
      [5] ++ (ulebBytes register.toUInt64 ++ ulebBytes displacement)
  | .rememberState => [10]
  | .defineFrame register displacement =>
      [12] ++ (ulebBytes register.toUInt64 ++ ulebBytes displacement)
  | .defineOffset displacement => [14] ++ ulebBytes displacement

/-- What is recorded of an instruction. -/
def FrameOpcode.recorded : FrameOpcode → UnwindInstruction
  | .advance delta => { value := Int64.ofNat delta }
  | .offset register displacement =>
      { operation := .saveRegister, registerNumber := UInt32.ofNat register
        offset := displacement }
  | .restore register =>
      { operation := .restoreState, registerNumber := UInt32.ofNat register }
  | .nop => {}
  | .setLocation location =>
      { operation := .setFramePointer, offset := location }
  | .advance1 delta => { value := delta.toUInt64.toInt64 }
  | .advance2 delta => { value := delta.toUInt64.toInt64 }
  | .advance4 delta => { value := delta.toUInt64.toInt64 }
  | .offsetExtended register displacement =>
      { operation := .saveRegister, registerNumber := register
        offset := displacement }
  | .rememberState => { operation := .restoreState }
  | .defineFrame register displacement =>
      { operation := .setFramePointer, registerNumber := register
        offset := displacement }
  | .defineOffset displacement =>
      { operation := .allocateStack, offset := displacement }

theorem FrameOpcode.bytes_ne_nil (order : ByteOrder) (opcode : FrameOpcode) :
    opcode.bytes order ≠ [] := by
  cases opcode <;> simp [FrameOpcode.bytes]

theorem silently_consumes_of {α : Type} {action : ReaderCall α} {items : Bytes}
    {value : α}
    (haction : Consumes (AheadOf order data) 0 action items value) :
    Consumes (AheadOf order data) 0 (silently action) items value :=
  Consumes.adaptError _ haction

theorem readRegisterOffset_consumes (register : UInt32)
    (displacement : UInt64) :
    Consumes (AheadOf order data) 0 readRegisterOffset
      (ulebBytes register.toUInt64 ++ ulebBytes displacement)
      (register, displacement) := by
  have hsmall : ¬register.toUInt64 > 0xffffffff := by
    have hbound := register.toNat_lt
    rw [gt_iff_lt, UInt64.lt_iff_toNat_lt, UInt32.toNat_toUInt64]
    simp only [UInt64.reduceToNat]
    omega
  refine (readUleb128_consumes_of _).bind
    ((readUleb128_consumes_of _).bind_last (Consumes.rejectIf hsmall ?_))
  rw [UInt32.toUInt32_toUInt64]
  exact Consumes.pure _

/-- The opcodes that carry an operand in their low six bits. -/
theorem packed_bits (field : Fin 64) :
    (UInt8.ofNat (0x40 + field) &&& 0xc0 = 0x40 ∧
      (UInt8.ofNat (0x40 + field) &&& 0x3f).toUInt64.toInt64 =
        Int64.ofNat field) ∧
    (UInt8.ofNat (0x80 + field) &&& 0xc0 = 0x80 ∧
      (UInt8.ofNat (0x80 + field) &&& 0x3f).toUInt32 =
        UInt32.ofNat field) ∧
    UInt8.ofNat (0xc0 + field) &&& 0xc0 = 0xc0 ∧
      (UInt8.ofNat (0xc0 + field) &&& 0x3f).toUInt32 =
        UInt32.ofNat field := by
  revert field
  decide

theorem readInstruction_consumes (opcode : FrameOpcode) (place : UInt64) :
    Consumes (AheadOf order data) 0 (readInstruction place)
      (opcode.bytes order) opcode.recorded := by
  unfold readInstruction FrameOpcode.bytes
  have hbyte : ∀ byte : UInt8,
      Consumes (AheadOf order data) 0 (silently readU8) [byte] byte :=
    fun byte => silently_consumes_of (readU8_consumes_of byte)
  cases opcode with
  | advance delta =>
      obtain ⟨⟨hprimary, hvalue⟩, -⟩ := packed_bits delta
      refine (hbyte _).bind_last ?_
      dsimp only
      rw [if_pos hprimary, hvalue]
      exact Consumes.pure _
  | offset register displacement =>
      obtain ⟨-, ⟨hprimary, hvalue⟩, -⟩ := packed_bits register
      refine (hbyte _).bind ?_
      dsimp only
      rw [hprimary, if_neg (by decide), if_pos rfl, hvalue]
      exact (silently_consumes_of (readUleb128_consumes_of _)).bind_last
        (Consumes.pure _)
  | restore register =>
      obtain ⟨-, -, hprimary, hvalue⟩ := packed_bits register
      refine (hbyte _).bind_last ?_
      dsimp only
      rw [hprimary, if_neg (by decide), if_neg (by decide), if_pos rfl, hvalue]
      exact Consumes.pure _
  | nop => exact (hbyte 0).bind_last (Consumes.pure _)
  | setLocation location =>
      exact (hbyte 1).bind
        ((silently_consumes_of (readU64_consumes_of _)).bind_last
          (Consumes.pure _))
  | advance1 delta =>
      exact (hbyte 2).bind
        ((silently_consumes_of (readU8_consumes_of _)).bind_last
          (Consumes.pure _))
  | advance2 delta =>
      exact (hbyte 3).bind
        ((silently_consumes_of (readU16_consumes_of _)).bind_last
          (Consumes.pure _))
  | advance4 delta =>
      exact (hbyte 4).bind
        ((silently_consumes_of (readWord32_consumes_of _)).bind_last
          (Consumes.pure _))
  | offsetExtended register displacement =>
      exact (hbyte 5).bind
        ((silently_consumes_of (readRegisterOffset_consumes _ _)).bind_last
          (Consumes.pure _))
  | rememberState => exact (hbyte 10).bind_last (Consumes.pure _)
  | defineFrame register displacement =>
      exact (hbyte 12).bind
        ((silently_consumes_of (readRegisterOffset_consumes _ _)).bind_last
          (Consumes.pure _))
  | defineOffset displacement =>
      exact (hbyte 14).bind
        ((silently_consumes_of (readUleb128_consumes_of _)).bind_last
          (Consumes.pure _))

def opcodeBytes (order : ByteOrder) (opcodes : List FrameOpcode) : Bytes :=
  opcodes.flatMap (FrameOpcode.bytes order)

theorem length_le_opcodeBytes (order : ByteOrder)
    (opcodes : List FrameOpcode) :
    opcodes.length ≤ (opcodeBytes order opcodes).length := by
  induction opcodes with
  | nil => exact le_rfl
  | cons opcode opcodes ih =>
      have hpositive := List.length_pos_iff.mpr (opcode.bytes_ne_nil order)
      rw [opcodeBytes, List.flatMap_cons, List.length_append, List.length_cons,
        ← opcodeBytes]
      omega

/-- The loop over instructions that end where their record does. -/
theorem instructionLoop_opcodes {opcodes : List FrameOpcode}
    {record : UnwindRecord} {reader : ByteReader} {rounds recordEnd : ℕ}
    (hahead : AheadOf order data reader (opcodeBytes order opcodes ++ tail))
    (hend : recordEnd = reader.position + (opcodeBytes order opcodes).length)
    (hroom : record.instructions.length + opcodes.length ≤
      limits.maxDisassemblyInstructions.toNat)
    (hrounds : opcodes.length < rounds) :
    loop (instructionRound limits recordEnd) rounds record reader =
      .ok { record with
        instructions := record.instructions ++
          opcodes.map FrameOpcode.recorded } (reader.movedTo recordEnd) := by
  induction opcodes generalizing record reader rounds with
  | nil =>
      obtain ⟨rounds, rfl⟩ := Nat.exists_eq_add_one_of_ne_zero hrounds.ne'
      obtain rfl : recordEnd = reader.position := hend
      have hround : instructionRound limits reader.position record reader =
          .ok (.done record) reader := by
        rw [instructionRound, bind_of_ok (get_apply reader),
          if_neg (Nat.lt_irrefl _), pure_apply]
      rw [loop_of_done hround, List.map_nil, List.append_nil]
      rfl
  | cons opcode opcodes ih =>
      obtain ⟨rounds, rfl⟩ := Nat.exists_eq_add_one_of_ne_zero
        (Nat.ne_zero_of_lt hrounds)
      have hsplit : opcodeBytes order (opcode :: opcodes) =
          opcode.bytes order ++ opcodeBytes order opcodes := rfl
      have hpositive := List.length_pos_iff.mpr (opcode.bytes_ne_nil order)
      rw [List.length_cons] at hroom hrounds
      rw [hsplit, List.append_assoc] at hahead
      rw [hsplit, List.length_append, ← Nat.add_assoc] at hend
      obtain ⟨next, hread, hnext⟩ := readInstruction_consumes opcode
        (UInt64.ofNat reader.position) reader _ (Nat.zero_le _) hahead
      obtain rfl := hahead.eq_movedTo hnext
      have happend : appendUnwindInstruction limits
          (UInt64.ofNat reader.position) record opcode.recorded =
            .ok { record with
              instructions := record.instructions ++ [opcode.recorded] } :=
        rejectIf_except_bind_eq_ok.mpr ⟨by omega, rfl⟩
      have hround : instructionRound limits recordEnd record reader =
          .ok (.yield { record with
            instructions := record.instructions ++ [opcode.recorded] })
            (reader.movedTo (reader.position + (opcode.bytes order).length)) := by
        rw [instructionRound, bind_of_ok (get_apply reader),
          if_pos (by omega), bind_of_ok hread,
          liftExcept_bind_of_ok happend, pure_apply]
      rw [loop_of_yield hround, ih hnext hend (by
          rw [List.length_append, List.length_singleton]
          omega) (by omega), List.map_cons, List.append_assoc]
      rfl

theorem parseCfiInstructions_opcodes {opcodes : List FrameOpcode}
    {record : UnwindRecord} {reader : ByteReader} {recordEnd : ℕ}
    (hahead : AheadOf order data reader (opcodeBytes order opcodes ++ tail))
    (hend : recordEnd = reader.position + (opcodeBytes order opcodes).length)
    (hroom : record.instructions.length + opcodes.length ≤
      limits.maxDisassemblyInstructions.toNat) :
    parseCfiInstructions limits recordEnd record reader =
      .ok { record with
        instructions := record.instructions ++
          opcodes.map FrameOpcode.recorded } (reader.movedTo recordEnd) := by
  have hcount := length_le_opcodeBytes order opcodes
  have hremaining := hahead.1.remaining
  rw [List.length_append] at hremaining
  unfold parseCfiInstructions
  rw [bind_of_ok (get_apply reader),
    bind_of_ok (instructionLoop_opcodes hahead hend hroom (by omega)),
    bind_of_ok (get_apply _), rejectIf_bind_of_not (by simp), pure_apply]

/-! ## Records -/

/-- What stands behind the identifier; a common record has no frame. -/
inductive FrameContents
  | common (rest : Bytes)
  | frame (identifier : UInt32) (first range : UInt64)
      (opcodes : List FrameOpcode)
  deriving DecidableEq, Repr

/-- A record, with the form its length is written in. -/
structure CallFrameRecord where
  extended : Bool := false
  contents : FrameContents
  deriving DecidableEq, Repr

def FrameContents.bytes (order : ByteOrder) (wordSize : WordSize) :
    FrameContents → Bytes
  | .common rest => word order 0 ++ rest
  | .frame identifier first range opcodes =>
      word order identifier ++
        (address (wordSize = .bits64) order first ++
          (address (wordSize = .bits64) order range ++
            opcodeBytes order opcodes))

def lengthBytes (order : ByteOrder) (extended : Bool) (length : ℕ) : Bytes :=
  if extended then
    word order 0xffffffff ++ address true order (UInt64.ofNat length)
  else word order (UInt32.ofNat length)

namespace CallFrameRecord

def body (order : ByteOrder) (wordSize : WordSize) (record : CallFrameRecord) :
    Bytes :=
  record.contents.bytes order wordSize

def header (order : ByteOrder) (wordSize : WordSize)
    (record : CallFrameRecord) : Bytes :=
  lengthBytes order record.extended (record.body order wordSize).length

def bytes (order : ByteOrder) (wordSize : WordSize) (record : CallFrameRecord) :
    Bytes :=
  record.header order wordSize ++ record.body order wordSize

/-- The record of a frame, at the addresses it has in the section. -/
def recorded (sectionAddress : UInt64) (record : CallFrameRecord) :
    Option UnwindRecord :=
  match record.contents with
  | .common _ => none
  | .frame _ first range opcodes =>
      some { startAddress := first + sectionAddress
             endAddress := first + range + sectionAddress
             instructions := opcodes.map FrameOpcode.recorded }

/-- How many bytes the frame covers. -/
def covered (record : CallFrameRecord) : ℕ :=
  match record.contents with
  | .common _ => 0
  | .frame _ _ range _ => range.toNat

end CallFrameRecord

/-- The contents have a place in their record. -/
def FrameContents.Fits (limits : Limits) (sectionAddress : UInt64)
    (wordSize : WordSize) : FrameContents → Prop
  | .common _ => True
  | .frame identifier first range opcodes =>
      identifier ≠ 0 ∧ FitsField (wordSize = .bits64) first ∧
        FitsField (wordSize = .bits64) range ∧
        first.toNat + range.toNat + sectionAddress.toNat < 2 ^ 64 ∧
        opcodes.length ≤ limits.maxDisassemblyInstructions.toNat

structure CallFrameRecord.Fits (limits : Limits) (sectionAddress : UInt64)
    (order : ByteOrder) (wordSize : WordSize) (record : CallFrameRecord) :
    Prop where
  length : record.extended = true ∨
    (record.body order wordSize).length < 0xffffffff
  contents : record.contents.Fits limits sectionAddress wordSize

theorem FrameContents.bytes_length_pos (order : ByteOrder)
    (wordSize : WordSize) (contents : FrameContents) :
    4 ≤ (contents.bytes order wordSize).length := by
  cases contents <;> simp [FrameContents.bytes]

theorem readLength_consumes {record : CallFrameRecord} (place : UInt64)
    (hfits : record.Fits limits sectionAddress order wordSize)
    (hsmall : (record.body order wordSize).length < 2 ^ 64) :
    Consumes (AheadOf order data) 0 (readLength place)
      (record.header order wordSize)
      (some (UInt64.ofNat (record.body order wordSize).length)) := by
  have hpositive : 4 ≤ (record.body order wordSize).length :=
    record.contents.bytes_length_pos order wordSize
  have hlength := hfits.length
  unfold readLength CallFrameRecord.header lengthBytes reporting
  cases hform : record.extended with
  | true =>
      refine (Consumes.adaptError _ (readWord32_consumes_of _)).bind ?_
      rw [if_neg (by decide), if_pos rfl]
      exact (Consumes.adaptError _ (readU64_consumes_of _)).bind_last
        (Consumes.pure _)
  | false =>
      rw [hform] at hlength
      replace hlength := hlength.resolve_left Bool.false_ne_true
      have hvalue : (UInt32.ofNat
          (record.body order wordSize).length).toNat =
            (record.body order wordSize).length :=
        UInt32.toNat_ofNat_of_lt' (by show _ < 2 ^ 32; omega)
      rw [if_neg Bool.false_ne_true]
      refine (Consumes.adaptError _ (readWord32_consumes_of _)).bind_last ?_
      rw [if_neg, if_neg]
      · have hwide : (UInt32.ofNat
            (record.body order wordSize).length).toUInt64 =
              UInt64.ofNat (record.body order wordSize).length := by
          rw [← UInt64.toNat_inj, UInt32.toNat_toUInt64, hvalue,
            UInt64.toNat_ofNat_of_lt' hsmall]
        rw [hwide]
        exact Consumes.pure _
      · rw [← UInt32.toNat_inj, hvalue]
        simp only [UInt32.reduceToNat]
        omega
      · rw [← UInt32.toNat_inj, hvalue]
        simp only [UInt32.reduceToNat]
        omega

/-! ## One round -/

theorem readFrame_contents {identifier : UInt32} {first range : UInt64}
    {opcodes : List FrameOpcode} {reader : ByteReader} {recordEnd : ℕ}
    (place : UInt64)
    (hfits : (FrameContents.frame identifier first range opcodes).Fits limits
      sectionAddress wordSize)
    (hahead : AheadOf order data reader
      (address (wordSize = .bits64) order first ++
        (address (wordSize = .bits64) order range ++
          opcodeBytes order opcodes) ++ tail))
    (hend : recordEnd = reader.position +
      (address (wordSize = .bits64) order first ++
        (address (wordSize = .bits64) order range ++
          opcodeBytes order opcodes)).length) :
    readFrame limits sectionAddress wordSize place recordEnd reader =
      .ok { startAddress := first + sectionAddress
            endAddress := first + range + sectionAddress
            instructions := opcodes.map FrameOpcode.recorded }
        (reader.movedTo recordEnd) := by
  obtain ⟨-, hfirst, hrange, hsum, hcount⟩ := hfits
  have hlast : (first + range).toNat = first.toNat + range.toNat :=
    toNat_add_of_fit (by omega)
  have hbound : Consumes (AheadOf order data) 0 (do
      let range ← readAddress wordSize
      demand (checkedAdd first range) ())
      (address (wordSize = .bits64) order range) (first + range) := by
    refine (readWord_consumes_of hrange).bind_last ?_
    rw [checkedAdd_eq_some.mpr ⟨by omega, rfl⟩]
    exact Consumes.pure _
  have hbase : Consumes (AheadOf order data) 0 (readAddress wordSize)
      (address (wordSize = .bits64) order first) first :=
    readWord_consumes_of hfirst
  have hboth : AheadOf order data reader
      ((address (wordSize = .bits64) order first ++
        address (wordSize = .bits64) order range) ++
          (opcodeBytes order opcodes ++ tail)) := by
    simpa only [List.append_assoc] using hahead
  rw [List.append_assoc] at hahead
  obtain ⟨middle, hreadFirst, hmiddle⟩ := (Consumes.adaptError
    (reportAt .truncated "frame start address is truncated") hbase)
    reader _ (Nat.zero_le _) hahead
  rw [List.append_assoc] at hmiddle
  obtain ⟨next, hreadRange, hnext⟩ := (Consumes.adaptError
    (reportAt .addressOverflow "frame address range is invalid") hbound)
    middle _ (Nat.zero_le _) hmiddle
  have hmoved : next = reader.movedTo (reader.position +
      (address (wordSize = .bits64) order first ++
        address (wordSize = .bits64) order range).length) :=
    hboth.eq_movedTo hnext
  have hinstructions := @parseCfiInstructions_opcodes limits order data tail
    opcodes { startAddress := first + sectionAddress
              endAddress := first + range + sectionAddress } next recordEnd
    hnext (by
      rw [hend, hmoved, movedTo_position, ← List.append_assoc,
        List.length_append, Nat.add_assoc]) (by simpa using hcount)
  unfold readFrame
  rw [bind_of_ok hreadFirst, bind_of_ok hreadRange,
    demand_bind_of_some (checkedAdd_eq_some.mpr ⟨by omega, rfl⟩),
    demand_bind_of_some (checkedAdd_eq_some.mpr ⟨by omega, rfl⟩),
    hinstructions, hmoved]
  rfl

theorem addRecord_frame {first range : UInt64} {report : UnwindReport}
    {instructions : List UnwindInstruction} (place : UInt64)
    (hcount : report.records.length + 1 ≤ limits.maxDebugUnits.toNat)
    (hcovered : report.coveredBytes.toNat + range.toNat < 2 ^ 64) :
    let record : UnwindRecord :=
      { startAddress := first + sectionAddress
        endAddress := first + range + sectionAddress, instructions }
    addRecord limits place report record =
      .ok { report with
        coveredBytes := report.coveredBytes + range
        records := report.records ++ [record] } := by
  intro record
  have hrange : record.endAddress - record.startAddress = range := by
    show first + range + sectionAddress - (first + sectionAddress) = range
    grind
  unfold addRecord
  rw [hrange, demand_except_bind_eq_ok]
  refine ⟨_, checkedAdd_eq_some.mpr ⟨hcovered, rfl⟩, ?_⟩
  exact rejectIf_except_bind_eq_ok.mpr ⟨by omega, rfl⟩

/-- Where the contents of a record at this offset begin. -/
def contentsAt (order : ByteOrder) (wordSize : WordSize) (offset : ℕ)
    (record : CallFrameRecord) : UInt64 :=
  UInt64.ofNat (offset + (record.header order wordSize).length)

/-- The walk behind a record at this offset. -/
def FrameWalk.enter (order : ByteOrder) (wordSize : WordSize)
    (sectionAddress : UInt64) (offset : ℕ) (walk : FrameWalk)
    (record : CallFrameRecord) : FrameWalk :=
  match record.contents with
  | .common _ =>
      { walk with
        cieOffsets := walk.cieOffsets.assign (UInt64.ofNat offset)
          (UInt64.ofNat (offset + (record.bytes order wordSize).length)) }
  | .frame identifier _ range _ =>
      let noted := walk.note
        (contentsAt order wordSize offset record - identifier.toUInt64)
      { walk with
        report := { noted with
          coveredBytes := noted.coveredBytes + range
          records := noted.records ++
            (record.recorded sectionAddress).toList } }

@[simp] theorem note_coveredBytes (walk : FrameWalk) (cieAddress : UInt64) :
    (walk.note cieAddress).coveredBytes = walk.report.coveredBytes := by
  unfold FrameWalk.note
  split <;> rfl

@[simp] theorem note_records (walk : FrameWalk) (cieAddress : UInt64) :
    (walk.note cieAddress).records = walk.report.records := by
  unfold FrameWalk.note
  split <;> rfl

theorem enter_records (offset : ℕ) (walk : FrameWalk)
    (record : CallFrameRecord) :
    (walk.enter order wordSize sectionAddress offset record).report.records =
      walk.report.records ++ (record.recorded sectionAddress).toList := by
  unfold FrameWalk.enter CallFrameRecord.recorded
  cases record.contents with
  | common rest => exact (List.append_nil _).symm
  | frame identifier first range opcodes => simp only [note_records]

theorem covered_toNat (record : CallFrameRecord) :
    (UInt64.ofNat record.covered).toNat = record.covered := by
  refine UInt64.toNat_ofNat_of_lt' ?_
  unfold CallFrameRecord.covered
  cases record.contents with
  | common rest => exact Nat.two_pow_pos 64
  | frame identifier first range opcodes => exact range.toNat_lt

theorem enter_coveredBytes (offset : ℕ) (walk : FrameWalk)
    (record : CallFrameRecord) :
    (walk.enter order wordSize sectionAddress offset
        record).report.coveredBytes =
      walk.report.coveredBytes + UInt64.ofNat record.covered := by
  unfold FrameWalk.enter CallFrameRecord.covered
  cases record.contents with
  | common rest => exact (UInt64.add_zero _).symm
  | frame identifier first range opcodes =>
      simp only [note_coveredBytes, UInt64.ofNat_toNat]

theorem readRecord_record {record : CallFrameRecord} {walk : FrameWalk}
    {reader : ByteReader} {offset : ℕ}
    (hfits : record.Fits limits sectionAddress order wordSize)
    (hcount : walk.report.records.length +
      (record.recorded sectionAddress).toList.length ≤
        limits.maxDebugUnits.toNat)
    (hcovered : walk.report.coveredBytes.toNat + record.covered < 2 ^ 64)
    (hahead : AheadOf order data reader (record.body order wordSize ++ tail))
    (hplace : reader.position =
      offset + (record.header order wordSize).length) :
    readRecord limits sectionAddress wordSize (UInt64.ofNat offset)
        (UInt64.ofNat (record.body order wordSize).length) walk reader =
      .ok (walk.enter order wordSize sectionAddress offset record)
        (reader.movedTo (offset + (record.bytes order wordSize).length)) := by
  have hlength := hahead.1.length
  have hsmall := hahead.1.addressable
  have hremaining := hahead.1.remaining
  rw [List.length_append] at hlength hremaining
  have hsize : (UInt64.ofNat (record.body order wordSize).length).toNat =
      (record.body order wordSize).length :=
    UInt64.toNat_ofNat_of_lt' (by show _ < 2 ^ 64; omega)
  have hend : offset + (record.bytes order wordSize).length =
      reader.position + (record.body order wordSize).length := by
    rw [CallFrameRecord.bytes, List.length_append]
    omega
  have hword : ∀ {value : UInt32} {rest : Bytes},
      AheadOf order data reader (word order value ++ rest) →
        silently readU32 reader =
            .ok value (reader.movedTo (reader.position + 4)) ∧
          AheadOf order data (reader.movedTo (reader.position + 4)) rest := by
    intro value rest hvalue
    obtain ⟨next, hread, hnext⟩ := silently_consumes_of
      (readWord32_consumes_of value) reader rest (Nat.zero_le _) hvalue
    obtain rfl := hvalue.eq_movedTo hnext
    rw [word_length] at hread hnext
    exact ⟨hread, hnext⟩
  unfold readRecord
  rw [bind_of_ok (get_apply reader), rejectIf_bind_of_not (by omega), hsize,
    ← hend]
  unfold CallFrameRecord.body at hahead hlength
  unfold FrameWalk.enter
  have hcontents := hfits.contents
  cases hrecord : record.contents with
  | common rest =>
      rw [hrecord, FrameContents.bytes, List.append_assoc] at hahead
      obtain ⟨hread, -⟩ := hword hahead
      have hrecordEnd : (UInt64.ofNat
          (offset + (record.bytes order wordSize).length)).toNat =
            offset + (record.bytes order wordSize).length :=
        UInt64.toNat_ofNat_of_lt' (by
          show _ < 2 ^ 64
          rw [hend]
          unfold CallFrameRecord.body
          omega)
      have hseek : silently (seek (UInt64.ofNat
          (offset + (record.bytes order wordSize).length)))
            (reader.movedTo (reader.position + 4)) =
          .ok () (reader.movedTo
            (offset + (record.bytes order wordSize).length)) := by
        refine adaptError_eq_ok.mpr (seek_eq_ok.mpr ?_)
        rw [hrecordEnd, hend]
        unfold CallFrameRecord.body
        refine ⟨?_, rfl⟩
        show _ ≤ reader.data.length
        omega
      rw [bind_of_ok hread, if_pos rfl, bind_of_ok hseek, pure_apply]
  | frame identifier first range opcodes =>
      rw [hrecord] at hcontents
      have hidentifier : identifier ≠ 0 := hcontents.1
      rw [hrecord, FrameContents.bytes, List.append_assoc] at hahead
      obtain ⟨hread, hnext⟩ := hword hahead
      have hrecorded : record.recorded sectionAddress =
          some { startAddress := first + sectionAddress
                 endAddress := first + range + sectionAddress
                 instructions := opcodes.map FrameOpcode.recorded } := by
        rw [CallFrameRecord.recorded, hrecord]
      rw [hrecorded] at hcount
      have hrange : record.covered = range.toNat := by
        rw [CallFrameRecord.covered, hrecord]
      have hrecordEnd : offset + (record.bytes order wordSize).length =
          reader.position + 4 +
            (address (wordSize = .bits64) order first ++
              (address (wordSize = .bits64) order range ++
                opcodeBytes order opcodes)).length := by
        rw [hend, CallFrameRecord.body, hrecord, FrameContents.bytes,
          List.length_append, word_length, Nat.add_assoc]
      have hframe := readFrame_contents (UInt64.ofNat offset) hcontents hnext
        hrecordEnd
      rw [bind_of_ok hread, if_neg hidentifier, bind_of_ok hframe,
        liftExcept_bind_of_ok (addRecord_frame (UInt64.ofNat offset)
          (by simpa using hcount) (by
            rw [note_coveredBytes, ← hrange]
            exact hcovered)), pure_apply, hplace, hrecorded]
      rfl

theorem recordRound_record {record : CallFrameRecord} {walk : FrameWalk}
    {reader : ByteReader}
    (hfits : record.Fits limits sectionAddress order wordSize)
    (hcount : walk.report.records.length +
      (record.recorded sectionAddress).toList.length ≤
        limits.maxDebugUnits.toNat)
    (hcovered : walk.report.coveredBytes.toNat + record.covered < 2 ^ 64)
    (hahead : AheadOf order data reader
      (record.bytes order wordSize ++ tail)) :
    recordRound limits sectionAddress wordSize walk reader =
      .ok (.yield
          (walk.enter order wordSize sectionAddress reader.position record))
        (reader.movedTo
          (reader.position + (record.bytes order wordSize).length)) := by
  have hremaining := hahead.1.remaining
  have hlength := hahead.1.length
  have hsmall := hahead.1.addressable
  have hpositive : 4 ≤ (record.body order wordSize).length :=
    record.contents.bytes_length_pos order wordSize
  rw [CallFrameRecord.bytes, List.append_assoc] at hahead
  rw [CallFrameRecord.bytes, List.length_append, List.length_append]
    at hremaining hlength
  obtain ⟨content, hread, hcontent⟩ := readLength_consumes
    (UInt64.ofNat reader.position) hfits (by omega) reader _ (Nat.zero_le _)
    hahead
  obtain rfl := hahead.eq_movedTo hcontent
  have hrecord := readRecord_record hfits hcount hcovered hcontent rfl
  rw [recordRound, bind_of_ok (get_apply reader), if_neg (by omega),
    bind_of_ok hread]
  dsimp only
  rw [bind_of_ok hrecord, pure_apply]
  rfl

/-- A section ends with its input, or at a length of zero. -/
theorem recordRound_ends {walk : FrameWalk} {reader : ByteReader}
    (hahead : AheadOf order data reader tail)
    (hends : tail = [] ∨ word order 0 <+: tail) :
    ∃ last, recordRound limits sectionAddress wordSize walk reader =
      .ok (.done walk) last := by
  have hremaining := hahead.1.remaining
  rw [recordRound, bind_of_ok (get_apply reader)]
  rcases hends with rfl | ⟨rest, rfl⟩
  · rw [if_pos (show reader.remaining = 0 from hremaining)]
    exact ⟨reader, rfl⟩
  · rw [List.length_append, word_length] at hremaining
    obtain ⟨next, hread, -⟩ := (Consumes.adaptError (fun _ _ =>
      failure .truncated (UInt64.ofNat reader.position)
        "call-frame record length is truncated")
      (readWord32_consumes_of 0)) reader rest (Nat.zero_le _) hahead
    have hlength : readLength (UInt64.ofNat reader.position) reader =
        .ok none next := by
      rw [readLength]
      unfold reporting
      rw [bind_of_ok hread, if_pos rfl, pure_apply]
    rw [if_neg (by omega), bind_of_ok hlength]
    exact ⟨next, rfl⟩

/-! ## The whole section -/

/-- The walk behind records that follow one another from this offset on. -/
def FrameWalk.enterAll (order : ByteOrder) (wordSize : WordSize)
    (sectionAddress : UInt64) :
    ℕ → FrameWalk → List CallFrameRecord → FrameWalk
  | _, walk, [] => walk
  | offset, walk, record :: records =>
      enterAll order wordSize sectionAddress
        (offset + (record.bytes order wordSize).length)
        (walk.enter order wordSize sectionAddress offset record) records

/-- How many frames name an offset at which no common record was seen. -/
def strays (order : ByteOrder) (wordSize : WordSize) :
    List UInt64 → ℕ → List CallFrameRecord → ℕ
  | _, _, [] => 0
  | seen, offset, record :: records =>
      let next := offset + (record.bytes order wordSize).length
      match record.contents with
      | .common _ =>
          strays order wordSize (UInt64.ofNat offset :: seen) next records
      | .frame identifier _ _ _ =>
          (if contentsAt order wordSize offset record - identifier.toUInt64 ∈
            seen then 0 else 1) + strays order wordSize seen next records

def sectionBytes (order : ByteOrder) (wordSize : WordSize)
    (records : List CallFrameRecord) : Bytes :=
  records.flatMap (CallFrameRecord.bytes order wordSize)

theorem length_le_sectionBytes (order : ByteOrder) (wordSize : WordSize)
    (records : List CallFrameRecord) :
    records.length ≤ (sectionBytes order wordSize records).length := by
  induction records with
  | nil => exact le_rfl
  | cons record records ih =>
      have hpositive : 4 ≤ (record.body order wordSize).length :=
        record.contents.bytes_length_pos order wordSize
      rw [sectionBytes, List.flatMap_cons, List.length_append, List.length_cons,
        CallFrameRecord.bytes, List.length_append, ← sectionBytes]
      omega

theorem toList_append_filterMap {α β : Type} (action : α → Option β) (item : α)
    (items : List α) :
    (action item).toList ++ items.filterMap action =
      (item :: items).filterMap action := by
  cases haction : action item with
  | none => rw [List.filterMap_cons_none haction]; rfl
  | some result => rw [List.filterMap_cons_some haction]; rfl

theorem recordLoop_records {records : List CallFrameRecord} {walk : FrameWalk}
    {reader : ByteReader} {rounds : ℕ}
    (hfits : ∀ record ∈ records,
      record.Fits limits sectionAddress order wordSize)
    (hcount : walk.report.records.length +
      (records.filterMap (CallFrameRecord.recorded sectionAddress)).length ≤
        limits.maxDebugUnits.toNat)
    (hcovered : walk.report.coveredBytes.toNat +
      (records.map CallFrameRecord.covered).sum < 2 ^ 64)
    (hahead : AheadOf order data reader
      (sectionBytes order wordSize records ++ tail))
    (hends : tail = [] ∨ word order 0 <+: tail)
    (hrounds : records.length < rounds) :
    ∃ last, loop (recordRound limits sectionAddress wordSize) rounds walk
      reader = .ok (walk.enterAll order wordSize sectionAddress
        reader.position records) last := by
  induction records generalizing walk reader rounds with
  | nil =>
      obtain ⟨rounds, rfl⟩ := Nat.exists_eq_add_one_of_ne_zero hrounds.ne'
      obtain ⟨last, hround⟩ := recordRound_ends hahead hends
      exact ⟨last, loop_of_done hround⟩
  | cons record records ih =>
      obtain ⟨rounds, rfl⟩ := Nat.exists_eq_add_one_of_ne_zero
        (Nat.ne_zero_of_lt hrounds)
      obtain ⟨hrecordFits, hrestFits⟩ := List.forall_mem_cons.mp hfits
      rw [← toList_append_filterMap, List.length_append,
        ← Nat.add_assoc] at hcount
      rw [List.map_cons, List.sum_cons, ← Nat.add_assoc] at hcovered
      rw [sectionBytes, List.flatMap_cons, List.append_assoc,
        ← sectionBytes] at hahead
      have hround := recordRound_record hrecordFits
        ((Nat.le_add_right _ _).trans hcount)
        ((Nat.le_add_right _ _).trans_lt hcovered) hahead
      rw [loop_of_yield hround]
      refine ih hrestFits ?_ ?_ hahead.moved (Nat.succ_lt_succ_iff.mp hrounds)
      · rw [enter_records, List.length_append]
        exact hcount
      · rw [enter_coveredBytes, toNat_add_of_fit, covered_toNat]
        · exact hcovered
        · rw [covered_toNat]
          exact (Nat.le_add_right _ _).trans_lt hcovered

theorem note_warnings (walk : FrameWalk) (cieAddress : UInt64) :
    (walk.note cieAddress).warnings = walk.report.warnings ++
      List.replicate
        (if walk.cieOffsets.contains cieAddress then 0 else 1)
        (ascii "frame record references unknown CIE") := by
  unfold FrameWalk.note
  split
  · exact (List.append_nil _).symm
  · rfl

/-- The report holds the frames in order; the common records only decide which
frames are warned of. -/
theorem enterAll_report {records : List CallFrameRecord} {offset : ℕ}
    {walk : FrameWalk} {seen : List UInt64}
    (hseen : ∀ key, walk.cieOffsets.contains key = true ↔ key ∈ seen) :
    (walk.enterAll order wordSize sectionAddress offset records).report =
      { records := walk.report.records ++
          records.filterMap (CallFrameRecord.recorded sectionAddress)
        coveredBytes := walk.report.coveredBytes +
          UInt64.ofNat (records.map CallFrameRecord.covered).sum
        warnings := walk.report.warnings ++
          List.replicate (strays order wordSize seen offset records)
            (ascii "frame record references unknown CIE") } := by
  induction records generalizing offset walk seen with
  | nil =>
      simp only [FrameWalk.enterAll, strays, List.filterMap_nil, List.map_nil,
        List.sum_nil, List.replicate_zero, List.append_nil]
      rw [show UInt64.ofNat 0 = 0 from rfl, UInt64.add_zero]
  | cons record records ih =>
      have hrecords := @enter_records order wordSize sectionAddress offset walk
        record
      have hcovered := @enter_coveredBytes order wordSize sectionAddress offset
        walk record
      rw [FrameWalk.enterAll, ← toList_append_filterMap, ← List.append_assoc,
        ← hrecords, List.map_cons, List.sum_cons, UInt64.ofNat_add,
        ← UInt64.add_assoc, ← hcovered]
      unfold strays
      cases hcontents : record.contents with
      | common rest =>
          have hentered : (walk.enter order wordSize sectionAddress offset
              record).report.warnings = walk.report.warnings := by
            rw [FrameWalk.enter, hcontents]
          rw [← hentered]
          refine ih fun key => ?_
          rw [FrameWalk.enter, hcontents]
          dsimp only
          rw [contains_assign, hseen, List.mem_cons]
      | frame identifier first range opcodes =>
          have hentered : (walk.enter order wordSize sectionAddress offset
              record).report.warnings = walk.report.warnings ++
                List.replicate (if contentsAt order wordSize offset record -
                  identifier.toUInt64 ∈ seen then 0 else 1)
                  (ascii "frame record references unknown CIE") := by
            rw [FrameWalk.enter, hcontents]
            dsimp only
            rw [note_warnings]
            simp only [hseen]
          rw [List.replicate_add, ← List.append_assoc, ← hentered]
          refine ih fun key => ?_
          rw [FrameWalk.enter, hcontents]
          exact hseen key

/-- Reading a written section gives the ranges and instructions of its
frames. -/
theorem parseEhFrame_sectionBytes {records : List CallFrameRecord}
    (hsize : (sectionBytes order wordSize records ++ tail).length ≤
      limits.maxDebugBytes.toNat)
    (hfits : ∀ record ∈ records,
      record.Fits limits sectionAddress order wordSize)
    (hcount : (records.filterMap
      (CallFrameRecord.recorded sectionAddress)).length ≤
        limits.maxDebugUnits.toNat)
    (hcovered : (records.map CallFrameRecord.covered).sum < 2 ^ 64)
    (hends : tail = [] ∨ word order 0 <+: tail) :
    parseEhFrame limits (sectionBytes order wordSize records ++ tail)
        sectionAddress wordSize order =
      .ok { records := records.filterMap
              (CallFrameRecord.recorded sectionAddress)
            coveredBytes :=
              UInt64.ofNat (records.map CallFrameRecord.covered).sum
            warnings := List.replicate (strays order wordSize [] 0 records)
              (ascii "frame record references unknown CIE") } := by
  have hsmall : (sectionBytes order wordSize records ++ tail).length < 2 ^ 64 :=
    hsize.trans_lt limits.maxDebugBytes.toNat_lt
  have hrecords := length_le_sectionBytes order wordSize records
  obtain ⟨last, hloop⟩ := @recordLoop_records limits order _ tail wordSize
    sectionAddress records {} _
    ((sectionBytes order wordSize records ++ tail).length + 1) hfits
    ((Nat.zero_add _).trans_le hcount) ((Nat.zero_add _).trans_lt hcovered)
    ⟨aheadIn_start order hsmall, rfl⟩ hends (by
      rw [List.length_append]
      omega)
  have hreport := @enterAll_report order wordSize sectionAddress records 0 {} []
    fun key => by simp [OrderedMap.contains, OrderedMap.find?, OrderedMap.empty]
  rw [parseEhFrame, if_neg hsize.not_gt, hloop]
  dsimp only [ehFrameReport]
  rw [hreport, List.nil_append, List.nil_append, UInt64.zero_add]

/-- A common record, a frame of it behind a length in the long form, and a
frame of none. -/
def linkedRecords : List CallFrameRecord :=
  [{ contents := .common [1, 0, 0, 0] },
   { extended := true
     contents := .frame 24 16 8
      [.advance 1, .defineOffset 300, .offset 6 2, .rememberState] },
   { contents := .frame 2 0x100 0x40 [.advance2 5, .nop] }]

theorem parseEhFrame_sectionBytes_linked :
    parseEhFrame {} (sectionBytes .little .bits32 linkedRecords ++
        word .little 0) 0x1000 .bits32 .little =
      .ok { records :=
              [{ startAddress := 0x1010, endAddress := 0x1018
                 instructions :=
                  [{ value := 1 }, { operation := .allocateStack, offset := 300 },
                   { operation := .saveRegister, registerNumber := 6
                     offset := 2 }, { operation := .restoreState }] },
               { startAddress := 0x1100, endAddress := 0x1140
                 instructions := [{ value := 5 }, {}] }]
            coveredBytes := 72
            warnings := [ascii "frame record references unknown CIE"] } := by
  refine (parseEhFrame_sectionBytes (by decide) ?_ (by decide) (by decide)
    (Or.inr (List.prefix_refl _))).trans (by decide)
  intro record hrecord
  fin_cases hrecord
  · exact ⟨by decide, trivial⟩
  · exact ⟨by decide, by decide, by decide, by decide, by decide, by decide⟩
  · exact ⟨by decide, by decide, by decide, by decide, by decide, by decide⟩

end UnwindParser
end BinForge
