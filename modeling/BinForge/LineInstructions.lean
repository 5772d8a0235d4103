import BinForge.LineProgram
import BinForge.PortableReads

/-!
# The instructions of a line program

A round of the loop reads an instruction with its operands and carries it out,
so the rows of a program are a function of the instructions its bytes spell.
Reading is portable: an instruction does not depend on its place.
-/

namespace BinForge

open StatefulExcept
open StreamCodec
open InstructionStream
open ByteReader

namespace DebugInfoParser

inductive LineInstruction
  | endSequence
  | setAddress (address : UInt64)
  | otherExtended
  | copy
  | advancePc (advance : UInt64)
  | advanceLine (advance : Int64)
  | setFile (file : UInt32)
  | negateStatement
  | uninterpreted (op : UInt8)
  | special (op : UInt8)
  deriving DecidableEq, Repr

/-! ## Reading -/

/-- What follows the length of an extended opcode. -/
def readExtendedBody (addressSize : UInt8) (length : UInt64) :
    ReaderCall LineInstruction := do
  let extended ← readU8
  if extended = 1 then do
    skip (length - 1)
    return .endSequence
  else if extended = 2 then do
    rejectIf (length - 1 ≠ addressSize.toUInt64) ()
    let address ← readLineAddress addressSize
    return .setAddress address
  else do
    skip (length - 1)
    return .otherExtended

def readExtended (addressSize : UInt8) : ReaderCall LineInstruction := do
  let length ← readExtendedLength
  readExtendedBody addressSize length

def readStandard (op : UInt8) : ReaderCall LineInstruction :=
  if op = 1 then return .copy
  else if op = 2 then do
    let advance ← readUleb128
    return .advancePc advance
  else if op = 3 then do
    let advance ← readSleb128
    return .advanceLine advance
  else if op = 4 then do
    let file ← readFileNumber
    return .setFile file
  else if op = 6 then return .negateStatement
  else return .uninterpreted op

def readInstruction (opcodeBase addressSize : UInt8) :
    ReaderCall LineInstruction := do
  let op ← readU8
  if op = 0 then readExtended addressSize
  else if op < opcodeBase then readStandard op
  else return .special op

/-! ## Carrying out -/

def LineRegisters.row (registers : LineRegisters) (endSequence : Bool) :
    DebugLineRow :=
  { address := registers.address, file := registers.file
    line := registers.line.toUInt64.toUInt32
    statement := registers.statement, endSequence }

def LineRegisters.advanceAddress (registers : LineRegisters)
    (delta : UInt64) : Option LineRegisters :=
  (checkedAdd registers.address delta).map fun address =>
    { registers with address }

def LineRegisters.advanceLine (registers : LineRegisters) (delta : Int64) :
    Option LineRegisters :=
  if registers.line + delta < 0 then none
  else some { registers with line := registers.line + delta }

/-- The registers behind an instruction and the rows that it pushes. -/
def execute (header : LineHeader) (registers : LineRegisters) :
    LineInstruction → Option (LineRegisters × List DebugLineRow)
  | .endSequence => some (header.initial, [registers.row true])
  | .setAddress address => some ({ registers with address }, [])
  | .otherExtended => some (registers, [])
  | .copy => some (registers, [registers.row false])
  | .advancePc advance => do
      let moved ← registers.advanceAddress
        (advance * header.minimumInstruction.toUInt64)
      return (moved, [])
  | .advanceLine advance => do
      let moved ← registers.advanceLine advance
      return (moved, [])
  | .setFile file => some ({ registers with file }, [])
  | .negateStatement =>
      some ({ registers with statement := !registers.statement }, [])
  | .uninterpreted _ => some (registers, [])
  | .special op => do
      let further ← registers.advanceAddress (header.addressDelta op)
      let moved ← further.advanceLine (header.lineDelta op)
      return (moved, [moved.row false])

/-- The state behind an instruction. -/
def LineState.push (state : LineState) (rows : List DebugLineRow) :
    LineState :=
  { state with unit.lines := state.unit.lines ++ rows }

/-! ## A round -/

section Rounds

variable {header : LineHeader} {addressSize : UInt8}
variable {registers after : LineRegisters} {state : LineState}

/-- The call reads an instruction and carries it out; one that it cannot read
or carry out leaves the unit as it was. -/
structure CarriesOut (header : LineHeader) (registers : LineRegisters)
    (call : LineCall LineRegisters) (read : ReaderCall LineInstruction)
    (state : LineState) : Prop where
  done : ∀ instruction next after rows,
    read state.reader = .ok instruction next →
    execute header registers instruction = some (after, rows) →
    call state = .ok after ({ state with reader := next }.push rows)
  failed :
    (∀ instruction next, read state.reader = .ok instruction next →
      execute header registers instruction = none) →
    ∃ why last, call state = .error why last ∧ last.unit = state.unit

theorem onReader_of_ok {α : Type} {action : DecodeCall α} {value : α}
    {next : ByteReader} (hrun : action state.reader = .ok value next) :
    onReader action state = .ok value { state with reader := next } := by
  rw [onReader, hrun]

/-- An operand that both sides read. -/
theorem CarriesOut.operand {α : Type} {action : ReaderCall α}
    {describe : ByteReader → Unit → Failure}
    {rest : α → LineCall LineRegisters} {read : α → ReaderCall LineInstruction}
    (hrest : ∀ value next, action state.reader = .ok value next →
      CarriesOut header registers (rest value) (read value)
        { state with reader := next }) :
    CarriesOut header registers
      (onReader (adaptError describe action) >>= rest) (action >>= read)
      state := by
  cases hrun : action state.reader with
  | ok value next =>
      have hcall : onReader (adaptError describe action) state =
          .ok value { state with reader := next } :=
        onReader_of_ok (adaptError_eq_ok.mpr hrun)
      constructor
      · intro instruction last after rows hread hexecute
        rw [bind_of_ok hrun] at hread
        rw [bind_of_ok hcall]
        exact (hrest value next hrun).done _ _ _ _ hread hexecute
      · intro hnone
        rw [bind_of_ok hcall]
        apply (hrest value next hrun).failed
        intro instruction last hread
        apply hnone instruction last
        rw [bind_of_ok hrun, hread]
  | error why next =>
      constructor
      · intro instruction last after rows hread
        rw [bind_apply, hrun] at hread
        contradiction
      · intro _
        rw [bind_apply, onReader, adaptError, hrun]
        exact ⟨_, _, rfl, rfl⟩

theorem CarriesOut.of_ok {call : LineCall LineRegisters}
    {read : ReaderCall LineInstruction} {instruction : LineInstruction}
    {next : ByteReader} {rows : List DebugLineRow}
    (hread : read state.reader = .ok instruction next)
    (hexecute : execute header registers instruction = some (after, rows))
    (hcall : call state = .ok after ({ state with reader := next }.push rows)) :
    CarriesOut header registers call read state := by
  constructor
  · intro found last behind more hfound hagain
    rw [hread, EStateM.Result.ok.injEq] at hfound
    obtain ⟨rfl, rfl⟩ := hfound
    rw [hexecute, Option.some.injEq, Prod.mk.injEq] at hagain
    obtain ⟨rfl, rfl⟩ := hagain
    exact hcall
  · intro hnone
    have hrefused := hnone instruction next hread
    rw [hexecute] at hrefused
    contradiction

theorem CarriesOut.returns {call : LineCall LineRegisters}
    {instruction : LineInstruction} {rows : List DebugLineRow}
    (hexecute : execute header registers instruction = some (after, rows))
    (hcall : call state = .ok after (state.push rows)) :
    CarriesOut header registers call (pure instruction) state :=
  CarriesOut.of_ok (pure_apply _ _) hexecute hcall

theorem CarriesOut.refuses {call : LineCall LineRegisters} {why : Failure}
    {read : ReaderCall LineInstruction}
    (hnone : ∀ instruction next, read state.reader = .ok instruction next →
      execute header registers instruction = none)
    (hcall : call state = .error why state) :
    CarriesOut header registers call read state := by
  constructor
  · intro instruction next after rows hread hexecute
    rw [hnone instruction next hread] at hexecute
    contradiction
  · intro _
    exact ⟨why, state, hcall, rfl⟩

theorem CarriesOut.refuses_one {call : LineCall LineRegisters} {why : Failure}
    {instruction : LineInstruction}
    (hexecute : execute header registers instruction = none)
    (hcall : call state = .error why state) :
    CarriesOut header registers call (pure instruction) state := by
  apply CarriesOut.refuses _ hcall
  intro found next hread
  rw [pure_eq_ok] at hread
  rw [← hread.1, hexecute]

@[simp] theorem LineState.push_reader (rows : List DebugLineRow) :
    (state.push rows).reader = state.reader := rfl

theorem LineState.push_nil : state.push [] = state := by
  simp [LineState.push]

theorem emit_apply (endSequence : Bool) :
    emit registers endSequence state =
      .ok () (state.push [registers.row endSequence]) := rfl

theorem lineFailure_apply {α : Type} (code : ErrorCode) (message : Bytes) :
    (lineFailure code message : LineCall α) state =
      .error (failure code (UInt64.ofNat state.reader.position) message)
        state := rfl

/-- No row is pushed. -/
theorem CarriesOut.silent {instruction : LineInstruction}
    (hexecute : execute header registers instruction = some (after, [])) :
    CarriesOut header registers (pure after) (pure instruction) state := by
  apply CarriesOut.returns hexecute
  rw [LineState.push_nil, pure_apply]

theorem advanceAddress_of_some {address delta : UInt64}
    (hsum : checkedAdd registers.address delta = some address) :
    registers.advanceAddress delta = some { registers with address } := by
  rw [LineRegisters.advanceAddress, hsum, Option.map_some]

theorem advanceAddress_of_none {delta : UInt64}
    (hsum : checkedAdd registers.address delta = none) :
    registers.advanceAddress delta = none := by
  rw [LineRegisters.advanceAddress, hsum, Option.map_none]

theorem advanceLine_of_negative {delta : Int64}
    (hnegative : registers.line + delta < 0) :
    registers.advanceLine delta = none := if_pos hnegative

theorem advanceLine_of_not {delta : Int64}
    (hnegative : ¬registers.line + delta < 0) :
    registers.advanceLine delta =
      some { registers with line := registers.line + delta } :=
  if_neg hnegative

/-- A sum that fits goes on with the address moved. -/
theorem CarriesOut.sum {delta : UInt64} {message : Bytes}
    {rest : UInt64 → LineCall LineRegisters} {instruction : LineInstruction}
    (hrefuses : registers.advanceAddress delta = none →
      execute header registers instruction = none)
    (hrest : ∀ address,
      registers.advanceAddress delta = some { registers with address } →
      CarriesOut header registers (rest address) (pure instruction) state) :
    CarriesOut header registers
      (lineSum registers.address delta message >>= rest) (pure instruction)
      state := by
  cases hsum : checkedAdd registers.address delta with
  | none =>
      apply CarriesOut.refuses_one (hrefuses (advanceAddress_of_none hsum))
      rw [bind_apply, lineSum, bind_of_ok (get_apply state), hsum]
      rfl
  | some address =>
      have hcall : lineSum registers.address delta message state =
          .ok address state := by
        rw [lineSum, bind_of_ok (get_apply state), hsum]
        rfl
      have hnext := hrest address (advanceAddress_of_some hsum)
      constructor
      · rw [bind_of_ok hcall]
        exact hnext.done
      · rw [bind_of_ok hcall]
        exact hnext.failed

theorem standardOpcode_carriesOut (op : UInt8) :
    CarriesOut header registers (standardOpcode header op registers)
      (readStandard op) state := by
  unfold standardOpcode readStandard
  split_ifs
  · exact CarriesOut.returns rfl rfl
  · apply CarriesOut.operand
    intro advance next _
    apply CarriesOut.sum
    · intro hnone
      rw [execute, hnone]
      rfl
    · intro address hmoved
      apply CarriesOut.silent
      rw [execute, hmoved]
      rfl
  · apply CarriesOut.operand
    intro advance next _
    split_ifs with hnegative
    · apply CarriesOut.refuses_one
      · rw [execute, advanceLine_of_negative hnegative]
        rfl
      · exact lineFailure_apply _ _
    · apply CarriesOut.silent
      rw [execute, advanceLine_of_not hnegative]
      rfl
  · apply CarriesOut.operand
    intro file next _
    exact CarriesOut.silent rfl
  · exact CarriesOut.silent rfl
  · exact CarriesOut.silent rfl

theorem specialOpcode_carriesOut (op : UInt8) :
    CarriesOut header registers (specialOpcode header op registers)
      (pure (.special op)) state := by
  unfold specialOpcode
  apply CarriesOut.sum
  · intro hnone
    rw [execute, hnone]
    rfl
  · intro address hmoved
    by_cases hnegative : registers.line + header.lineDelta op < 0
    · have hline : LineRegisters.advanceLine { registers with address }
          (header.lineDelta op) = none := if_pos hnegative
      apply CarriesOut.refuses_one
      · rw [execute, hmoved, Option.bind_eq_bind, Option.bind_some, hline]
        rfl
      · rw [bind_apply, rejectIf_of _ _ hnegative]
    · have hline : LineRegisters.advanceLine { registers with address }
          (header.lineDelta op) =
          some { registers with
            address, line := registers.line + header.lineDelta op } :=
        if_neg hnegative
      apply CarriesOut.returns
      · rw [execute, hmoved, Option.bind_eq_bind, Option.bind_some, hline]
        rfl
      · rw [rejectIf_bind_of_not hnegative]
        rfl

theorem length_pred {length : UInt64} (hpositive : length ≠ 0) :
    length.toNat = 1 + (length - 1).toNat := by
  have hone : 1 ≤ length.toNat :=
    Nat.one_le_iff_ne_zero.mpr fun hzero => hpositive (UInt64.toNat_inj.mp hzero)
  have hle : 1 ≤ length := UInt64.le_iff_toNat_le.mpr hone
  rw [UInt64.toNat_sub_of_le _ _ hle]
  exact (Nat.add_sub_cancel' hone).symm

/-- The bytes that a length announced are there to be skipped. -/
theorem skip_announced {order : ByteOrder} {bytes : Bytes} {amount : UInt64}
    (hahead : AheadIn order state.reader bytes)
    (hroom : amount.toNat ≤ bytes.length) :
    ∃ next, skip amount state.reader = .ok () next ∧
      onReader (attempt (skip amount)) state =
        .ok (some ()) { state with reader := next } := by
  have hlength := hahead.length
  have hskip : skip amount state.reader = .ok ()
      (state.reader.movedTo (state.reader.position + amount.toNat)) :=
    (skip_eq_ok hahead.inside hahead.addressable).mpr ⟨by omega, rfl⟩
  exact ⟨_, hskip, onReader_of_ok (attempt_of_ok hskip)⟩

/-- The opcode behind the length of an extended opcode. -/
theorem extendedBody_carriesOut {order : ByteOrder} {bytes : Bytes}
    {length : UInt64} {extended : UInt8}
    (hahead : AheadIn order state.reader bytes)
    (hroom : (length - 1).toNat ≤ bytes.length) :
    CarriesOut header registers
      (if extended = 1 then do
        emit registers true
        let _ ← onReader (attempt (skip (length - 1)))
        return header.initial
      else if extended = 2 then
        if length - 1 ≠ addressSize.toUInt64 then
          lineFailure .invalidDebugInfo "invalid set-address width"
        else do
          let address ← onReader (silently (readLineAddress addressSize))
          return { registers with address }
      else do
        let _ ← onReader (attempt (skip (length - 1)))
        return registers)
      (if extended = 1 then do
        skip (length - 1)
        return .endSequence
      else if extended = 2 then do
        rejectIf (length - 1 ≠ addressSize.toUInt64) ()
        let address ← readLineAddress addressSize
        return .setAddress address
      else do
        skip (length - 1)
        return .otherExtended) state := by
  split_ifs with hend haddress hwidth
  · obtain ⟨next, hskip, hcall⟩ :=
      @skip_announced (state.push [registers.row true]) _ _ _ hahead hroom
    rw [LineState.push_reader] at hskip
    have hread : (do
        skip (length - 1)
        return .endSequence : ReaderCall LineInstruction) state.reader =
          .ok .endSequence next := by
      rw [bind_of_ok hskip, pure_apply]
    apply CarriesOut.of_ok hread rfl
    rw [bind_of_ok (emit_apply true), bind_of_ok hcall]
    rfl
  · apply CarriesOut.refuses
    · intro instruction next hread
      rw [rejectIf_bind_eq_ok] at hread
      exact absurd hwidth hread.1
    · exact lineFailure_apply _ _
  · rw [rejectIf, if_neg hwidth, pure_bind]
    apply CarriesOut.operand
    intro address next _
    exact CarriesOut.silent rfl
  · obtain ⟨next, hskip, hcall⟩ := skip_announced hahead hroom
    have hread : (do
        skip (length - 1)
        return .otherExtended : ReaderCall LineInstruction) state.reader =
          .ok .otherExtended next := by
      rw [bind_of_ok hskip, pure_apply]
    apply CarriesOut.of_ok hread rfl
    rw [bind_of_ok hcall, LineState.push_nil]
    rfl

theorem extendedOpcode_carriesOut {order : ByteOrder} {bytes : Bytes}
    (hahead : AheadIn order state.reader bytes) :
    CarriesOut header registers (extendedOpcode header addressSize registers)
      (readExtended addressSize) state := by
  unfold extendedOpcode readExtended
  apply CarriesOut.operand
  intro length next hlength
  unfold readExtendedBody
  apply CarriesOut.operand
  intro extended last hextended
  rw [readExtendedLength, bind_eq_ok] at hlength
  obtain ⟨found, middle, hfound, hcheck⟩ := hlength
  rw [bind_of_ok (get_apply middle), rejectIf_bind_eq_ok, pure_eq_ok] at hcheck
  obtain ⟨hroom, rfl, rfl⟩ := hcheck
  obtain ⟨_, tail, _, hmiddle, _⟩ :=
    readUleb128_portable state.reader bytes _ _ hahead hfound
  obtain ⟨taken, rest, rfl, hlast, hleast, _⟩ :=
    readU8_portable _ tail _ _ hmiddle hextended
  have hremaining := hmiddle.remaining
  have hbehind := hlast.length
  have hbefore := hmiddle.length
  obtain ⟨_, _, rfl⟩ := readU8_at.mp hextended
  rw [List.length_append] at hremaining hbefore
  dsimp only [movedTo_position, movedTo_data] at hbehind
  apply extendedBody_carriesOut hlast
  have hpositive := length_pred fun hzero => hroom (.inl hzero)
  have hfit := not_lt.mp fun hlong => hroom (.inr hlong)
  omega

theorem lineRound_carriesOut {order : ByteOrder} {bytes : Bytes}
    (hahead : AheadIn order state.reader bytes) :
    CarriesOut header registers (lineRound header addressSize registers)
      (readInstruction header.opcodeBase addressSize) state := by
  unfold lineRound readInstruction
  apply CarriesOut.operand
  intro op next hop
  obtain ⟨_, tail, _, hnext, _⟩ :=
    readU8_portable state.reader bytes _ _ hahead hop
  split_ifs
  · exact extendedOpcode_carriesOut hnext
  · exact standardOpcode_carriesOut op
  · exact specialOpcode_carriesOut op

end Rounds

/-! ## Instructions are portable -/

section Portable

variable {order : ByteOrder} {addressSize : UInt8}

theorem readLineAddress_portable (hsize : addressSize = 4 ∨ addressSize = 8) :
    Portable (AheadIn order) addressSize.toNat (readLineAddress addressSize) := by
  unfold readLineAddress
  split_ifs with hfour
  · rw [hfour]
    apply Portable.bind_rest readU32_portable
    intro value
    exact Portable.pure _
  · rw [hsize.resolve_left hfour]
    exact readU64_portable

theorem readFileNumber_portable :
    Portable (AheadIn order) 1 readFileNumber := by
  apply Portable.bind_rest readUleb128_portable
  intro file
  apply Portable.rejectIf
  exact Portable.pure _

/-- The body is at least as long as its length says. -/
theorem readExtendedBody_portable (length : UInt64)
    (hsize : addressSize = 4 ∨ addressSize = 8) :
    Portable (AheadIn order) (1 + (length - 1).toNat)
      (readExtendedBody addressSize length) := by
  apply Portable.bind readU8_portable
  intro extended
  split_ifs
  · apply Portable.bind_rest (skip_portable _)
    intro _
    exact Portable.pure _
  · by_cases hwidth : length - 1 = addressSize.toUInt64
    · apply Portable.rejectIf
      rw [hwidth, UInt8.toNat_toUInt64]
      apply Portable.bind_rest (readLineAddress_portable hsize)
      intro _
      exact Portable.pure _
    · rw [rejectIf, if_pos hwidth]
      exact Portable.throw ()
  · apply Portable.bind_rest (skip_portable _)
    intro _
    exact Portable.pure _

theorem readExtended_portable (hsize : addressSize = 4 ∨ addressSize = 8) :
    Portable (AheadIn order) 0 (readExtended addressSize) := by
  have hsplit : readExtended addressSize = (do
      let length ← readUleb128
      let reader ← get
      rejectIf (length = 0 ∨ length.toNat > reader.remaining) ()
      readExtendedBody addressSize length : ReaderCall LineInstruction) := by
    simp only [readExtended, readExtendedLength, bind_assoc, pure_bind]
  rw [hsplit]
  apply Portable.weaken _ (Nat.zero_le 1)
  apply Portable.bind_rest readUleb128_portable
  intro length
  apply Portable.weaken _ (Nat.zero_le (1 + (length - 1).toNat))
  apply Portable.rejectIf_state (readExtendedBody_portable length hsize)
  intro cursor items other found _ hother hleast hpasses
  have hpositive : length ≠ 0 := fun hzero => hpasses (.inl hzero)
  have hlength := length_pred hpositive
  rw [hother.remaining]
  intro hfails
  exact hfails.elim hpositive (by omega)

theorem readStandard_portable (op : UInt8) :
    Portable (AheadIn order) 0 (readStandard op) := by
  unfold readStandard
  split_ifs
  · exact Portable.pure _
  · apply (Portable.bind_rest readUleb128_portable _).weaken (Nat.zero_le 1)
    intro _
    exact Portable.pure _
  · apply (Portable.bind_rest readSleb128_portable _).weaken (Nat.zero_le 1)
    intro _
    exact Portable.pure _
  · apply (Portable.bind_rest readFileNumber_portable _).weaken (Nat.zero_le 1)
    intro _
    exact Portable.pure _
  · exact Portable.pure _
  · exact Portable.pure _

theorem readInstruction_portable (opcodeBase : UInt8)
    (hsize : addressSize = 4 ∨ addressSize = 8) :
    Portable (AheadIn order) 1 (readInstruction opcodeBase addressSize) := by
  apply Portable.bind_rest readU8_portable
  intro op
  split_ifs
  · exact readExtended_portable hsize
  · exact readStandard_portable op
  · exact Portable.pure _

theorem readInstruction_readable (order : ByteOrder) (opcodeBase : UInt8)
    (hsize : addressSize = 4 ∨ addressSize = 8) :
    Readable (AheadIn order) remaining
      (readInstruction opcodeBase addressSize) :=
  ⟨fun _ _ hahead => hahead.remaining, readInstruction_portable opcodeBase hsize⟩

/-- A standard opcode without operands that are read, or a special one. -/
theorem readInstruction_consumes_byte {opcodeBase op : UInt8}
    {instruction : LineInstruction} (hop : op ≠ 0)
    (hstandard : op < opcodeBase → readStandard op = pure instruction)
    (hspecial : ¬op < opcodeBase → instruction = .special op) :
    Consumes (AheadIn order) 0 (readInstruction opcodeBase addressSize) [op]
      instruction := by
  apply Consumes.bind_last (readU8_consumes_in op)
  rw [if_neg hop]
  by_cases hbase : op < opcodeBase
  · rw [if_pos hbase, hstandard hbase]
    exact Consumes.pure _
  · rw [if_neg hbase, hspecial hbase]
    exact Consumes.pure _

end Portable

end DebugInfoParser
end BinForge
