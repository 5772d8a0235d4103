import BinForge.LineInputs

/-!
# Standard opcodes that the parser does not act on

The header tells how many operands every standard opcode has.  An opcode
without a case of its own takes its own byte and nothing else, so it is passed
over with its operands exactly when the header declares none.
-/

namespace BinForge

open StatefulExcept
open StreamCodec
open InstructionStream
open ByteReader

namespace DebugInfoParser

/-- A variable-length integer: bytes that go on and one that does not. -/
def IsLeb (bytes : Bytes) : Prop :=
  ∃ front last, bytes = front ++ [last] ∧
    (∀ byte ∈ front, 128 ≤ UInt8.toNat byte) ∧ UInt8.toNat last < 128

/-- So many integers, one behind the other. -/
def Operands (count : ℕ) (bytes : Bytes) : Prop :=
  ∃ values : List Bytes, values.length = count ∧
    (∀ value ∈ values, IsLeb value) ∧ bytes = values.flatten

/-- The number of operands that the header declares for a standard opcode. -/
def declaredOperands (data : Bytes) (op : UInt8) : ℕ :=
  (u8At data (14 + op.toNat)).toNat

/-- A standard opcode of this header that has no case of its own. -/
structure Unacted (header : LineHeader) (op : UInt8) : Prop where
  positive : 0 < op
  standard : op < header.opcodeBase
  other : op ≠ 1 ∧ op ≠ 2 ∧ op ≠ 3 ∧ op ≠ 4 ∧ op ≠ 6

/-- The input with an instruction put into its program.  Its first bytes, which
declare the length of the unit, may be others. -/
structure Insertion (order : ByteOrder) (addressSize : UInt8) (data : Bytes)
    (instruction other : Bytes) : Prop where
  parts : ∃ front before after,
    front.length = (lineHeaderAt order data).programStart ∧
      front.drop 4 =
        (data.take (lineHeaderAt order data).programStart).drop 4 ∧
      data.drop (lineHeaderAt order data).programStart = before ++ after ∧
      (lineInstructions order (lineHeaderAt order data).opcodeBase addressSize
        before).whole = true ∧
      (lineHeaderAt order data).lengthsEnd ≤ front.length + before.length ∧
      other = front ++ (before ++ (instruction ++ after))
  unit : 4 + (u32At order other 0).toNat ≤ other.length

/-- The opcode takes its declared operands with it and does nothing: the loop
goes on behind them, and an input with such an instruction more has the verdict
of the input without it, and rows at the same places. -/
structure SkippedWhole (limits : Limits) (order : ByteOrder)
    (addressSize : UInt8) (data : Bytes) (op : UInt8) : Prop where
  consumed : ∀ operands after registers state,
    Operands (declaredOperands data op) operands →
    AheadIn order (LineState.reader state) (op :: operands ++ after) →
    ∃ reader, lineRound (lineHeaderAt order data) addressSize registers state =
        .ok registers { state with reader } ∧ AheadIn order reader after
  inserted : ∀ operands other unit,
    Operands (declaredOperands data op) operands →
    Insertion order addressSize data (op :: operands) other →
    other.length ≤ limits.maxDebugBytes.toNat →
    succeeded (parseLineProgram limits (some other) order addressSize unit) =
        succeeded
          (parseLineProgram limits (some data) order addressSize unit) ∧
      (finalState (parseLineProgram limits (some other) order addressSize
          unit)).lines.map (fun row => (row.address, row.line)) =
        (finalState (parseLineProgram limits (some data) order addressSize
          unit)).lines.map fun row => (row.address, row.line)

/-! ## One round -/

section Round

variable {order : ByteOrder} {addressSize op : UInt8} {header : LineHeader}

theorem readStandard_unacted (hunacted : Unacted header op) :
    readStandard op = pure (.uninterpreted op) := by
  obtain ⟨hone, htwo, hthree, hfour, hsix⟩ := hunacted.other
  rw [readStandard, if_neg hone, if_neg htwo, if_neg hthree, if_neg hfour,
    if_neg hsix]

theorem readInstruction_unacted (hunacted : Unacted header op) :
    Consumes (AheadIn order) 0 (readInstruction header.opcodeBase addressSize)
      [op] (.uninterpreted op) := by
  apply readInstruction_consumes_byte
  · intro hzero
    have hpositive := hunacted.positive
    rw [hzero] at hpositive
    contradiction
  · intro _
    exact readStandard_unacted hunacted
  · intro hspecial
    exact absurd hunacted.standard hspecial

/-- The round takes the opcode alone. -/
theorem lineRound_unacted {registers : LineRegisters} {state : LineState}
    {after : Bytes} (hunacted : Unacted header op)
    (hahead : AheadIn order state.reader ([op] ++ after)) :
    ∃ reader, lineRound header addressSize registers state =
        .ok registers { state with reader } ∧ AheadIn order reader after := by
  obtain ⟨reader, hread, hnext⟩ :=
    readInstruction_unacted hunacted state.reader after (Nat.zero_le _) hahead
  have hround : CarriesOut header registers
      (lineRound header addressSize registers)
      (readInstruction header.opcodeBase addressSize) state :=
    lineRound_carriesOut hahead
  refine ⟨reader, ?_, hnext⟩
  rw [hround.done _ _ _ _ hread rfl, LineState.push_nil]

end Round

/-! ## Operands -/

theorem operands_zero {operands : Bytes} (hoperands : Operands 0 operands) :
    operands = [] := by
  obtain ⟨values, hcount, _, rfl⟩ := hoperands
  rw [List.eq_nil_of_length_eq_zero hcount, List.flatten_nil]

theorem operands_replicate (count : ℕ) :
    Operands count (List.replicate count 0) := by
  refine ⟨List.replicate count [0], List.length_replicate, ?_, ?_⟩
  · intro value hvalue
    rw [List.eq_of_mem_replicate hvalue]
    exact ⟨[], 0, rfl, fun _ hbyte => absurd hbyte List.not_mem_nil, by decide⟩
  · induction count with
    | zero => rfl
    | succ count ih =>
        rw [List.replicate_succ, List.replicate_succ, List.flatten_cons, ← ih]
        rfl

/-! ## The rows -/

section Rows

variable {header : LineHeader} {op : UInt8}

theorem runInstructions_insert {limit : ℕ} {whole : Bool}
    {registers : LineRegisters} {lines : List DebugLineRow}
    (before after : List LineInstruction) :
    runInstructions header limit whole registers lines
        (before ++ .uninterpreted op :: after) =
      runInstructions header limit whole registers lines (before ++ after) := by
  induction before generalizing registers lines with
  | nil =>
      rw [List.nil_append, List.nil_append]
      by_cases hroom : lines.length < limit
      · rw [runInstructions, if_pos hroom]
        simp only [execute, List.append_nil]
      · rw [runInstructions_full _ (not_lt.mp hroom),
          runInstructions_full _ (not_lt.mp hroom)]
  | cons instruction before ih =>
      rw [List.cons_append, List.cons_append, runInstructions, runInstructions]
      cases execute header registers instruction with
      | none => rfl
      | some found =>
          dsimp only
          rw [ih]

theorem execute_unitLength (unitLength : UInt32) :
    execute { header with unitLength } = execute header := by
  funext registers instruction
  cases instruction <;> rfl

/-- The rows do not depend on the declared length. -/
theorem runInstructions_unitLength {limit : ℕ} {whole : Bool}
    {registers : LineRegisters} {lines : List DebugLineRow}
    (unitLength : UInt32) (instructions : List LineInstruction) :
    runInstructions { header with unitLength } limit whole registers lines
        instructions =
      runInstructions header limit whole registers lines instructions := by
  induction instructions generalizing registers lines with
  | nil => rfl
  | cons instruction rest ih =>
      rw [runInstructions, runInstructions, execute_unitLength]
      cases execute header registers instruction with
      | none => rfl
      | some found =>
          dsimp only
          rw [ih]

end Rows

/-! ## The input -/

section Input

variable {limits : Limits} {order : ByteOrder} {addressSize op : UInt8}
variable {data other : Bytes} {unit : DebugUnit}

/-- The header behind the declared length. -/
theorem lineHeaderAt_congr
    (hagree : ListSplice.slice other 4 11 = ListSplice.slice data 4 11) :
    lineHeaderAt order other =
      { lineHeaderAt order data with unitLength := u32At order other 0 } := by
  have hslice : ∀ start count, start + count ≤ 11 →
      ListSplice.slice other (4 + start) count =
        ListSplice.slice data (4 + start) count := by
    intro start count hfit
    rw [← ListSplice.slice_slice hfit, hagree, ListSplice.slice_slice hfit]
  have hbyte : ∀ start, start < 11 →
      u8At other (4 + start) = u8At data (4 + start) := by
    intro start hstart
    have hsame := congrArg (fun bytes => bytes[0]?) (hslice start 1 hstart)
    simp only [ListSplice.slice_getElem?, Nat.zero_lt_one, if_true,
      Nat.add_zero] at hsame
    rw [u8At, u8At, List.getD_eq_getElem?_getD, hsame,
      ← List.getD_eq_getElem?_getD]
  have hversion : u16At order other 4 = u16At order data 4 :=
    congrArg (joinU16 order) (hslice 0 2 (by decide))
  have hlength : u32At order other 6 = u32At order data 6 :=
    congrArg (joinU32 order) (hslice 2 4 (by decide))
  rw [lineHeaderAt, lineHeaderAt, hversion, hlength, hbyte 6 (by decide),
    hbyte 7 (by decide), hbyte 8 (by decide), hbyte 9 (by decide),
    hbyte 10 (by decide)]

/-- The parts of an input into which one byte was put. -/
structure ByteInserted (order : ByteOrder) (addressSize : UInt8) (data : Bytes)
    (op : UInt8) (front before after other : Bytes) : Prop where
  start : front.length = (lineHeaderAt order data).programStart
  fields : front.drop 4 =
    (data.take (lineHeaderAt order data).programStart).drop 4
  program : data.drop (lineHeaderAt order data).programStart = before ++ after
  whole : (lineInstructions order (lineHeaderAt order data).opcodeBase
    addressSize before).whole = true
  behind : (lineHeaderAt order data).lengthsEnd ≤ front.length + before.length
  spelled : other = front ++ (before ++ ([op] ++ after))
  unit : 4 + (u32At order other 0).toNat ≤ other.length

section Inserted

variable {front before after : Bytes}

/-- In front of the byte both inputs are the same but for the length. -/
theorem ByteInserted.slice_eq
    (hinserted : ByteInserted order addressSize data op front before after
      other) (hheader : HeaderOk order data) {offset count : ℕ}
    (hoffset : 4 ≤ offset)
    (hfit : offset + count ≤ front.length + before.length) :
    ListSplice.slice other offset count =
      ListSplice.slice data offset count := by
  have hstart := hheader.program
  have htake : (data.take (lineHeaderAt order data).programStart).length =
      front.length := by
    rw [List.length_take, hinserted.start]
    omega
  have hfour : 4 ≤ front.length := by
    rw [hinserted.start]
    exact (by decide : 4 ≤ 10).trans (Nat.le_add_right 10 _)
  have hdata : data = data.take (lineHeaderAt order data).programStart ++
      before ++ after := by
    rw [List.append_assoc, ← hinserted.program, List.take_append_drop]
  have hother : other = front ++ before ++ ([op] ++ after) := by
    rw [hinserted.spelled, List.append_assoc]
  have hdrop : (front ++ before).drop offset =
      (data.take (lineHeaderAt order data).programStart ++ before).drop
        offset := by
    have hfields : (front ++ before).drop 4 =
        (data.take (lineHeaderAt order data).programStart ++ before).drop
          4 := by
      rw [List.drop_append_of_le_length hfour,
        List.drop_append_of_le_length (htake ▸ hfour), hinserted.fields]
    rw [← Nat.add_sub_cancel' hoffset, ← List.drop_drop, hfields,
      List.drop_drop]
  calc ListSplice.slice other offset count
      = ListSplice.slice (front ++ before) offset count := by
        rw [hother]
        apply ListSplice.slice_append_left
        rw [List.length_append]
        exact hfit
    _ = ListSplice.slice
          (data.take (lineHeaderAt order data).programStart ++ before) offset
          count := by
        rw [ListSplice.slice, hdrop, ListSplice.slice]
    _ = ListSplice.slice data offset count := by
        conv_rhs => rw [hdata]
        symm
        apply ListSplice.slice_append_left
        rw [List.length_append, htake]
        exact hfit

theorem ByteInserted.header
    (hinserted : ByteInserted order addressSize data op front before after
      other) (hheader : HeaderOk order data) :
    lineHeaderAt order other =
      { lineHeaderAt order data with unitLength := u32At order other 0 } := by
  apply lineHeaderAt_congr
  apply hinserted.slice_eq hheader (Nat.le_refl 4)
  exact (Nat.le_add_right 15 _).trans hinserted.behind

theorem ByteInserted.length
    (hinserted : ByteInserted order addressSize data op front before after
      other) (hheader : HeaderOk order data) :
    other.length = data.length + 1 := by
  have hlength := congrArg List.length hinserted.program
  have hstart := hheader.program
  rw [List.length_drop, List.length_append] at hlength
  simp only [hinserted.spelled, List.length_append, List.length_singleton,
    hinserted.start]
  omega

theorem ByteInserted.headerOk
    (hinserted : ByteInserted order addressSize data op front before after
      other) (hheader : HeaderOk order data) : HeaderOk order other := by
  have hview := hinserted.header hheader
  have hlength := hinserted.length hheader
  constructor
  · exact hinserted.unit
  · rw [hview]
    exact hheader.version
  · rw [hview, hlength]
    exact hheader.program.trans (Nat.le_succ _)
  · rw [hview]
    exact hheader.fields
  · rw [hview, hlength]
    exact hheader.lengths.trans (Nat.le_succ _)

/-- The file tables are the same. -/
theorem ByteInserted.files
    (hinserted : ByteInserted order addressSize data op front before after
      other) (hheader : HeaderOk order data)
    (hsmall : other.length < 2 ^ 64) :
    SameEnd (filesResult limits order data unit)
      (filesResult limits order other unit) := by
  have hlength := hinserted.length hheader
  have hstart := hheader.program
  have hview := hinserted.header hheader
  have hbegin : (lineHeaderAt order other).lengthsEnd =
      (lineHeaderAt order data).lengthsEnd := by
    rw [hview]
    rfl
  have hprogram : (lineHeaderAt order other).programStart =
      (lineHeaderAt order data).programStart := by
    rw [hview]
  rw [filesResult, filesResult, hprogram]
  apply fileLoop_congr
  · exact hbegin
  · simp only [tableAhead, atTable, hbegin]
    by_cases hempty : (lineHeaderAt order data).programStart ≤
        (lineHeaderAt order data).lengthsEnd
    · rw [Nat.sub_eq_zero_of_le hempty, ListSplice.slice, ListSplice.slice,
        List.take_zero, List.take_zero]
    · apply hinserted.slice_eq hheader
      · exact (by decide : 4 ≤ 15).trans (Nat.le_add_right 15 _)
      · rw [hinserted.start]
        omega
  · rfl
  · exact hstart
  · show (lineHeaderAt order data).programStart ≤ other.length
    omega
  · show data.length < 2 ^ 64
    omega
  · exact hsmall
  · exact hstart.trans (Nat.le_add_left _ _)
  · show _ ≤ _ + other.length
    omega

/-- The instructions are the same with one more. -/
theorem ByteInserted.programs
    (hinserted : ByteInserted order addressSize data op front before after
      other) (hheader : HeaderOk order data)
    (hunacted : Unacted (lineHeaderAt order data) op)
    (hsize : addressSize = 4 ∨ addressSize = 8)
    (hsmall : other.length < 2 ^ 64) :
    ∃ first rest whole,
      programAt order addressSize data =
          { instructions := first ++ rest, whole } ∧
        programAt order addressSize other =
          { instructions := first ++ .uninterpreted op :: rest, whole } := by
  have hview := hinserted.header hheader
  have hlength := hinserted.length hheader
  have hparts := congrArg List.length hinserted.spelled
  simp only [List.length_append, List.length_singleton] at hparts
  have hdrop : other.drop (lineHeaderAt order other).programStart =
      before ++ ([op] ++ after) := by
    rw [hview, hinserted.spelled]
    exact List.drop_left' hinserted.start
  have hbehind : (before ++ ([op] ++ after)).length < 2 ^ 64 := by
    simp only [List.length_append, List.length_singleton]
    omega
  have hbase : (lineHeaderAt order other).opcodeBase =
      (lineHeaderAt order data).opcodeBase := by
    rw [hview]
  refine ⟨(lineInstructions order (lineHeaderAt order data).opcodeBase
      addressSize before).instructions,
    (lineInstructions order (lineHeaderAt order data).opcodeBase addressSize
      after).instructions,
    (lineInstructions order (lineHeaderAt order data).opcodeBase addressSize
      after).whole, ?_, ?_⟩
  · rw [programAt, hinserted.program,
      lineInstructions_append hsize hinserted.whole
        (by rw [List.length_append]; omega)]
    rfl
  · rw [programAt, hdrop, hbase,
      lineInstructions_append hsize hinserted.whole hbehind,
      lineInstructions_cons hsize (List.cons_ne_nil op [])
        (readInstruction_unacted hunacted)
        (by rw [List.length_append] at hbehind; omega)]
    rfl

/-- The verdict and the rows are the same. -/
theorem ByteInserted.result
    (hinserted : ByteInserted order addressSize data op front before after
      other) (hheader : HeaderOk order data)
    (hunacted : Unacted (lineHeaderAt order data) op)
    (hmost : other.length ≤ limits.maxDebugBytes.toNat) :
    succeeded (parseLineProgram limits (some other) order addressSize unit) =
        succeeded
          (parseLineProgram limits (some data) order addressSize unit) ∧
      (finalState (parseLineProgram limits (some other) order addressSize
          unit)).lines =
        (finalState (parseLineProgram limits (some data) order addressSize
          unit)).lines := by
  have hlength := hinserted.length hheader
  have hleast : 15 ≤ data.length :=
    (Nat.le_add_right 15 _).trans hheader.lengths
  by_cases hsize : addressSize = 4 ∨ addressSize = 8
  · have hdata : InputOk limits data addressSize := ⟨by omega, by omega, hsize⟩
    have hother : InputOk limits other addressSize :=
      ⟨by omega, hmost, hsize⟩
    have hview := hinserted.header hheader
    obtain ⟨hfiles, _⟩ := @ByteInserted.files limits _ _ _ _ _ unit _ _ _
      hinserted hheader hother.small
    obtain ⟨first, rest, whole, hprogram, hmore⟩ :=
      hinserted.programs hheader hunacted hsize hother.small
    have hrows : rowsResult limits order addressSize other unit.lines =
        rowsResult limits order addressSize data unit.lines := by
      rw [rowsResult, rowsResult, hprogram, hmore, hview]
      rw [runInstructions_unitLength, runInstructions_insert]
      rfl
    obtain ⟨hverdict, hlines⟩ := @parseLineProgram_outcome limits order
      addressSize data unit hdata hheader
    obtain ⟨hverdict', hlines'⟩ := @parseLineProgram_outcome limits order
      addressSize other unit hother (hinserted.headerOk hheader)
    rw [hverdict, hverdict', hlines, hlines', hrows, hfiles]
    exact ⟨rfl, rfl⟩
  · have hrejects : ∀ bytes : Bytes, ∃ why,
        parseLineProgram limits (some bytes) order addressSize unit =
          .error why unit := by
      intro bytes
      rw [not_or] at hsize
      rw [parseLineProgram]
      exact ⟨_, congrFun (if_pos (.inr (.inr hsize))) unit⟩
    obtain ⟨why, hother⟩ := hrejects other
    obtain ⟨why', hdata⟩ := hrejects data
    rw [hother, hdata]
    exact ⟨rfl, rfl⟩

end Inserted

/-- An opcode without a case is skipped whole exactly when its declared number
of operands is zero. -/
theorem skipped_whole_iff (hheader : HeaderOk order data)
    (hunacted : Unacted (lineHeaderAt order data) op) :
    SkippedWhole limits order addressSize data op ↔
      declaredOperands data op = 0 := by
  constructor
  · intro hskipped
    have hoperands := operands_replicate (declaredOperands data op)
    have hcount : declaredOperands data op < 256 :=
      (u8At data (14 + op.toNat)).toNat_lt
    generalize hzeros :
      List.replicate (declaredOperands data op) (0 : UInt8) = operands
      at hoperands
    have hlength : operands.length = declaredOperands data op := by
      rw [← hzeros, List.length_replicate]
    have hsmall : ([op] ++ operands).length < 2 ^ 64 := by
      rw [List.length_append, List.length_singleton]
      omega
    have hahead := aheadIn_start order hsmall
    have hwhole : op :: operands ++ [] = [op] ++ operands := List.append_nil _
    obtain ⟨reader, hround, hbehind⟩ := hskipped.consumed operands []
      { statement := false }
      { reader := { data := [op] ++ operands, order }, unit := {} } hoperands
      (by rw [hwhole]; exact hahead)
    obtain ⟨reader', hround', hbehind'⟩ := @lineRound_unacted order addressSize op
      (lineHeaderAt order data) { statement := false }
      { reader := { data := [op] ++ operands, order }, unit := {} } operands
      hunacted hahead
    rw [hround, EStateM.Result.ok.injEq, LineState.mk.injEq] at hround'
    rw [← hround'.2.1] at hbehind'
    rw [← hlength, ← hbehind'.remaining, hbehind.remaining, List.length_nil]
  · intro hnone
    constructor
    · intro operands after registers state hoperands hahead
      rw [hnone] at hoperands
      rw [operands_zero hoperands] at hahead
      exact lineRound_unacted hunacted hahead
    · intro operands other unit hoperands hinsertion hmost
      rw [hnone] at hoperands
      rw [operands_zero hoperands] at hinsertion
      obtain ⟨front, before, after, hstart, hfields, hprogram, hwhole, hbehind,
        hspelled⟩ := hinsertion.parts
      have hinserted : ByteInserted order addressSize data op front before after
          other :=
        ⟨hstart, hfields, hprogram, hwhole, hbehind, hspelled, hinsertion.unit⟩
      obtain ⟨hverdict, hlines⟩ := @ByteInserted.result limits _ _ _ _ _ unit
        _ _ _ hinserted hheader hunacted hmost
      rw [hverdict, hlines]
      exact ⟨rfl, rfl⟩

end Input

/-- A header that declares no operand for its opcode 5. -/
def fiveOpcodes : Bytes :=
  [20, 0, 0, 0, 2, 0, 13, 0, 0, 0, 1, 1, 0xff, 14, 7, 0, 1, 1, 1, 0, 0, 97, 0,
    1]

theorem skipped_whole_none :
    SkippedWhole {} .little 8 fiveOpcodes 5 :=
  (skipped_whole_iff
    ⟨by decide +kernel, by decide +kernel, by decide +kernel,
      by decide +kernel, by decide +kernel⟩
    ⟨by decide, by decide +kernel, by decide⟩).mpr (by decide +kernel)

/-- The same header, with one operand for the opcode 5. -/
def fiveOperand : Bytes :=
  [20, 0, 0, 0, 2, 0, 13, 0, 0, 0, 1, 1, 0xff, 14, 7, 0, 1, 1, 1, 1, 0, 97, 0,
    1]

/-- The operand 1 of an opcode 5 at the start of the program is run as an opcode
and pushes a row. -/
theorem operand_pushes_row :
    HeaderOk .little fiveOperand ∧
      Unacted (lineHeaderAt .little fiveOperand) 5 ∧
      declaredOperands fiveOperand 5 = 1 ∧
      ¬SkippedWhole {} .little 8 fiveOperand 5 := by
  refine ⟨⟨by decide +kernel, by decide +kernel, by decide +kernel,
    by decide +kernel, by decide +kernel⟩,
    ⟨by decide, by decide +kernel, by decide⟩, by decide +kernel, ?_⟩
  intro hskipped
  have hone : Operands (declaredOperands fiveOperand 5) [1] := by
    refine ⟨[[1]], by decide +kernel, ?_, rfl⟩
    intro value hvalue
    rw [List.mem_singleton.mp hvalue]
    exact ⟨[], 1, rfl, fun _ hbyte => absurd hbyte List.not_mem_nil, by decide⟩
  have hparts : Insertion .little 8 fiveOperand [5, 1]
      (fiveOperand.take 23 ++ ([] ++ ([5, 1] ++ [1]))) := by
    refine ⟨⟨fiveOperand.take 23, [], [1], ?_⟩, by decide +kernel⟩
    decide +kernel
  have hsame := (hskipped.inserted [1] _ {} hone hparts (by decide +kernel)).2
  revert hsame
  decide +kernel

end DebugInfoParser
end BinForge
