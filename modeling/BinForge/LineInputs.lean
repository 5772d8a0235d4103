import BinForge.LineRuns

/-!
# What the call makes of its input

The header is a view of the first bytes, the file table lies between the
lengths of the standard opcodes and the start of the program, and the program
is all the bytes from there on.
-/

namespace BinForge

open StatefulExcept
open StreamCodec
open InstructionStream
open ByteReader

namespace DebugInfoParser

/-- The fields of the header, at their places in the input. -/
def lineHeaderAt (order : ByteOrder) (data : Bytes) : LineHeader :=
  { unitLength := u32At order data 0
    version := u16At order data 4
    programStart := 10 + (u32At order data 6).toNat
    minimumInstruction := u8At data 10
    defaultStatement := u8At data 11
    lineBase := u8At data 12
    lineRange := u8At data 13
    opcodeBase := u8At data 14 }

/-- Where the lengths of the standard opcodes end. -/
def LineHeader.lengthsEnd (header : LineHeader) : ℕ :=
  15 + (header.opcodeBase.toNat - 1)

/-- The header passes its checks. -/
structure HeaderOk (order : ByteOrder) (data : Bytes) : Prop where
  unit : 4 + (lineHeaderAt order data).unitLength.toNat ≤ data.length
  version : ¬((lineHeaderAt order data).version < 2 ∨
    (lineHeaderAt order data).version > 5)
  program : (lineHeaderAt order data).programStart ≤ data.length
  fields : ¬((lineHeaderAt order data).minimumInstruction = 0 ∨
    (lineHeaderAt order data).lineRange = 0)
  lengths : (lineHeaderAt order data).lengthsEnd ≤ data.length

/-! ## The header -/

section Header

variable {order : ByteOrder} {data : Bytes} {next : ByteReader}

theorem readUnitLength_eq_ok {reader : ByteReader} {length : UInt32} :
    readUnitLength reader = .ok length next ↔
      reader.position + 4 + length.toNat ≤ reader.data.length ∧
        length = u32At reader.order reader.data reader.position ∧
        next = reader.movedTo (reader.position + 4) := by
  rw [readUnitLength, bind_eq_ok]
  constructor
  · rintro ⟨found, middle, hfound, hcheck⟩
    rw [bind_of_ok (get_apply middle), rejectIf_bind_eq_ok, pure_eq_ok,
      remaining_eq] at hcheck
    obtain ⟨hfit, rfl, rfl⟩ := hcheck
    obtain ⟨hinside, hvalue, rfl⟩ := readU32_at.mp hfound
    dsimp only [movedTo_data, movedTo_position] at hfit
    exact ⟨by omega, hvalue, rfl⟩
  · rintro ⟨hfit, hvalue, rfl⟩
    refine ⟨length, _, readU32_at.mpr ⟨by omega, hvalue, rfl⟩, ?_⟩
    rw [bind_of_ok (get_apply _), rejectIf_bind_eq_ok, remaining_eq]
    refine ⟨?_, rfl⟩
    dsimp only [movedTo_data, movedTo_position]
    omega

theorem readVersion_eq_ok {reader : ByteReader} {version : UInt16} :
    readVersion reader = .ok version next ↔
      reader.position + 2 ≤ reader.data.length ∧
        version = u16At reader.order reader.data reader.position ∧
        next = reader.movedTo (reader.position + 2) ∧
        ¬(version < 2 ∨ version > 5) := by
  rw [readVersion, bind_eq_ok]
  constructor
  · rintro ⟨found, middle, hfound, hcheck⟩
    rw [rejectIf_bind_eq_ok, pure_eq_ok] at hcheck
    obtain ⟨hrange, rfl, rfl⟩ := hcheck
    obtain ⟨hinside, hvalue, hnext⟩ := readU16_at.mp hfound
    exact ⟨hinside, hvalue, hnext, hrange⟩
  · rintro ⟨hinside, hvalue, hnext, hrange⟩
    refine ⟨version, next, readU16_at.mpr ⟨hinside, hvalue, hnext⟩, ?_⟩
    rw [rejectIf_bind_eq_ok]
    exact ⟨hrange, rfl⟩

theorem readHeaderLength_eq_ok {reader : ByteReader} {start : ℕ} :
    readHeaderLength reader = .ok start next ↔
      reader.position + 4 ≤ reader.data.length ∧
        start ≤ reader.data.length ∧
        start = reader.position + 4 +
          (u32At reader.order reader.data reader.position).toNat ∧
        next = reader.movedTo (reader.position + 4) := by
  rw [readHeaderLength, bind_eq_ok]
  constructor
  · rintro ⟨found, middle, hfound, hcheck⟩
    rw [bind_of_ok (get_apply middle), rejectIf_bind_eq_ok, pure_eq_ok,
      remaining_eq] at hcheck
    obtain ⟨hfit, rfl, rfl⟩ := hcheck
    obtain ⟨hinside, rfl, rfl⟩ := readU32_at.mp hfound
    dsimp only [movedTo_data, movedTo_position] at hfit ⊢
    exact ⟨hinside, by omega, rfl, rfl⟩
  · rintro ⟨hinside, hfit, rfl, rfl⟩
    refine ⟨_, _, readU32_at.mpr ⟨hinside, rfl, rfl⟩, ?_⟩
    rw [bind_of_ok (get_apply _), rejectIf_bind_eq_ok, remaining_eq]
    refine ⟨?_, rfl⟩
    dsimp only [movedTo_data, movedTo_position]
    omega

theorem readLineFields_eq_ok {reader : ByteReader} {unitLength : UInt32}
    {version : UInt16} {start : ℕ} {header : LineHeader} :
    readLineFields unitLength version start reader = .ok header next ↔
      reader.position + 5 ≤ reader.data.length ∧
        header =
          { unitLength, version, programStart := start
            minimumInstruction := u8At reader.data reader.position
            defaultStatement := u8At reader.data (reader.position + 1)
            lineBase := u8At reader.data (reader.position + 2)
            lineRange := u8At reader.data (reader.position + 3)
            opcodeBase := u8At reader.data (reader.position + 4) } ∧
        ¬(header.minimumInstruction = 0 ∨ header.lineRange = 0) ∧
        next = reader.movedTo (reader.position + 5) := by
  simp only [readLineFields, bind_eq_ok, rejectIf_eq_ok, pure_eq_ok, readU8_at]
  constructor
  · rintro ⟨_, _, ⟨_, rfl, rfl⟩, _, _, ⟨_, rfl, rfl⟩, _, _, ⟨_, rfl, rfl⟩, _, _,
      ⟨_, rfl, rfl⟩, _, _, ⟨hinside, rfl, rfl⟩, _, _, ⟨hfields, rfl⟩, rfl, rfl⟩
    exact ⟨hinside, rfl, hfields, rfl⟩
  · rintro ⟨hinside, rfl, hfields, rfl⟩
    refine ⟨_, _, ⟨by omega, rfl, rfl⟩, _, _, ⟨?_, rfl, rfl⟩, _, _,
      ⟨?_, rfl, rfl⟩, _, _, ⟨?_, rfl, rfl⟩, _, _, ⟨hinside, rfl, rfl⟩, (), _,
      ⟨hfields, rfl⟩, rfl, rfl⟩
    all_goals
      simp only [movedTo_data, movedTo_position]
      omega

/-- The lengths of the standard opcodes, if there are any. -/
theorem skipLengths_eq_ok {header found : LineHeader}
    (hinside : 15 ≤ data.length) (hsmall : data.length < 2 ^ 64) :
    (if header.opcodeBase ≠ 0 then do
        adaptError (reportAt .truncated "opcode lengths truncated")
          (skip (header.opcodeBase.toUInt64 - 1))
        return header
      else return header : DecodeCall LineHeader)
        { data, order, position := 15 } = .ok found next ↔
      header.lengthsEnd ≤ data.length ∧ found = header ∧
        next = { data, order, position := header.lengthsEnd } := by
  rw [LineHeader.lengthsEnd]
  split_ifs with hbase
  · have hwide : header.opcodeBase.toUInt64 ≠ 0 := by
      intro hzero
      apply hbase
      have hnat := congrArg UInt64.toNat hzero
      rw [UInt8.toNat_toUInt64] at hnat
      exact UInt8.toNat_inj.mp hnat
    have hlength := length_pred hwide
    rw [UInt8.toNat_toUInt64] at hlength
    have hcount : (header.opcodeBase.toUInt64 - 1).toNat =
        header.opcodeBase.toNat - 1 := by omega
    rw [bind_eq_ok]
    constructor
    · rintro ⟨_, middle, hskip, hreturn⟩
      rw [adaptError_eq_ok, skip_eq_ok hinside hsmall, hcount] at hskip
      rw [pure_eq_ok] at hreturn
      rw [← hreturn.1, ← hreturn.2]
      exact ⟨hskip.1, rfl, hskip.2⟩
    · rintro ⟨hfit, rfl, rfl⟩
      refine ⟨(), _, adaptError_eq_ok.mpr
        ((skip_eq_ok hinside hsmall).mpr ⟨?_, rfl⟩), ?_⟩
      · rw [hcount]
        exact hfit
      · rw [hcount, pure_apply]
        rfl
  · have hzero : header.opcodeBase.toNat = 0 := by
      rw [not_not.mp hbase]
      rfl
    rw [pure_eq_ok, hzero]
    constructor
    · rintro ⟨rfl, rfl⟩
      exact ⟨hinside, rfl, rfl⟩
    · rintro ⟨_, rfl, rfl⟩
      exact ⟨rfl, rfl⟩

theorem readLineHeader_eq_ok {header : LineHeader}
    (hsmall : data.length < 2 ^ 64) :
    readLineHeader { data, order } = .ok header next ↔
      HeaderOk order data ∧ header = lineHeaderAt order data ∧
        next = { data, order, position := header.lengthsEnd } := by
  rw [readLineHeader]
  simp only [reporting, bind_eq_ok, adaptError_eq_ok, readUnitLength_eq_ok,
    readVersion_eq_ok, readHeaderLength_eq_ok, readLineFields_eq_ok]
  constructor
  · rintro ⟨_, _, ⟨hunit, rfl, rfl⟩, _, _, ⟨_, rfl, rfl, hversion⟩, _, _,
      ⟨_, hprogram, rfl, rfl⟩, fields, _, ⟨hinside, hheader, hfields, rfl⟩,
      hlengths⟩
    have hview : fields = lineHeaderAt order data := hheader
    obtain ⟨hend, rfl, rfl⟩ := (skipLengths_eq_ok hinside hsmall).mp hlengths
    rw [hview] at hfields hend ⊢
    refine ⟨⟨?_, hversion, hprogram, hfields, hend⟩, rfl, rfl⟩
    rw [Nat.zero_add] at hunit
    exact hunit
  · rintro ⟨hok, rfl, rfl⟩
    have hinside : 15 ≤ data.length :=
      (Nat.le_add_right 15 _).trans hok.lengths
    have hunit := hok.unit
    refine ⟨_, _, ⟨by rwa [Nat.zero_add], rfl, rfl⟩, _, _,
      ⟨?_, rfl, rfl, hok.version⟩, _, _, ⟨?_, hok.program, rfl, rfl⟩,
      lineHeaderAt order data, _, ⟨hinside, rfl, hok.fields, rfl⟩,
      (skipLengths_eq_ok hinside hsmall).mpr ⟨hok.lengths, rfl, rfl⟩⟩
    all_goals
      simp only [movedTo_data, movedTo_position]
      omega

end Header

/-! ## The file table -/

section Files

variable {limits : Limits} {start : ℕ}

/-- The bytes between the reader and the start of the program. -/
def tableAhead (start : ℕ) (reader : ByteReader) : Bytes :=
  ListSplice.slice reader.data reader.position (start - reader.position)

/-- The state behind a file name. -/
def LineState.named (state : LineState) (file : Bytes) : LineState :=
  { reader := state.reader.movedTo (state.reader.position + (file.length + 1))
    unit := { state.unit with files := state.unit.files ++ [file] } }

@[simp] theorem LineState.named_position (state : LineState) (file : Bytes) :
    (state.named file).reader.position =
      state.reader.position + (file.length + 1) := rfl

theorem tableAhead_named (state : LineState) (file : Bytes) :
    tableAhead start (state.named file).reader =
      (tableAhead start state.reader).drop (file.length + 1) := by
  rw [tableAhead, tableAhead, ListSplice.slice, ListSplice.slice, List.drop_take,
    List.drop_drop, Nat.sub_sub]
  rfl

theorem tableAhead_length {reader : ByteReader}
    (hbefore : reader.position < start) (hfit : start ≤ reader.data.length) :
    (tableAhead start reader).length = start - reader.position := by
  apply ListSplice.slice_length
  omega

theorem readCString_table {reader : ByteReader}
    (hbefore : reader.position < start) (hfit : start ≤ reader.data.length)
    (hsmall : reader.data.length < 2 ^ 64) :
    readCString reader (UInt64.ofNat reader.position)
        (UInt64.ofNat (start - reader.position)) =
      if (tableAhead start reader).contains 0 then
        some ((tableAhead start reader).takeWhile fun byte => byte ≠ 0)
      else none := by
  have hoffset : (UInt64.ofNat reader.position).toNat = reader.position :=
    UInt64.toNat_ofNat_of_lt' (hbefore.trans (hfit.trans_lt hsmall))
  have hlimit : (UInt64.ofNat (start - reader.position)).toNat =
      start - reader.position :=
    UInt64.toNat_ofNat_of_lt'
      ((Nat.sub_le _ _).trans_lt (hfit.trans_lt hsmall))
  rw [readCString, hoffset, hlimit, if_neg (by omega)]
  rfl

/-- A name ends before its terminator. -/
theorem name_length_lt {window : Bytes} (hzero : window.contains 0 = true) :
    (window.takeWhile fun byte => byte ≠ 0).length < window.length := by
  induction window with
  | nil => contradiction
  | cons byte window ih =>
      by_cases hbyte : byte = 0
      · simp [hbyte]
      · have hrest : window.contains 0 = true := by
          simpa [hbyte, Ne.symm hbyte] using hzero
        have hshorter := ih hrest
        rw [List.takeWhile_cons_of_pos (by simpa using hbyte),
          List.length_cons, List.length_cons]
        exact Nat.succ_lt_succ hshorter

/-- What one round makes of the bytes before the program. -/
theorem fileLoop_succ {rounds : ℕ} {state : LineState}
    (hbefore : state.reader.position < start)
    (hfit : start ≤ state.reader.data.length)
    (hsmall : state.reader.data.length < 2 ^ 64) :
    fileLoop limits start (rounds + 1) state =
      if (tableAhead start state.reader).contains 0 then
        let file := (tableAhead start state.reader).takeWhile (· ≠ 0)
        if file = [] then
          .ok () { state with
            reader := state.reader.movedTo (state.reader.position + 1) }
        else if (state.named file).unit.files.length >
            limits.maxStringBytes.toNat then
          (lineFailure .resourceLimit "file table limit" : LineCall Unit)
            (state.named file)
        else fileLoop limits start rounds (state.named file)
      else .ok () state := by
  have hlength := tableAhead_length hbefore hfit
  rw [fileLoop, bind_of_ok (get_apply state), if_pos hbefore,
    readCString_table hbefore hfit hsmall]
  by_cases hzero : (tableAhead start state.reader).contains 0 = true
  · rw [if_pos hzero, if_pos hzero]
    have hshorter := name_length_lt hzero
    generalize (tableAhead start state.reader).takeWhile
      (fun byte => byte ≠ 0) = file at hshorter ⊢
    have hamount : (UInt64.ofNat (file.length + 1)).toNat = file.length + 1 :=
      UInt64.toNat_ofNat_of_lt' (lt_of_le_of_lt
        (show file.length + 1 ≤ state.reader.data.length by omega) hsmall)
    have hskip : skip (UInt64.ofNat (file.length + 1)) state.reader = .ok ()
        (state.reader.movedTo (state.reader.position + (file.length + 1))) := by
      rw [skip_eq_ok (hbefore.le.trans hfit) hsmall, hamount]
      exact ⟨by omega, rfl⟩
    dsimp only
    rw [bind_of_ok (onReader_of_ok (attempt_of_ok hskip))]
    by_cases hfile : file = []
    · rw [if_pos hfile, if_pos hfile, hfile]
      rfl
    · rw [if_neg hfile, if_neg hfile, bind_of_ok (modify_apply _ _),
        bind_of_ok (get_apply _)]
      by_cases hfull : (state.named file).unit.files.length >
          limits.maxStringBytes.toNat
      · rw [if_pos hfull]
        exact congrFun (if_pos hfull) _
      · rw [if_neg hfull]
        exact congrFun (if_neg hfull) _
  · rw [if_neg hzero, if_neg hzero]
    rfl

theorem fileLoop_done {rounds : ℕ} {state : LineState}
    (hdone : start ≤ state.reader.position) :
    fileLoop limits start rounds state = .ok () state := by
  cases rounds with
  | zero => rfl
  | succ rounds =>
      rw [fileLoop, bind_of_ok (get_apply state), if_neg (not_lt.mpr hdone),
        pure_apply]

/-- The table adds file names to the unit and moves the reader, no more. -/
structure FilesOnly (state last : LineState) : Prop where
  data : last.reader.data = state.reader.data
  order : last.reader.order = state.reader.order
  unit : last.unit = { state.unit with files := last.unit.files }

theorem FilesOnly.refl (state : LineState) : FilesOnly state state :=
  ⟨rfl, rfl, rfl⟩

theorem FilesOnly.named {state last : LineState} {file : Bytes}
    (hrest : FilesOnly (state.named file) last) : FilesOnly state last :=
  ⟨hrest.data, hrest.order, hrest.unit⟩

theorem FilesOnly.lines {state last : LineState} (honly : FilesOnly state last) :
    last.unit.lines = state.unit.lines := by
  rw [honly.unit]

theorem fileLoop_filesOnly {rounds : ℕ} {state : LineState}
    (hfit : start ≤ state.reader.data.length)
    (hsmall : state.reader.data.length < 2 ^ 64) :
    FilesOnly state (finalState (fileLoop limits start rounds state)) := by
  induction rounds generalizing state with
  | zero => exact FilesOnly.refl state
  | succ rounds ih =>
      by_cases hbefore : state.reader.position < start
      · rw [fileLoop_succ hbefore hfit hsmall]
        dsimp only
        split_ifs
        · exact ⟨rfl, rfl, rfl⟩
        · exact FilesOnly.named (FilesOnly.refl _)
        · exact FilesOnly.named (ih hfit hsmall)
        · exact FilesOnly.refl state
      · rw [fileLoop_done (not_lt.mp hbefore)]
        exact FilesOnly.refl state

/-- The two results agree on the verdict and on the unit. -/
def SameEnd (result other : EStateM.Result Failure LineState Unit) : Prop :=
  succeeded result = succeeded other ∧
    (finalState result).unit = (finalState other).unit

/-- Only the bytes before the program matter to the table. -/
theorem fileLoop_congr {rounds others : ℕ} {state other : LineState}
    (hposition : other.reader.position = state.reader.position)
    (htable : tableAhead start other.reader = tableAhead start state.reader)
    (hunit : other.unit = state.unit)
    (hfit : start ≤ state.reader.data.length)
    (hfits : start ≤ other.reader.data.length)
    (hsmall : state.reader.data.length < 2 ^ 64)
    (hsmalls : other.reader.data.length < 2 ^ 64)
    (hrounds : start ≤ state.reader.position + rounds)
    (hothers : start ≤ other.reader.position + others) :
    SameEnd (fileLoop limits start rounds state)
      (fileLoop limits start others other) := by
  induction rounds generalizing others state other with
  | zero =>
      rw [fileLoop_done (by omega), fileLoop_done (by omega)]
      exact ⟨rfl, hunit.symm⟩
  | succ rounds ih =>
      by_cases hbefore : state.reader.position < start
      · cases others with
        | zero => omega
        | succ others =>
            have hlength := tableAhead_length hbefore hfit
            rw [fileLoop_succ hbefore hfit hsmall,
              fileLoop_succ (hposition ▸ hbefore) hfits hsmalls, htable]
            dsimp only
            by_cases hzero : (tableAhead start state.reader).contains 0 = true
            · rw [if_pos hzero, if_pos hzero]
              have hshorter := name_length_lt hzero
              generalize (tableAhead start state.reader).takeWhile
                (fun byte => byte ≠ 0) = file at hshorter ⊢
              have hnamed : (other.named file).unit = (state.named file).unit := by
                rw [LineState.named, LineState.named, hunit]
              have hrest : SameEnd
                  (fileLoop limits start rounds (state.named file))
                  (fileLoop limits start others (other.named file)) := by
                apply ih _ _ hnamed hfit hfits hsmall hsmalls
                · rw [LineState.named_position]
                  omega
                · rw [LineState.named_position]
                  omega
                · rw [LineState.named_position, LineState.named_position,
                    hposition]
                · rw [tableAhead_named, tableAhead_named, htable]
              rw [hnamed]
              split_ifs
              · exact ⟨rfl, hunit.symm⟩
              · exact ⟨rfl, hnamed.symm⟩
              · exact hrest
            · rw [if_neg hzero, if_neg hzero]
              exact ⟨rfl, hunit.symm⟩
      · rw [fileLoop_done (by omega), fileLoop_done (by omega)]
        exact ⟨rfl, hunit.symm⟩

end Files

/-! ## The call -/

section Call

variable {limits : Limits} {order : ByteOrder} {addressSize : UInt8}
variable {data : Bytes} {unit produced : DebugUnit}

/-- The size of the input and that of an address are admitted. -/
structure InputOk (limits : Limits) (data : Bytes) (addressSize : UInt8) :
    Prop where
  least : 10 ≤ data.length
  most : data.length ≤ limits.maxDebugBytes.toNat
  size : addressSize = 4 ∨ addressSize = 8

theorem InputOk.small (hinput : InputOk limits data addressSize) :
    data.length < 2 ^ 64 :=
  hinput.most.trans_lt limits.maxDebugBytes.toNat_lt

theorem parseLineProgram_of_input (hinput : InputOk limits data addressSize) :
    parseLineProgram limits (some data) order addressSize =
      withReader { data, order } (lineUnit limits data.length addressSize) := by
  have hleast := hinput.least
  have hmost := hinput.most
  have hguard : ¬(data.length < 10 ∨
      data.length > limits.maxDebugBytes.toNat ∨
      addressSize ≠ 4 ∧ addressSize ≠ 8) := by
    rintro (hshort | hlong | hsize)
    · omega
    · omega
    · exact hinput.size.elim hsize.1 hsize.2
  rw [parseLineProgram]
  exact if_neg hguard

/-- The state in front of the file table. -/
def atTable (order : ByteOrder) (data : Bytes) (unit : DebugUnit) : LineState :=
  { reader := { data, order, position := (lineHeaderAt order data).lengthsEnd }
    unit }

/-- What the file table leaves. -/
def filesResult (limits : Limits) (order : ByteOrder) (data : Bytes)
    (unit : DebugUnit) : EStateM.Result Failure LineState Unit :=
  fileLoop limits (lineHeaderAt order data).programStart data.length
    (atTable order data unit)

/-- The instructions of the input. -/
def programAt (order : ByteOrder) (addressSize : UInt8) (data : Bytes) :
    Program LineInstruction :=
  lineInstructions order (lineHeaderAt order data).opcodeBase addressSize
    (data.drop (lineHeaderAt order data).programStart)

/-- What the instructions of the input leave. -/
def rowsResult (limits : Limits) (order : ByteOrder) (addressSize : UInt8)
    (data : Bytes) (lines : List DebugLineRow) : List DebugLineRow × Bool :=
  runInstructions (lineHeaderAt order data) limits.maxLineRows.toNat
    (programAt order addressSize data).whole (lineHeaderAt order data).initial
    lines (programAt order addressSize data).instructions

/-- The state at the start of the program. -/
def atProgram (order : ByteOrder) (data : Bytes) (filed : LineState) :
    LineState :=
  { filed with
    reader := filed.reader.movedTo (lineHeaderAt order data).programStart }

theorem atProgram_ahead {filed : LineState}
    (hinput : InputOk limits data addressSize) (hheader : HeaderOk order data)
    (hfiled : FilesOnly (atTable order data unit) filed) :
    AheadIn order (atProgram order data filed).reader
      (data.drop (lineHeaderAt order data).programStart) := by
  have hdata : filed.reader.data = data := hfiled.data
  refine ⟨hfiled.order, ?_, ?_, ?_⟩
  · rw [atProgram, movedTo_data, movedTo_position, hdata]
    exact hheader.program
  · rw [atProgram, movedTo_data, movedTo_position, hdata]
  · rw [atProgram, movedTo_data, hdata]
    exact hinput.small

/-- The call after its header has been read. -/
theorem lineUnit_of_header (hinput : InputOk limits data addressSize)
    (hheader : HeaderOk order data) :
    lineUnit limits data.length addressSize
        { reader := { data, order }, unit } = (do
      fileLoop limits (lineHeaderAt order data).programStart data.length
      onReader (silently (seek
        (UInt64.ofNat (lineHeaderAt order data).programStart)))
      lineLoop limits (lineHeaderAt order data) addressSize data.length
        (lineHeaderAt order data).initial
      finishUnit limits (lineHeaderAt order data) addressSize : LineCall Unit)
        (atTable order data unit) := by
  have hread : readLineHeader { data, order } =
      .ok (lineHeaderAt order data) (atTable order data unit).reader :=
    (readLineHeader_eq_ok hinput.small).mpr ⟨hheader, rfl, rfl⟩
  have hcall : onReader readLineHeader { reader := { data, order }, unit } =
      .ok (lineHeaderAt order data) (atTable order data unit) :=
    onReader_of_ok hread
  rw [lineUnit, bind_of_ok hcall]

theorem seekProgram_apply {filed : LineState}
    (hinput : InputOk limits data addressSize) (hheader : HeaderOk order data)
    (hfiled : FilesOnly (atTable order data unit) filed) :
    onReader (silently (seek
        (UInt64.ofNat (lineHeaderAt order data).programStart))) filed =
      .ok () (atProgram order data filed) := by
  have hstart : (UInt64.ofNat (lineHeaderAt order data).programStart).toNat =
      (lineHeaderAt order data).programStart :=
    UInt64.toNat_ofNat_of_lt' (hheader.program.trans_lt hinput.small)
  have hdata : filed.reader.data = data := hfiled.data
  apply onReader_of_ok
  apply adaptError_eq_ok.mpr
  apply seek_eq_ok.mpr
  rw [hstart, hdata]
  exact ⟨hheader.program, rfl⟩

/-- The check of the row limit behind the loop. -/
theorem finishUnit_outcome {loop : LineCall Unit} {state : LineState}
    {header : LineHeader} {outcome : List DebugLineRow × Bool}
    (hends : EndsWith (loop state) unit outcome) :
    succeeded ((do
        loop
        finishUnit limits header addressSize : LineCall Unit) state) =
        (outcome.2 && decide (outcome.1.length < limits.maxLineRows.toNat)) ∧
      (finalState ((do
        loop
        finishUnit limits header addressSize : LineCall Unit)
          state)).unit.lines = outcome.1 := by
  obtain ⟨hverdict, hunit⟩ := hends
  cases hloop : loop state with
  | error why last =>
      rw [hloop] at hverdict hunit
      have hlines : last.unit = { unit with lines := outcome.1 } := hunit
      rw [bind_apply, hloop, ← hverdict]
      refine ⟨rfl, ?_⟩
      show last.unit.lines = outcome.1
      rw [hlines]
  | ok value last =>
      rw [hloop] at hverdict hunit
      have hlines : last.unit.lines = outcome.1 := by
        rw [show last.unit = { unit with lines := outcome.1 } from hunit]
      rw [bind_of_ok hloop, finishUnit, bind_of_ok (get_apply last), ← hverdict,
        hlines]
      split_ifs with hfull
      · exact ⟨(decide_eq_false (not_lt.mpr hfull)).symm, hlines⟩
      · exact ⟨(decide_eq_true (not_le.mp hfull)).symm, hlines⟩

theorem succeeded_withReader {reader : ByteReader} {call : LineCall Unit} :
    succeeded (withReader reader call unit) =
      succeeded (call { reader, unit }) := by
  rw [withReader]
  cases call { reader, unit } <;> rfl

theorem finalState_withReader {reader : ByteReader} {call : LineCall Unit} :
    finalState (withReader reader call unit) =
      (finalState (call { reader, unit })).unit := by
  rw [withReader]
  cases call { reader, unit } <;> rfl

/-- An input whose header passes: the verdict and the rows. -/
theorem parseLineProgram_outcome (hinput : InputOk limits data addressSize)
    (hheader : HeaderOk order data) :
    succeeded (parseLineProgram limits (some data) order addressSize unit) =
        (succeeded (filesResult limits order data unit) &&
          (rowsResult limits order addressSize data unit.lines).2 &&
          decide ((rowsResult limits order addressSize data
            unit.lines).1.length < limits.maxLineRows.toNat)) ∧
      (finalState (parseLineProgram limits (some data) order addressSize
          unit)).lines =
        if succeeded (filesResult limits order data unit) then
          (rowsResult limits order addressSize data unit.lines).1
        else unit.lines := by
  have hfit : (lineHeaderAt order data).programStart ≤
      (atTable order data unit).reader.data.length := hheader.program
  have honly : FilesOnly (atTable order data unit)
      (finalState (filesResult limits order data unit)) :=
    fileLoop_filesOnly hfit hinput.small
  rw [parseLineProgram_of_input hinput, succeeded_withReader,
    finalState_withReader, lineUnit_of_header hinput hheader]
  cases hfiles : filesResult limits order data unit with
  | error why filed =>
      rw [hfiles] at honly
      rw [filesResult] at hfiles
      rw [bind_apply, hfiles]
      exact ⟨rfl, honly.lines⟩
  | ok value filed =>
      rw [hfiles] at honly
      have hfiled : FilesOnly (atTable order data unit) filed := honly
      have hrows : (atProgram order data filed).unit.lines = unit.lines :=
        hfiled.lines
      have hends := @lineLoop_endsWith limits (lineHeaderAt order data)
        addressSize order data.length (lineHeaderAt order data).initial
        (atProgram order data filed) _ hinput.size
        (atProgram_ahead hinput hheader hfiled)
        (by rw [List.length_drop]; exact Nat.sub_le _ _)
      rw [hrows] at hends
      change EndsWith _ _ (rowsResult limits order addressSize data
        unit.lines) at hends
      rw [filesResult] at hfiles
      rw [bind_of_ok hfiles, bind_of_ok (seekProgram_apply hinput hheader hfiled)]
      exact finishUnit_outcome hends

/-- What an accepted input consists of. -/
structure Accepted (limits : Limits) (order : ByteOrder) (addressSize : UInt8)
    (data : Bytes) (unit produced : DebugUnit) : Prop where
  input : InputOk limits data addressSize
  header : HeaderOk order data
  files : succeeded (filesResult limits order data unit) = true
  whole : (programAt order addressSize data).whole = true
  rows : ∃ rows, executeAll (lineHeaderAt order data)
      (lineHeaderAt order data).initial
      (programAt order addressSize data).instructions = some rows ∧
    produced.lines = unit.lines ++ rows

theorem inputOk_of_ok
    (haccepts : parseLineProgram limits (some data) order addressSize unit =
      .ok () produced) : InputOk limits data addressSize := by
  rw [parseLineProgram] at haccepts
  split_ifs at haccepts with hguard
  · contradiction
  · rw [not_or, not_or, not_and_or, not_not, not_not] at hguard
    exact ⟨not_lt.mp hguard.1, not_lt.mp hguard.2.1, hguard.2.2⟩

theorem headerOk_of_ok
    (haccepts : parseLineProgram limits (some data) order addressSize unit =
      .ok () produced) : HeaderOk order data := by
  have hinput := inputOk_of_ok haccepts
  have hverdict : succeeded (parseLineProgram limits (some data) order
      addressSize unit) = true := by
    rw [haccepts]
    rfl
  rw [parseLineProgram_of_input hinput, succeeded_withReader] at hverdict
  obtain ⟨_, last, hrun⟩ := succeeded_iff.mp hverdict
  obtain ⟨header, state, hheader, _⟩ := bind_eq_ok.mp hrun
  cases hread : readLineHeader { data, order } with
  | ok found next => exact ((readLineHeader_eq_ok hinput.small).mp hread).1
  | error why next =>
      rw [onReader, hread] at hheader
      contradiction

theorem accepted_of_ok
    (haccepts : parseLineProgram limits (some data) order addressSize unit =
      .ok () produced) :
    Accepted limits order addressSize data unit produced := by
  have hinput := inputOk_of_ok haccepts
  have hheader := headerOk_of_ok haccepts
  have houtcome := @parseLineProgram_outcome limits order addressSize data unit
    hinput hheader
  rw [haccepts] at houtcome
  obtain ⟨hverdict, hlines⟩ := houtcome
  have hparts := hverdict.symm
  rw [succeeded, Bool.and_eq_true, Bool.and_eq_true,
    decide_eq_true_eq] at hparts
  obtain ⟨⟨hfiles, hrun⟩, hroom⟩ := hparts
  rw [if_pos hfiles] at hlines
  obtain ⟨hwhole, hrows⟩ := (runInstructions_eq_iff hroom).mp
    (Prod.ext rfl hrun)
  refine ⟨hinput, hheader, hfiles, hwhole, ?_⟩
  obtain ⟨rows, hexecuted, hall⟩ := hrows
  exact ⟨rows, hexecuted, hlines.trans hall⟩

end Call

/-- A unit with one file name, whose program is these bytes. -/
def unitOf (program : Bytes) : Bytes :=
  [UInt8.ofNat (16 + program.length), 0, 0, 0, 2, 0, 10, 0, 0, 0, 1, 1, 0xff,
    14, 4, 0, 1, 1, 97, 0] ++ program

end DebugInfoParser
end BinForge
