import BinForge.Unwind

/-!
# Progress and coverage of the unwind readers

The position behind a call-frame record comes from its declared length, and the
reader may be moved back to it.  Still every round of the record loop that goes
on ends behind the record's start, so that the loop ends; the frames that are
reported are well-formed ranges and the coverage is their exact sum.
-/

namespace BinForge

open StatefulExcept
open ByteReader
open RoundLoop

namespace ByteReader

theorem Forward.loop {ε β : Type} {body : Body ε ByteReader β}
    (hbody : ∀ carried, Forward 0 (body carried)) (rounds : ℕ) (carried : β) :
    Forward 0 (RoundLoop.loop body rounds carried) := by
  induction rounds generalizing carried with
  | zero => exact forward_pure carried
  | succ rounds ih =>
      refine (hbody carried).after fun step => ?_
      cases step with
      | done last => exact forward_pure last
      | yield passed => exact ih passed

end ByteReader

namespace UnwindParser

variable {limits : Limits} {sectionAddress : UInt64} {wordSize : WordSize}

/-! ## Instructions -/

/-- An operand that is read and stored. -/
theorem operand_forward {α β : Type} {least : ℕ} {action : ReaderCall α}
    (haction : Forward least action) (store : α → β) :
    Forward 0 (silently action >>= fun value => pure (store value)) :=
  ((silently_forward haction).after fun value => forward_pure (store value)).weaken
    (Nat.zero_le _)

theorem readRegisterOffset_forward : Forward 1 readRegisterOffset := by
  unfold readRegisterOffset
  exact readUleb128_forward.after fun register =>
    (readUleb128_forward.weaken (Nat.zero_le _)).after fun displacement =>
      (forward_rejectIf _ _).after fun _ => forward_pure _

theorem readExtendedInstruction_forward (offset : UInt64) (opcode : UInt8) :
    Forward 0 (readExtendedInstruction offset opcode) := by
  unfold readExtendedInstruction
  split_ifs
  · exact forward_pure _
  · exact operand_forward readU64_forward _
  · exact operand_forward readU8_forward _
  · exact operand_forward readU16_forward _
  · exact operand_forward readU32_forward _
  · exact operand_forward readRegisterOffset_forward _
  · exact forward_pure _
  · exact operand_forward readRegisterOffset_forward _
  · exact operand_forward readUleb128_forward _
  · exact forward_throw _

theorem readInstruction_forward (offset : UInt64) :
    Forward 1 (readInstruction offset) := by
  unfold readInstruction
  refine (silently_forward readU8_forward).after fun opcode => ?_
  dsimp only
  split_ifs
  · exact forward_pure _
  · exact operand_forward readUleb128_forward _
  · exact forward_pure _
  · exact readExtendedInstruction_forward offset opcode

theorem appendUnwindInstruction_range {offset : UInt64}
    {record appended : UnwindRecord} {instruction : UnwindInstruction}
    (happend : appendUnwindInstruction limits offset record instruction =
      .ok appended) :
    appended.startAddress = record.startAddress ∧
      appended.endAddress = record.endAddress := by
  obtain ⟨-, hreturn⟩ := rejectIf_except_bind_eq_ok.mp happend
  obtain rfl := Except.ok.inj hreturn
  exact ⟨rfl, rfl⟩

/-- A round leaves the loop where it is, or takes an instruction and changes
nothing else of the record. -/
theorem instructionRound_ok {recordEnd : ℕ} {record : UnwindRecord}
    {reader next : ByteReader} {step : ForInStep UnwindRecord}
    (hrun : instructionRound limits recordEnd record reader = .ok step next) :
    step = .done record ∧ next = reader ∨
      ∃ appended offset, step = .yield appended ∧
        (∃ instruction, readInstruction offset reader = .ok instruction next) ∧
        appended.startAddress = record.startAddress ∧
        appended.endAddress = record.endAddress := by
  rw [instructionRound, bind_of_ok (get_apply reader)] at hrun
  split_ifs at hrun with hmore
  · obtain ⟨instruction, middle, hread, hrest⟩ := bind_eq_ok.mp hrun
    obtain ⟨appended, happend, hreturn⟩ := liftExcept_bind_eq_ok.mp hrest
    rw [pure_eq_ok] at hreturn
    obtain ⟨rfl, rfl⟩ := hreturn
    exact Or.inr ⟨appended, _, rfl, ⟨instruction, hread⟩,
      appendUnwindInstruction_range happend⟩
  · rw [pure_eq_ok] at hrun
    exact Or.inl ⟨hrun.1.symm, hrun.2.symm⟩

theorem instructionRound_forward (recordEnd : ℕ) (record : UnwindRecord) :
    Forward 0 (instructionRound limits recordEnd record) := by
  intro reader step next hrun
  rcases instructionRound_ok hrun with ⟨-, rfl⟩ |
    ⟨_, offset, -, ⟨instruction, hread⟩, -⟩
  · exact ⟨rfl, Nat.le_refl _, Nat.le_max_left _ _⟩
  · exact (readInstruction_forward offset).weaken (Nat.zero_le _) hread

/-- The loop over the instructions ends: it takes a byte in every round. -/
theorem instructions_end (recordEnd : ℕ) (record : UnwindRecord)
    (reader : ByteReader)
    (outcome : EStateM.Result Failure ByteReader UnwindRecord) :
    Runs (instructionRound limits recordEnd) (record, reader) outcome ↔
      loop (instructionRound limits recordEnd) (reader.remaining + 1) record
        reader = outcome := by
  refine runs_iff_loop (fun _ => True) (fun here => here.2.remaining) ?_ trivial
    (Nat.lt_succ_self reader.remaining)
  intro here there _ hround
  refine ⟨trivial, ?_⟩
  rcases instructionRound_ok hround with ⟨hdone, -⟩ |
    ⟨_, offset, -, ⟨instruction, hread⟩, -⟩
  · contradiction
  · obtain ⟨hdata, hmoved, hinside⟩ := readInstruction_forward offset hread
    rw [remaining_eq, remaining_eq, hdata]
    omega

theorem parseCfiInstructions_ok {recordEnd : ℕ} {record parsed : UnwindRecord}
    {reader next : ByteReader}
    (hrun : parseCfiInstructions limits recordEnd record reader =
      .ok parsed next) :
    next.data = reader.data ∧ next.position = recordEnd ∧
      parsed.startAddress = record.startAddress ∧
      parsed.endAddress = record.endAddress := by
  rw [parseCfiInstructions, bind_of_ok (get_apply reader)] at hrun
  obtain ⟨last, stop, hloop, hrest⟩ := bind_eq_ok.mp hrun
  rw [bind_of_ok (get_apply stop), rejectIf_bind_eq_ok, pure_eq_ok,
    not_not] at hrest
  obtain ⟨hend, rfl, rfl⟩ := hrest
  obtain ⟨hdata, -, -⟩ :=
    Forward.loop (instructionRound_forward recordEnd) _ record hloop
  refine ⟨hdata, hend, ?_⟩
  apply loop_ok_induction (fun carried _ =>
    carried.startAddress = record.startAddress ∧
      carried.endAddress = record.endAddress) hloop ⟨rfl, rfl⟩
  intro carried step state next hcarried hround
  rcases instructionRound_ok hround with ⟨rfl, -⟩ |
    ⟨appended, _, rfl, -, hstart, hfinish⟩
  · exact hcarried
  · exact ⟨hstart.trans hcarried.1, hfinish.trans hcarried.2⟩

/-! ## Coverage -/

/-- The reported ranges are not reversed, and the coverage is the sum of their
sizes. -/
structure CoverageExact (report : UnwindReport) : Prop where
  ordered : ∀ record ∈ report.records, record.startAddress ≤ record.endAddress
  total : report.coveredBytes.toNat = (report.records.map fun record =>
    record.endAddress.toNat - record.startAddress.toNat).sum

theorem coverageExact_nothing : CoverageExact {} :=
  ⟨fun _ hrecord => absurd hrecord List.not_mem_nil, rfl⟩

theorem CoverageExact.append {report : UnwindReport} {record : UnwindRecord}
    {total : UInt64} (hexact : CoverageExact report)
    (hrange : record.startAddress ≤ record.endAddress)
    (htotal : total.toNat = report.coveredBytes.toNat +
      (record.endAddress.toNat - record.startAddress.toNat)) :
    CoverageExact { report with
      coveredBytes := total, records := report.records ++ [record] } := by
  constructor
  · intro other hother
    rcases List.mem_append.mp hother with hold | hnew
    · exact hexact.ordered other hold
    · rw [List.mem_singleton.mp hnew]
      exact hrange
  · show total.toNat = ((report.records ++ [record]).map _).sum
    rw [List.map_append, List.sum_append, ← hexact.total, htotal]
    simp

theorem addRecord_coverage {recordOffset : UInt64}
    {report added : UnwindReport} {record : UnwindRecord}
    (hadd : addRecord limits recordOffset report record = .ok added)
    (hrange : record.startAddress ≤ record.endAddress)
    (hexact : CoverageExact report) : CoverageExact added := by
  obtain ⟨total, htotal, hrest⟩ := demand_except_bind_eq_ok.mp hadd
  obtain ⟨-, hreturn⟩ := rejectIf_except_bind_eq_ok.mp hrest
  obtain rfl := Except.ok.inj hreturn
  apply hexact.append hrange
  rw [checkedAdd_toNat htotal, UInt64.toNat_sub_of_le _ _ hrange]

theorem note_coverage {walk : FrameWalk} {cieAddress : UInt64}
    (hexact : CoverageExact walk.report) :
    CoverageExact (walk.note cieAddress) := by
  unfold FrameWalk.note
  split_ifs
  · exact hexact
  · exact ⟨hexact.ordered, hexact.total⟩

/-! ## One record -/

theorem reporting_forward {α : Type} {least : ℕ} {action : ReaderCall α}
    (why : Failure) (haction : Forward least action) :
    Forward least (reporting why action) :=
  haction.adaptError _

theorem readLength_forward (recordOffset : UInt64) :
    Forward 4 (readLength recordOffset) := by
  unfold readLength
  refine (reporting_forward _ readU32_forward).after fun smallLength => ?_
  split_ifs
  · exact forward_pure _
  · exact ((reporting_forward _ readU64_forward).after
      fun length => forward_pure _).weaken (Nat.zero_le _)
  · exact forward_pure _

/-- A frame has a range that is not reversed, and ends with its record. -/
theorem readFrame_ok {recordOffset : UInt64} {recordEnd : ℕ}
    {reader next : ByteReader} {record : UnwindRecord}
    (hrun : readFrame limits sectionAddress wordSize recordOffset recordEnd
      reader = .ok record next) :
    next.data = reader.data ∧ next.position = recordEnd ∧
      record.startAddress ≤ record.endAddress := by
  obtain ⟨first, second, hfirst, hrun⟩ := bind_eq_ok.mp hrun
  obtain ⟨last, third, hlast, hrun⟩ := bind_eq_ok.mp hrun
  obtain ⟨startAddress, hstart, hrun⟩ := demand_bind_eq_ok.mp hrun
  obtain ⟨endAddress, hend, hparse⟩ := demand_bind_eq_ok.mp hrun
  obtain ⟨range, middle, hrange, hlast⟩ :=
    bind_eq_ok.mp (adaptError_eq_ok.mp hlast)
  obtain ⟨hsum, rfl⟩ := demand_eq_ok.mp hlast
  obtain ⟨hdataFirst, -, -⟩ := readWord_forward _ (adaptError_eq_ok.mp hfirst)
  obtain ⟨hdataRange, -, -⟩ := readWord_forward _ hrange
  obtain ⟨hdata, hposition, hsameStart, hsameEnd⟩ :=
    parseCfiInstructions_ok hparse
  refine ⟨hdata.trans (hdataRange.trans hdataFirst), hposition, ?_⟩
  rw [hsameStart, hsameEnd, UInt64.le_iff_toNat_le, checkedAdd_toNat hstart,
    checkedAdd_toNat hend, checkedAdd_toNat hsum]
  omega

/-- A record that is read ends where its length says, whether the reader was
moved back there or had to arrive there. -/
theorem readRecord_ok {recordOffset length : UInt64} {walk walked : FrameWalk}
    {reader next : ByteReader} (hsmall : reader.data.length < 2 ^ 64)
    (hrun : readRecord limits sectionAddress wordSize recordOffset length walk
      reader = .ok walked next) :
    next.data = reader.data ∧ next.position = reader.position + length.toNat ∧
      next.position ≤ reader.data.length ∧
      (CoverageExact walk.report → CoverageExact walked.report) := by
  rw [readRecord, bind_of_ok (get_apply reader)] at hrun
  obtain ⟨hinside, hrun⟩ := rejectIf_bind_eq_ok.mp hrun
  obtain ⟨identifier, middle, hidentifier, hrun⟩ := bind_eq_ok.mp hrun
  obtain ⟨hfit, -, rfl⟩ := readU32_at.mp (adaptError_eq_ok.mp hidentifier)
  rw [remaining_eq] at hinside
  have hend : reader.position + length.toNat ≤ reader.data.length := by omega
  dsimp only at hrun
  split_ifs at hrun with hcommon
  · -- The contents may be shorter than the identifier.
    obtain ⟨_, moved, hseek, hreturn⟩ := bind_eq_ok.mp hrun
    obtain ⟨-, rfl⟩ := seek_eq_ok.mp (adaptError_eq_ok.mp hseek)
    rw [pure_eq_ok] at hreturn
    obtain ⟨rfl, rfl⟩ := hreturn
    have hposition : (UInt64.ofNat (reader.position + length.toNat)).toNat =
        reader.position + length.toNat :=
      UInt64.toNat_ofNat_of_lt' (hend.trans_lt hsmall)
    exact ⟨rfl, hposition, hposition.trans_le hend, id⟩
  · obtain ⟨record, last, hframe, hrun⟩ := bind_eq_ok.mp hrun
    obtain ⟨report, hadd, hreturn⟩ := liftExcept_bind_eq_ok.mp hrun
    rw [pure_eq_ok] at hreturn
    obtain ⟨rfl, rfl⟩ := hreturn
    obtain ⟨hdata, hposition, hrange⟩ := readFrame_ok hframe
    exact ⟨hdata, hposition, hposition.trans_le hend, fun hexact =>
      addRecord_coverage hadd hrange (note_coverage hexact)⟩

/-- A round is the last one, or goes on behind the length of its record. -/
theorem recordRound_ok {walk : FrameWalk} {reader next : ByteReader}
    {step : ForInStep FrameWalk} (hsmall : reader.data.length < 2 ^ 64)
    (hrun : recordRound limits sectionAddress wordSize walk reader =
      .ok step next) :
    next.data = reader.data ∧ (step = .done walk ∨
      ∃ walked, step = .yield walked ∧ reader.position + 4 ≤ next.position ∧
        next.position ≤ reader.data.length ∧
        (CoverageExact walk.report → CoverageExact walked.report)) := by
  rw [recordRound, bind_of_ok (get_apply reader)] at hrun
  split_ifs at hrun with hempty
  · rw [pure_eq_ok] at hrun
    obtain ⟨rfl, rfl⟩ := hrun
    exact ⟨rfl, Or.inl rfl⟩
  · obtain ⟨length, content, hlength, hrun⟩ := bind_eq_ok.mp hrun
    obtain ⟨hdata, hmoved, -⟩ := readLength_forward _ hlength
    cases length with
    | none =>
        obtain ⟨rfl, rfl⟩ := EStateM.Result.ok.inj hrun
        exact ⟨hdata, Or.inl rfl⟩
    | some length =>
        obtain ⟨walked, last, hrecord, hreturn⟩ := bind_eq_ok.mp hrun
        rw [pure_eq_ok] at hreturn
        obtain ⟨rfl, rfl⟩ := hreturn
        rw [← hdata] at hsmall ⊢
        obtain ⟨hsame, hposition, hend, hexact⟩ := readRecord_ok hsmall hrecord
        exact ⟨hsame, Or.inr ⟨walked, rfl, by omega, hend, hexact⟩⟩

/-! ## The record loop -/

section RecordLoop

variable (limits : Limits) (data : Bytes) (sectionAddress : UInt64)
  (wordSize : WordSize) (order : ByteOrder)

/-- The loop comes to this place, with this reader. -/
def RecordVisited (here : FrameWalk × ByteReader) : Prop :=
  data.length ≤ limits.maxDebugBytes.toNat ∧
    Visits (recordRound limits sectionAddress wordSize) ({}, { data, order })
      here

/-- The call with the source's loop, which has no bound on its rounds, comes to
this outcome. -/
def EhFrameRuns (outcome : Except Failure UnwindReport) : Prop :=
  if data.length > limits.maxDebugBytes.toNat then
    .error (failure .resourceLimit 0 "call-frame section exceeds limit") =
      outcome
  else
    ∃ result, Runs (recordRound limits sectionAddress wordSize)
      ({}, { data, order }) result ∧ ehFrameReport result = outcome

variable {limits data sectionAddress wordSize order}

theorem recordVisited_data {here : FrameWalk × ByteReader}
    (hvisited : RecordVisited limits data sectionAddress wordSize order here) :
    here.2.data = data ∧ data.length < 2 ^ 64 := by
  obtain ⟨hlimit, hvisits⟩ := hvisited
  have hsmall : data.length < 2 ^ 64 :=
    hlimit.trans_lt limits.maxDebugBytes.toNat_lt
  refine ⟨?_, hsmall⟩
  apply hvisits.invariant (fun place => place.2.data = data) rfl
  intro place later hplace hround
  exact (recordRound_ok (by rw [hplace]; exact hsmall) hround).1.trans hplace

theorem recordRound_advances {here there : FrameWalk × ByteReader}
    (hsmall : here.2.data.length < 2 ^ 64)
    (hround : Continues (recordRound limits sectionAddress wordSize) here
      there) :
    there.2.data = here.2.data ∧ here.2.position < there.2.position ∧
      there.2.remaining < here.2.remaining := by
  obtain ⟨hdata, hdone | ⟨_, -, hmoved, hinside, -⟩⟩ :=
    recordRound_ok hsmall hround
  · contradiction
  · refine ⟨hdata, by omega, ?_⟩
    rw [remaining_eq, remaining_eq, hdata]
    omega

theorem ehFrameRuns_iff {outcome : Except Failure UnwindReport} :
    EhFrameRuns limits data sectionAddress wordSize order outcome ↔
      parseEhFrame limits data sectionAddress wordSize order = outcome := by
  unfold EhFrameRuns parseEhFrame
  split_ifs with hlarge
  · rfl
  · have hsmall : data.length < 2 ^ 64 :=
      (not_lt.mp hlarge).trans_lt limits.maxDebugBytes.toNat_lt
    have hruns := @runs_iff_loop _ _ _
      (recordRound limits sectionAddress wordSize)
      (fun here => here.2.data = data) (fun here => here.2.remaining)
      (by
        intro here there hhere hround
        obtain ⟨hdata, -, hless⟩ :=
          recordRound_advances (by rw [hhere]; exact hsmall) hround
        exact ⟨hdata.trans hhere, hless⟩)
      (data.length + 1) {} { data, order } rfl (by
        rw [remaining_eq]
        exact Nat.lt_succ_self _)
    constructor
    · rintro ⟨result, hrun, houtcome⟩
      rw [hruns.mp hrun, houtcome]
    · intro houtcome
      exact ⟨_, hruns.mpr rfl, houtcome⟩

theorem parseEhFrame_coverage {report : UnwindReport}
    (hparse : parseEhFrame limits data sectionAddress wordSize order =
      .ok report) : CoverageExact report := by
  unfold parseEhFrame at hparse
  split_ifs at hparse with hlarge
  have hsmall : data.length < 2 ^ 64 :=
    (not_lt.mp hlarge).trans_lt limits.maxDebugBytes.toNat_lt
  cases hloop : loop (recordRound limits sectionAddress wordSize)
      (data.length + 1) {} { data, order } with
  | error why next =>
      rw [hloop] at hparse
      contradiction
  | ok walk next =>
      rw [hloop] at hparse
      obtain rfl := Except.ok.inj hparse
      have hgood := loop_ok_induction (fun walk reader =>
        CoverageExact walk.report ∧ reader.data = data) hloop
        ⟨coverageExact_nothing, rfl⟩ (by
          intro walk step reader next hwalk hround
          obtain ⟨hdata, rfl | ⟨walked, rfl, -, -, hexact⟩⟩ :=
            recordRound_ok (by rw [hwalk.2]; exact hsmall) hround
          · exact ⟨hwalk.1, hdata.trans hwalk.2⟩
          · exact ⟨hexact hwalk.1, hdata.trans hwalk.2⟩)
      exact hgood.1

end RecordLoop

/-- Every round of the record loop that goes on ends strictly behind its
record's start; the loops end, with what the call returns; and a report's
coverage is the sum over its ranges. -/
theorem parseEhFrame_progress (limits : Limits) (data : Bytes)
    (sectionAddress : UInt64) (wordSize : WordSize) (order : ByteOrder) :
    (∀ here there,
      RecordVisited limits data sectionAddress wordSize order here →
      Continues (recordRound limits sectionAddress wordSize) here there →
        here.2.position < there.2.position) ∧
    (∀ outcome, EhFrameRuns limits data sectionAddress wordSize order outcome ↔
      parseEhFrame limits data sectionAddress wordSize order = outcome) ∧
    (∀ recordEnd record reader outcome,
      Runs (instructionRound limits recordEnd) (record, reader) outcome ↔
        loop (instructionRound limits recordEnd) (reader.remaining + 1) record
          reader = outcome) ∧
    ∀ report,
      parseEhFrame limits data sectionAddress wordSize order = .ok report →
        CoverageExact report := by
  refine ⟨?_, fun _ => ehFrameRuns_iff, instructions_end,
    fun _ => parseEhFrame_coverage⟩
  intro here there hvisited hround
  obtain ⟨hdata, hsmall⟩ := recordVisited_data hvisited
  exact (recordRound_advances (by rw [hdata]; exact hsmall) hround).2.1

/-- The one byte of the first record is part of its identifier, whose other
bytes belong to the length of the frame behind it. -/
def overrunSection : Bytes :=
  [0, 0, 0, 1, 0, 0, 0, 0, 13, 0, 0, 0, 9, 0, 0, 0x10, 0, 0, 0, 0, 0x10, 0]

def overrunReport : UnwindReport :=
  { records := [{ startAddress := 0x1000, endAddress := 0x1010
                  instructions := [{}] }]
    coveredBytes := 16 }

theorem parseEhFrame_progress_overrun :
    (∃ there, Continues (recordRound {} 0 .bits32)
        ({}, { data := overrunSection, order := .big }) there ∧
      there.2.position = 5 ∧ 0 < there.2.position) ∧
    parseEhFrame {} overrunSection 0 .bits32 .big = .ok overrunReport ∧
    CoverageExact overrunReport := by
  have hlimit : overrunSection.length ≤
      ({} : Limits).maxDebugBytes.toNat := by decide
  have hround : Continues (recordRound {} 0 .bits32)
      ({}, { data := overrunSection, order := .big })
      ({ cieOffsets := OrderedMap.empty.assign 0 5 },
        { data := overrunSection, position := 5, order := .big }) := rfl
  have hparse : parseEhFrame {} overrunSection 0 .bits32 .big =
      .ok overrunReport := by decide +kernel
  obtain ⟨hprogress, -, -, hcoverage⟩ :=
    parseEhFrame_progress {} overrunSection 0 .bits32 .big
  exact ⟨⟨_, hround, rfl, hprogress _ _ ⟨hlimit, .refl⟩ hround⟩, hparse,
    hcoverage _ hparse⟩

/-! ## The PE function table -/

theorem functionRecord_range {imageBase : UInt64} {first last unwind : UInt32}
    {record : UnwindRecord} (hrecord : functionRecord imageBase first last unwind =
      some record) :
    record.startAddress.toNat = imageBase.toNat + first.toNat ∧
      record.endAddress.toNat = imageBase.toNat + last.toNat := by
  simp only [functionRecord, Option.bind_eq_bind, Option.bind_eq_some_iff,
    Option.pure_def, Option.some.injEq] at hrecord
  obtain ⟨startAddress, hstart, endAddress, hend, personality, -, rfl⟩ := hrecord
  exact ⟨by simpa using checkedAdd_toNat hstart,
    by simpa using checkedAdd_toNat hend⟩

/-- A function covers less than `2 ^ 32` bytes, which is added without a check. -/
theorem readFunction_coverage {imageBase : UInt64} {index : ℕ}
    {report added : UnwindReport} {reader next : ByteReader}
    (hrun : readFunction imageBase report index reader = .ok added next)
    (hexact : CoverageExact report)
    (hroom : report.coveredBytes.toNat + 2 ^ 32 ≤ 2 ^ 64) :
    CoverageExact added ∧
      added.coveredBytes.toNat ≤ report.coveredBytes.toNat + 2 ^ 32 := by
  obtain ⟨⟨first, last, unwind⟩, middle, -, hrun⟩ := bind_eq_ok.mp hrun
  obtain ⟨hordered, hrun⟩ := rejectIf_bind_eq_ok.mp hrun
  obtain ⟨record, hrecord, hreturn⟩ := demand_bind_eq_ok.mp hrun
  rw [pure_eq_ok] at hreturn
  obtain ⟨rfl, -⟩ := hreturn
  obtain ⟨hstart, hend⟩ := functionRecord_range hrecord
  have hle : first ≤ last := UInt32.not_lt.mp hordered
  have hnat := UInt32.le_iff_toNat_le.mp hle
  have hbound := last.toNat_lt
  have hcovered : (last - first).toUInt64.toNat = last.toNat - first.toNat := by
    rw [UInt32.toNat_toUInt64, UInt32.toNat_sub_of_le _ _ hle]
  have htotal : (report.coveredBytes + (last - first).toUInt64).toNat =
      report.coveredBytes.toNat + (last.toNat - first.toNat) := by
    rw [toNat_add_of_fit (by omega), hcovered]
  refine ⟨hexact.append ?_ ?_, ?_⟩
  · rw [UInt64.le_iff_toNat_le, hstart, hend]
    omega
  · rw [htotal, hstart, hend]
    omega
  · show (report.coveredBytes + (last - first).toUInt64).toNat ≤ _
    omega

theorem parsePeFunctions_coverage {data : Bytes} {imageBase : UInt64}
    {report : UnwindReport}
    (hparse : parsePeFunctions limits data imageBase = .ok report) :
    CoverageExact report := by
  obtain ⟨hsize, hloop⟩ := rejectIf_except_bind_eq_ok.mp hparse
  obtain ⟨next, hloop⟩ := evaluate_eq_ok.mp hloop
  have hcount : data.length / 12 ≤ limits.maxDebugUnits.toNat := by omega
  have hlimit := limits.maxDebugUnits.toNat_lt
  have hgood := foldlM_ok_induction (fun done report _ =>
    CoverageExact report ∧ report.coveredBytes.toNat ≤ done.length * 2 ^ 32)
    hloop ⟨coverageExact_nothing, Nat.zero_le _⟩ (by
      intro done index rest carried reader passed later hsplit hdone hbody
      have hlength := congrArg List.length hsplit
      simp only [List.length_range, List.length_append, List.length_cons]
        at hlength
      obtain ⟨hexact, hbound⟩ :=
        readFunction_coverage hbody hdone.1 (by omega)
      refine ⟨hexact, ?_⟩
      rw [List.length_append, List.length_singleton]
      omega)
  exact hgood.1

end UnwindParser
end BinForge
