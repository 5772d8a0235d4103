import BinForge.FailureReports
import BinForge.MachOFile

/-!
# The checks of the Mach-O parser

What a Mach-O file is checked for, in order, in terms of its fields.  The parser
does not tell when the file ends inside the range of a segment command or inside
a section header.
-/

namespace BinForge

open StatefulExcept
open ListSplice
open ByteReader
open Checklist
open MachOParser

/-! ## The relocation decoder -/

namespace RelocationTableDecoder

/-- A record's address, whose sign is the scattered flag, and its target. -/
def machoRecordChecks (options : RelocationDecodeOptions) (table : Bytes)
    (record : ℕ) : List Check :=
  let address := (u32At options.byteOrder table (record * 8)).toInt32
  [told (0 ≤ address),
   told (options.baseAddress.toNat + address.toUInt32.toNat < 2 ^ 64)]

variable {limits : Limits} {options : RelocationDecodeOptions} {table : Bytes}
  {output : List Relocation} {reader : ByteReader}

theorem machoRecord_follows (hreader : OnTable options table reader)
    {record : ℕ} (hposition : reader.position = record * 8)
    (hinside : (record + 1) * 8 ≤ table.length)
    (hroom : output.length < limits.maxRelocations.toNat) :
    Follows Failure.Told
      (evaluate (machoRecord limits options output record) reader)
      (machoRecordChecks options table record) := by
  obtain ⟨rfl, horder⟩ := hreader
  have hentry : readMachoEntry reader = .ok
      ((u32At options.byteOrder reader.data (record * 8)).toInt32,
        u32At options.byteOrder reader.data (record * 8 + 4))
      (reader.movedTo (record * 8 + 4 + 4)) := by
    simp only [readMachoEntry, readI32, bind_eq_ok, readU32_at, pure_eq_ok,
      and_assoc, exists_and_left, exists_eq_left, exists_eq_left', movedTo_data,
      movedTo_order, movedTo_position, movedTo_movedTo, Prod.mk.injEq,
      hposition, horder, and_true]
    omega
  unfold machoRecord reporting
  rw [evaluate_bind_of_ok (adaptError_eq_ok.mpr hentry)]
  refine Follows.guard (told_failure (by decide)) Int32.not_lt fun _ => ?_
  refine (Follows.demand (told_failure (by decide)) ?_).bind fun _ _ _ => ?_
  · simp only [checkedAdd_eq_some, exists_and_left, exists_eq, and_true,
      UInt32.toNat_toUInt64]
  · exact (Follows.of_ok (appendRelocation_eq_ok.mpr ⟨hroom, rfl⟩)).liftExcept

/-- The decoder of an aligned table with room for its records. -/
theorem decodeMacho_follows (haligned : table.length % 8 = 0)
    (hroom : output.length + table.length / 8 ≤ limits.maxRelocations.toNat) :
    Follows Failure.Told (decodeMacho limits table options output)
      ((List.range (table.length / 8)).flatMap
        (machoRecordChecks options table)) := by
  have hlimit := limits.maxRelocations.toNat_lt
  have hcount : (UInt64.ofNat (table.length / 8)).toNat = table.length / 8 :=
    UInt64.toNat_ofNat_of_lt' (by show _ < 2 ^ 64; omega)
  unfold decodeMacho
  refine Follows.except_pass (not_not.mpr haligned)
    (Follows.except_pass ?_ (Follows.foldlM_range ?_))
  · rw [gt_iff_lt, UInt64.lt_iff_toNat_lt, hcount,
      relocationRoom_toNat (by omega)]
    omega
  · intro n hn carried next hrun
    obtain ⟨happends, htable, hposition⟩ := machoRecords_ok hrun
    obtain ⟨added, rfl, hadded⟩ := happends.appended
    have hlength := hadded.length_eq
    rw [List.length_range] at hlength
    refine machoRecord_follows htable hposition (by omega) ?_
    rw [List.length_append]
    omega

end RelocationTableDecoder

/-! ## The checks of a file -/

namespace MachOFile

def recordChecks (data : Bytes) (raw : RawSection) : ℕ → List Check :=
  RelocationTableDecoder.machoRecordChecks
    { byteOrder := order data, baseAddress := raw.address }
    (tableBytes data raw)

/-- `before` relocations were read before this section. -/
def sectionChecks (limits : Limits) (data : Bytes) (before : ℕ)
    (entry : SectionEntry) : List Check :=
  let raw := rawSection data entry
  untold (sectionOffset data entry + sectionBytes (segmentWide data entry.1) ≤
    data.length) ::
  told (StoredInside data raw) ::
  told (raw.relocationOffset.toNat + raw.relocationCount.toNat * 8 ≤
      data.length ∧
    before + raw.relocationCount.toNat ≤ limits.maxRelocations.toNat) ::
  (List.range raw.relocationCount.toNat).flatMap (recordChecks data raw)

/-- The sections before these are those of `entries`. -/
def segmentChecks (limits : Limits) (data : Bytes)
    (entries : List SectionEntry) (offset : ℕ) : List Check :=
  untold (tailOffset data offset ≤ data.length) ::
  told (tailOffset data offset + 16 ≤ data.length) ::
  told (entries.length + (MachOFile.sectionCount data offset).toNat ≤
      limits.maxSections.toNat ∧
    SegmentInside data offset) ::
  (List.range (MachOFile.sectionCount data offset).toNat).flatMap fun j =>
    sectionChecks limits data
      (relocationRecords data
        (entries ++ (List.range j).map fun i => (offset, i))).length (offset, j)

def commandChecks (limits : Limits) (data : Bytes) (n : ℕ) : List Check :=
  let offset := (commandOffset data n).toNat
  let size := word data (offset + 4)
  told (offset + 8 ≤ data.length) ::
  told (8 ≤ size ∧ offset + size.toNat ≤ data.length) ::
  (segmentOffsets data [n]).flatMap (segmentChecks limits data
    (sectionEntries data (segmentOffsets data (List.range n))))

/-- Everything the parser checks in a file with this magic number. -/
def checks (limits : Limits) (data : Bytes) : List Check :=
  let commands := (commandsOffset (magic data)).toNat
  let header := header data
  told (28 ≤ data.length) ::
  told (magic data = 0xfeedface ∨ magic data = 0xfeedfacf ∨
    magic data = 0xcefaedfe ∨ magic data = 0xcffaedfe) ::
  told (commands ≤ data.length) ::
  told (header.commandCount ≤ limits.maxSections ∧
    commands + header.commandBytes.toNat ≤ data.length) ::
  (List.range header.commandCount.toNat).flatMap (commandChecks limits data)

end MachOFile

namespace MachOParser

open MachOFile

variable {limits : Limits} {data : Bytes} {reader : ByteReader}

/-! ## Sections -/

theorem decodeRelocations_follows {fields : FileHeader}
    (hfields : fields.byteOrder = MachOFile.order data) {entry : SectionEntry}
    {item : Section}
    (haddress : item.virtualAddress = (rawSection data entry).address)
    {output : List Relocation}
    (houtput : output.length ≤ limits.maxRelocations.toNat) :
    Follows Failure.Told
      (decodeRelocations limits data fields (rawSection data entry) item output)
      (told ((rawSection data entry).relocationOffset.toNat +
          (rawSection data entry).relocationCount.toNat * 8 ≤ data.length ∧
        output.length + (rawSection data entry).relocationCount.toNat ≤
          limits.maxRelocations.toNat) ::
      (List.range (rawSection data entry).relocationCount.toNat).flatMap
        (recordChecks data (rawSection data entry))) := by
  generalize hraw : rawSection data entry = raw at haddress ⊢
  have hbound := raw.relocationCount.toNat_lt
  have hproduct := @checkedMultiply_of_fit raw.relocationCount.toUInt64 8
    (by
      rw [UInt32.toNat_toUInt64, show (8 : UInt64).toNat = 8 from rfl]
      omega)
  have hbytes := checkedMultiply_toNat hproduct
  rw [UInt32.toNat_toUInt64, show (8 : UInt64).toNat = 8 from rfl] at hbytes
  unfold decodeRelocations
  dsimp only
  rw [hproduct]
  generalize raw.relocationCount.toUInt64 * 8 = bytes at hbytes
  refine Follows.except_guard (told_failure (by decide)) ?_
    fun ⟨hinside, hroom⟩ => ?_
  · rw [not_or, rangeInside_eq_false, not_not, hbytes, gt_iff_lt,
      UInt64.lt_iff_toNat_lt, RelocationTableDecoder.relocationRoom_toNat
      houtput, UInt32.toNat_toUInt64]
    exact and_congr_right fun _ => by omega
  · by_cases hempty : bytes = 0
    · rw [if_neg (not_not.mpr hempty)]
      have hzero : raw.relocationCount.toNat = 0 := by
        rw [hempty, UInt64.toNat_zero] at hbytes
        omega
      rw [hzero]
      exact Follows.of_ok rfl
    · rw [if_pos hempty]
      have hlength := @slice_length _ data _ _ hinside
      rw [hbytes]
      have hdecode := @RelocationTableDecoder.decodeMacho_follows
        limits (relocationOptions fields item)
        (slice data raw.relocationOffset.toNat
          (raw.relocationCount.toNat * 8)) output
        (by rw [hlength]; omega) (by rw [hlength]; omega)
      rw [hlength, Nat.mul_div_cancel _ (by decide : 0 < 8)] at hdecode
      -- The decoder is told the byte order and the section's address.
      have hsame : RelocationTableDecoder.machoRecordChecks
          (relocationOptions fields item) (tableBytes data raw) =
            recordChecks data raw := by
        funext n
        simp only [recordChecks, RelocationTableDecoder.machoRecordChecks,
          relocationOptions, hfields, haddress]
      rw [← hsame]
      exact hdecode

theorem readRawSection_succeeds {position : ℕ} (hreader : At data position reader)
    {wide : Bool} :
    (∃ raw next, readRawSection wide reader = .ok raw next) ↔
      position + sectionBytes wide ≤ data.length := by
  obtain ⟨horder, rfl, rfl⟩ := hreader
  unfold readRawSection
  cases wide <;>
    simp only [Bool.false_eq_true, if_false, if_true, bind_eq_ok, readWord_at,
      readFixedString_at, readU32_at, pure_eq_ok, and_assoc, exists_and_left,
      exists_eq_left, exists_eq', and_true, movedTo_data, movedTo_order,
      movedTo_position, movedTo_movedTo, Nat.add_assoc, sectionBytes, fieldSize,
      Nat.reduceAdd] <;>
    omega

theorem readSection_follows {fields : FileHeader}
    (hfields : fields.byteOrder = MachOFile.order data) (entry : SectionEntry)
    {entries : List SectionEntry} {collected : Collected}
    (hreader : At data (sectionOffset data entry) reader)
    (hcollected : Gathered limits data entries collected) :
    Follows Failure.Told
      (evaluate (readSection limits data fields (segmentWide data entry.1)
        (protection data entry.1) collected entry.2) reader)
      (sectionChecks limits data (relocationRecords data entries).length
        entry) := by
  unfold readSection
  refine Follows.next (Follows.adaptError_untold
    (readRawSection_succeeds hreader) fun _ _ => not_told_silent)
    fun raw next hraw => ?_
  obtain ⟨rfl, hnext⟩ := readRawSection_ok hreader (adaptError_eq_ok.mp hraw)
  refine Follows.guard (told_failure (by decide)) ?_ fun _ => ?_
  · rw [rangeInside_eq_false, not_and, not_not]
    exact Iff.rfl
  · rw [hcollected.relocations.length_eq]
    exact (Follows.liftExcept (decodeRelocations_follows hfields rfl
      hcollected.bounded)).returning

theorem readSections_follows {fields : FileHeader}
    (hfields : fields.byteOrder = MachOFile.order data) (offset : ℕ)
    {entries : List SectionEntry} {collected : Collected} {count : ℕ}
    (hreader : At data (tailOffset data offset + 16) reader)
    (hcollected : Gathered limits data entries collected) :
    Follows Failure.Told
      (evaluate ((List.range count).foldlM
        (readSection limits data fields (segmentWide data offset)
          (protection data offset)) collected) reader)
      ((List.range count).flatMap fun j => sectionChecks limits data
        (relocationRecords data
          (entries ++ (List.range j).map fun i => (offset, i))).length
        (offset, j)) := by
  refine Follows.foldlM_range fun j _ carried next hrun => ?_
  obtain ⟨hgathered, _, hnext⟩ :=
    readSections_ok hfields offset hreader hcollected hrun
  exact readSection_follows hfields (offset, j) hnext hgathered

/-! ## Segments -/

theorem readSegmentRange_succeeds {position : ℕ}
    (hreader : At data position reader) {wide : Bool} :
    (∃ range next, readSegmentRange wide reader = .ok range next) ↔
      position + 16 + 4 * fieldSize wide ≤ data.length := by
  obtain ⟨horder, rfl, rfl⟩ := hreader
  simp only [readSegmentRange, bind_eq_ok, readFixedString_at, readWord_at,
    pure_eq_ok, and_assoc, exists_and_left, exists_eq_left, exists_eq',
    and_true, movedTo_data, movedTo_order, movedTo_position, movedTo_movedTo]
  omega

theorem readSegmentTail_succeeds {position : ℕ}
    (hreader : At data position reader) :
    (∃ tail next, readSegmentTail reader = .ok tail next) ↔
      position + 16 ≤ data.length := by
  obtain ⟨horder, rfl, rfl⟩ := hreader
  simp only [readSegmentTail, bind_eq_ok, readU32_at, pure_eq_ok, and_assoc,
    exists_and_left, exists_eq_left, exists_eq', and_true, movedTo_data,
    movedTo_order, movedTo_position, movedTo_movedTo]
  omega

theorem readSegment_follows {fields : FileHeader}
    (hfields : fields.byteOrder = MachOFile.order data) {offset : ℕ}
    {cursor : UInt64} {offsets : List ℕ} {collected : Collected}
    (hreader : At data (offset + 8) reader)
    (hcollected : Walked limits data offsets collected) :
    Follows Failure.Told
      (evaluate (readSegment limits data fields cursor
        (segmentWide data offset) collected) reader)
      (segmentChecks limits data (sectionEntries data offsets) offset) := by
  unfold readSegment
  refine Follows.next (Follows.adaptError_untold
    (readSegmentRange_succeeds hreader) fun _ _ => not_told_silent)
    fun range first hrange => ?_
  obtain ⟨rfl, hfirst⟩ :=
    readSegmentRange_ok hreader (adaptError_eq_ok.mp hrange)
  refine Follows.next (Follows.adaptError
    (readSegmentTail_succeeds hfirst) (told_reportAt (by decide)))
    fun tail second htail => ?_
  obtain ⟨rfl, hsecond⟩ :=
    readSegmentTail_ok hfirst (adaptError_eq_ok.mp htail)
  have hcount : collected.sections.length =
      (sectionEntries data offsets).length := by
    rw [hcollected.gathered.sections, sectionsOf, List.length_mapIdx]
  dsimp only
  refine Follows.guard (told_failure (by decide)) ?_ fun _ => ?_
  · rw [not_or, not_or, gt_iff_lt, UInt64.lt_iff_toNat_lt, gt_iff_lt,
      UInt64.not_lt, rangeInside_eq_false, not_not, hcount,
      MachineInteger.room_toNat hcollected.sectionCount,
      UInt32.toNat_toUInt64]
    have hsectionCount := hcollected.sectionCount
    refine and_congr ?_ Iff.rfl
    show ¬_ < (MachOFile.sectionCount data offset).toNat ↔ _
    omega
  · exact (readSections_follows hfields offset hsecond
      hcollected.gathered).returning

/-! ## Load commands -/

theorem readCommand_succeeds {position : ℕ} (hreader : At data position reader) :
    (∃ command next, readCommand reader = .ok command next) ↔
      position + 8 ≤ data.length := by
  obtain ⟨horder, rfl, rfl⟩ := hreader
  simp only [readCommand, bind_eq_ok, readU32_at, pure_eq_ok, and_assoc,
    exists_and_left, exists_eq_left, exists_eq', and_true, movedTo_data,
    movedTo_order, movedTo_position, movedTo_movedTo]
  omega

theorem readLoadCommand_follows {fields : FileHeader}
    (hfields : fields.byteOrder = MachOFile.order data) {position n : ℕ}
    {collected : Collected} (hreader : At data position reader)
    (hfit : (commandOffset data n).toNat ≤ data.length)
    (hcollected :
      Walked limits data (segmentOffsets data (List.range n)) collected) :
    Follows Failure.Told
      (evaluate (readLoadCommand limits data fields
        (commandOffset data n, collected) n) reader)
      (commandChecks limits data n) := by
  obtain ⟨horder, hdata, _⟩ := hreader
  unfold readLoadCommand
  dsimp only
  rw [evaluate_bind_of_ok (attempt_of_ok
    (seek_of_le (by rw [hdata]; exact hfit)))]
  have hmoved : At data (commandOffset data n).toNat
      (reader.movedTo (commandOffset data n).toNat) := ⟨horder, hdata, rfl⟩
  refine Follows.next (Follows.adaptError (readCommand_succeeds hmoved)
    fun _ _ => told_failure (by decide)) fun command next hcommand => ?_
  obtain ⟨rfl, hnext⟩ := readCommand_ok hmoved (adaptError_eq_ok.mp hcommand)
  dsimp only
  refine Follows.guard (told_failure (by decide)) ?_ fun _ => ?_
  · rw [not_or, rangeInside_eq_false, not_not, UInt32.not_lt]
  · by_cases hsegment : word data (commandOffset data n).toNat = 1 ∨
        word data (commandOffset data n).toNat = 0x19
    · rw [if_pos hsegment]
      have hsingle : segmentOffsets data [n] =
          [(commandOffset data n).toNat] := by
        simp [segmentOffsets, hsegment]
      rw [hsingle, List.flatMap_singleton]
      exact (readSegment_follows hfields hnext hcollected).returning
    · rw [if_neg hsegment]
      have hnone : segmentOffsets data [n] = [] := by
        simpa [segmentOffsets] using hsegment
      rw [hnone]
      exact Follows.of_ok rfl

/-! ## The whole file -/

theorem readMachHeader_succeeds (hreader : At data 0 reader) :
    (∃ found next, readMachHeader (wide (magic data)) reader =
        .ok found next) ↔
      (commandsOffset (magic data)).toNat ≤ data.length := by
  obtain ⟨horder, rfl, hposition⟩ := hreader
  unfold readMachHeader commandsOffset
  cases hwide : MachOParser.wide (magic reader.data) <;>
    simp only [Bool.false_eq_true, if_false, if_true, bind_eq_ok, readU32_at,
      pure_eq_ok, and_assoc, exists_and_left, exists_eq_left, exists_eq',
      and_true, movedTo_data, movedTo_order, movedTo_position, movedTo_movedTo,
      Nat.add_assoc, Nat.reduceAdd, Nat.zero_add, hposition,
      UInt64.reduceToNat] <;>
    omega

theorem parseImage_follows :
    Follows Failure.Told (evaluate (parseImage limits data (magic data))
        { data, order := MachOParser.order (magic data) })
      (told ((commandsOffset (magic data)).toNat ≤ data.length) ::
        told ((header data).commandCount ≤ limits.maxSections ∧
          (commandsOffset (magic data)).toNat +
            (header data).commandBytes.toNat ≤ data.length) ::
        (List.range (header data).commandCount.toNat).flatMap
          (commandChecks limits data)) := by
  have hstart : At data 0 { data, order := MachOParser.order (magic data) } :=
    ⟨rfl, rfl, rfl⟩
  unfold parseImage
  refine Follows.next (Follows.adaptError (readMachHeader_succeeds hstart)
    fun _ _ => told_failure (by decide)) fun found next hheader => ?_
  obtain ⟨rfl, position, hnext⟩ :=
    readMachHeader_ok hstart (adaptError_eq_ok.mp hheader)
  refine Follows.guard (told_failure (by decide)) ?_ fun hchecked => ?_
  · rw [not_or, rangeInside_eq_false, not_not, gt_iff_lt, UInt32.not_lt]
  · refine Follows.returning (Follows.foldlM_range fun n _ carried state hrun => ?_)
    obtain ⟨hcursor, hfit, hwalked, place, hstate⟩ :=
      readLoadCommands_ok rfl hnext (le_of_add_le_left hchecked.2) hrun
    obtain ⟨cursor, collected⟩ := carried
    dsimp only at hcursor hwalked
    subst hcursor
    exact readLoadCommand_follows rfl hstate hfit hwalked

/-- The parser makes the checks of the file, in their order. -/
theorem parse_follows :
    Follows Failure.Told (parse limits data) (MachOFile.checks limits data) := by
  unfold parse
  refine Follows.except_guard (told_failure (by decide)) not_lt fun _ => ?_
  refine Follows.except_guard (told_failure (by decide)) ?_ fun _ => ?_
  · tauto
  · exact parseImage_follows

end MachOParser
end BinForge
