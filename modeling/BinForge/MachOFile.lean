import BinForge.MachOParser
import BinForge.RelocationRecords
import BinForge.Validator

/-!
# What the Mach-O parser establishes

The load commands, segments and sections of a Mach-O file, read off the bytes
directly, and the image the parser builds from them.
-/

namespace BinForge

open StatefulExcept
open ListSplice
open ByteReader
open MachOParser

/-! ## The fields of the file -/

namespace MachOFile

def wide (data : Bytes) : Bool := MachOParser.wide (magic data)

def order (data : Bytes) : ByteOrder := MachOParser.order (magic data)

def word (data : Bytes) (offset : ℕ) : UInt32 := u32At (order data) data offset

def header (data : Bytes) : MachHeader :=
  { cpu := word data 4, fileType := word data 12, commandCount := word data 16
    commandBytes := word data 20, flags := word data 24 }

/-- The place of a load command: the one before says how far behind it. -/
def commandOffset (data : Bytes) : ℕ → UInt64
  | 0 => commandsOffset (magic data)
  | n + 1 =>
      let last := commandOffset data n
      last + (word data (last.toNat + 4)).toUInt64

/-- The places of the segment commands among these load commands. -/
def segmentOffsets (data : Bytes) (commands : List ℕ) : List ℕ :=
  (commands.map fun n => (commandOffset data n).toNat).filter fun offset =>
    word data offset = 1 ∨ word data offset = 0x19

def segments (data : Bytes) : List ℕ :=
  segmentOffsets data (List.range (header data).commandCount.toNat)

def segmentWide (data : Bytes) (offset : ℕ) : Bool := word data offset == 0x19

def wordBytes (data : Bytes) (offset : ℕ) : ℕ :=
  fieldSize (segmentWide data offset)

def rangeAt (data : Bytes) (wide : Bool) (offset : ℕ) : SegmentRange :=
  let size := fieldSize wide
  { vmaddr := fieldAt wide (order data) data offset
    vmsize := fieldAt wide (order data) data (offset + size)
    fileoff := fieldAt wide (order data) data (offset + 2 * size)
    filesize := fieldAt wide (order data) data (offset + 3 * size) }

/-- The ranges lie behind the command, its size and the segment's name. -/
def segmentRange (data : Bytes) (offset : ℕ) : SegmentRange :=
  rangeAt data (segmentWide data offset) (offset + 24)

def tailOffset (data : Bytes) (offset : ℕ) : ℕ :=
  offset + 24 + 4 * wordBytes data offset

def protection (data : Bytes) (offset : ℕ) : UInt8 :=
  machoProtection (word data (tailOffset data offset + 4))

def sectionCount (data : Bytes) (offset : ℕ) : UInt32 :=
  word data (tailOffset data offset + 8)

def rawSectionAt (data : Bytes) (wide : Bool) (offset : ℕ) : RawSection :=
  let size := fieldSize wide
  { name := fixedStringAt data offset 16
    address := fieldAt wide (order data) data (offset + 32)
    size := fieldAt wide (order data) data (offset + 32 + size)
    offset := word data (offset + 32 + 2 * size)
    align := word data (offset + 36 + 2 * size)
    relocationOffset := word data (offset + 40 + 2 * size)
    relocationCount := word data (offset + 44 + 2 * size)
    flags := word data (offset + 48 + 2 * size) }

def sectionBytes (wide : Bool) : ℕ := if wide then 80 else 68

/-- A section header: the place of its segment command and its position
there. -/
abbrev SectionEntry := ℕ × ℕ

def sectionOffset (data : Bytes) (entry : SectionEntry) : ℕ :=
  tailOffset data entry.1 + 16 +
    entry.2 * sectionBytes (segmentWide data entry.1)

def rawSection (data : Bytes) (entry : SectionEntry) : RawSection :=
  rawSectionAt data (segmentWide data entry.1) (sectionOffset data entry)

def sectionEntries (data : Bytes) (offsets : List ℕ) : List SectionEntry :=
  offsets.flatMap fun offset =>
    (List.range (sectionCount data offset).toNat).map fun j => (offset, j)

/-- The section of a header, given its place in the image's list. -/
def sectionOf (data : Bytes) (entry : SectionEntry) (index : ℕ) : Section :=
  (rawSection data entry).toSection (protection data entry.1) index

def tableBytes (data : Bytes) (raw : RawSection) : Bytes :=
  slice data raw.relocationOffset.toNat (raw.relocationCount.toNat * 8)

/-- A relocation record: its section header and its position in the table. -/
abbrev RecordEntry := SectionEntry × ℕ

/-- The symbol index a relocation record keeps. -/
def recordSymbol (data : Bytes) (record : RecordEntry) : UInt32 :=
  RelocationTableDecoder.machoSymbolIndex { byteOrder := order data }
    (tableBytes data (rawSection data record.1)) record.2

def relocationRecords (data : Bytes) (entries : List SectionEntry) :
    List RecordEntry :=
  entries.flatMap fun entry =>
    (List.range (rawSection data entry).relocationCount.toNat).map fun n =>
      (entry, n)

end MachOFile

namespace MachOParser

open MachOFile

variable {limits : Limits} {data : Bytes} {reader next : ByteReader}

/-- The reader stands at a place of the file, in the file's byte order. -/
structure At (data : Bytes) (position : ℕ) (reader : ByteReader) : Prop where
  order : reader.order = MachOFile.order data
  data : reader.data = data
  position : reader.position = position

/-! ## Records -/

theorem readMachHeader_ok (hreader : At data 0 reader) {found : MachHeader}
    (hrun : readMachHeader (wide (magic data)) reader = .ok found next) :
    found = header data ∧ ∃ position, At data position next := by
  obtain ⟨horder, rfl, hposition⟩ := hreader
  unfold readMachHeader at hrun
  cases hwide : MachOParser.wide (magic reader.data) <;>
    simp only [hwide, Bool.false_eq_true, if_false, if_true, bind_eq_ok,
      readU32_at, pure_eq_ok, and_assoc, exists_and_left, exists_eq_left,
      movedTo_data, movedTo_order, movedTo_position, movedTo_movedTo,
      Nat.add_assoc, Nat.reduceAdd, Nat.zero_add, hposition, horder] at hrun
  case false =>
    obtain ⟨_, _, _, _, _, _, _, rfl, rfl⟩ := hrun
    exact ⟨rfl, _, horder, rfl, rfl⟩
  case true =>
    obtain ⟨_, _, _, _, _, _, _, _, rfl, rfl⟩ := hrun
    exact ⟨rfl, _, horder, rfl, rfl⟩

theorem readSegmentRange_ok {position : ℕ} (hreader : At data position reader)
    {wide : Bool} {range : SegmentRange}
    (hrun : readSegmentRange wide reader = .ok range next) :
    range = rangeAt data wide (position + 16) ∧
      At data (position + 16 + 4 * fieldSize wide) next := by
  obtain ⟨horder, rfl, rfl⟩ := hreader
  simp only [readSegmentRange, bind_eq_ok, readFixedString_at, readWord_at,
    pure_eq_ok, and_assoc, exists_and_left, exists_eq_left, movedTo_data,
    movedTo_order, movedTo_position, movedTo_movedTo, horder] at hrun
  obtain ⟨_, _, _, _, _, rfl, rfl⟩ := hrun
  refine ⟨?_, horder, rfl, ?_⟩
  · simp only [rangeAt, Nat.add_assoc, Nat.succ_mul, Nat.zero_mul, Nat.zero_add]
  · simp only [movedTo_position]
    omega

theorem readSegmentTail_ok {position : ℕ} (hreader : At data position reader)
    {tail : UInt32 × UInt32}
    (hrun : readSegmentTail reader = .ok tail next) :
    tail = (word data (position + 4), word data (position + 8)) ∧
      At data (position + 16) next := by
  obtain ⟨horder, rfl, rfl⟩ := hreader
  simp only [readSegmentTail, bind_eq_ok, readU32_at, pure_eq_ok, and_assoc,
    exists_and_left, exists_eq_left, movedTo_data, movedTo_order,
    movedTo_position, movedTo_movedTo, Nat.add_assoc, Nat.reduceAdd,
    horder] at hrun
  obtain ⟨_, _, _, _, rfl, rfl⟩ := hrun
  exact ⟨rfl, horder, rfl, rfl⟩

theorem readRawSection_ok {position : ℕ} (hreader : At data position reader)
    {wide : Bool} {raw : RawSection}
    (hrun : readRawSection wide reader = .ok raw next) :
    raw = rawSectionAt data wide position ∧
      At data (position + sectionBytes wide) next := by
  obtain ⟨horder, rfl, rfl⟩ := hreader
  unfold readRawSection at hrun
  cases wide <;>
    simp only [Bool.false_eq_true, if_false, if_true, bind_eq_ok, readWord_at,
      readFixedString_at, readU32_at, pure_eq_ok, and_assoc, exists_and_left,
      exists_eq_left, movedTo_data, movedTo_order, movedTo_position,
      movedTo_movedTo, Nat.add_assoc, Nat.reduceAdd, horder]
      at hrun
  case false =>
    obtain ⟨_, _, _, _, _, _, _, _, _, _, _, rfl, rfl⟩ := hrun
    exact ⟨rfl, horder, rfl, rfl⟩
  case true =>
    obtain ⟨_, _, _, _, _, _, _, _, _, _, _, _, rfl, rfl⟩ := hrun
    exact ⟨rfl, horder, rfl, rfl⟩

theorem readCommand_ok {position : ℕ} (hreader : At data position reader)
    {found : UInt32 × UInt32}
    (hrun : readCommand reader = .ok found next) :
    found = (word data position, word data (position + 4)) ∧
      At data (position + 8) next := by
  obtain ⟨horder, rfl, rfl⟩ := hreader
  simp only [readCommand, bind_eq_ok, readU32_at, pure_eq_ok, and_assoc,
    exists_and_left, exists_eq_left, movedTo_data, movedTo_order,
    movedTo_position, movedTo_movedTo, Nat.add_assoc, Nat.reduceAdd,
    horder] at hrun
  obtain ⟨_, _, rfl, rfl⟩ := hrun
  exact ⟨rfl, horder, rfl, rfl⟩

/-! ## Sections -/

def StoredInside (data : Bytes) (raw : RawSection) : Prop :=
  raw.zeroFilled = false →
    raw.offset.toNat + raw.size.toNat ≤ data.length

def sectionsOf (data : Bytes) (entries : List SectionEntry) : List Section :=
  entries.mapIdx fun index entry => sectionOf data entry index

theorem sectionsOf_append_singleton (entries : List SectionEntry)
    (entry : SectionEntry) :
    sectionsOf data (entries ++ [entry]) = sectionsOf data entries ++
      [sectionOf data entry (sectionsOf data entries).length] := by
  simp [sectionsOf]

/-- The relocation keeps the symbol index of the record. -/
def Stores (data : Bytes) (record : RecordEntry) (relocation : Relocation) :
    Prop :=
  relocation.symbolIndex = recordSymbol data record

/-- What has been collected once these section headers are read. -/
structure Gathered (limits : Limits) (data : Bytes)
    (entries : List SectionEntry) (collected : Collected) : Prop where
  sections : collected.sections = sectionsOf data entries
  stored : ∀ entry ∈ entries, StoredInside data (rawSection data entry)
  relocations : List.Forall₂ (Stores data) (relocationRecords data entries)
    collected.relocations
  bounded : collected.relocations.length ≤ limits.maxRelocations.toNat

theorem decodeRelocations_ok {fields : FileHeader}
    (hfields : fields.byteOrder = MachOFile.order data) {entry : SectionEntry}
    {item : Section} {output result : List Relocation}
    (hrun : decodeRelocations limits data fields (rawSection data entry) item
      output = .ok result) :
    RelocationTableDecoder.AppendsEach limits
      (fun n => recordSymbol data (entry, n))
      (List.range (rawSection data entry).relocationCount.toNat) output
      result := by
  unfold decodeRelocations at hrun
  dsimp only at hrun
  obtain ⟨bytes, hbytes, hrun⟩ := demand_except_bind_eq_ok.mp hrun
  obtain ⟨hinside, hrun⟩ := rejectIf_except_bind_eq_ok.mp hrun
  have hproduct : bytes.toNat =
      (rawSection data entry).relocationCount.toNat * 8 := by
    simpa using checkedMultiply_toNat hbytes
  rw [not_or, rangeInside_eq_false, not_not, hproduct] at hinside
  by_cases hempty : bytes = 0
  · rw [if_neg (not_not.mpr hempty)] at hrun
    obtain rfl := Except.ok.inj hrun
    have hzero : (rawSection data entry).relocationCount.toNat = 0 := by
      rw [hempty, UInt64.toNat_zero] at hproduct
      omega
    rw [hzero]
    exact RelocationTableDecoder.AppendsEach.nil output
  · rw [if_pos hempty, hproduct] at hrun
    have happends := RelocationTableDecoder.decodeMacho_ok hrun
    rw [slice_length hinside.1, Nat.mul_div_cancel _ (by decide : 0 < 8)]
      at happends
    -- The decoder is told the byte order of the file.
    have hsymbol : RelocationTableDecoder.machoSymbolIndex
        (relocationOptions fields item)
          (tableBytes data (rawSection data entry)) =
        fun n => recordSymbol data (entry, n) := by
      funext n
      simp only [recordSymbol, RelocationTableDecoder.machoSymbolIndex,
        relocationOptions, hfields]
    rw [← hsymbol]
    exact happends

theorem readSection_ok {fields : FileHeader}
    (hfields : fields.byteOrder = MachOFile.order data) (entry : SectionEntry)
    {entries : List SectionEntry} {collected grown : Collected}
    (hreader : At data (sectionOffset data entry) reader)
    (hcollected : Gathered limits data entries collected)
    (hrun : readSection limits data fields (segmentWide data entry.1)
      (protection data entry.1) collected entry.2 reader = .ok grown next) :
    Gathered limits data (entries ++ [entry]) grown ∧
      grown.segments = collected.segments ∧
      At data (sectionOffset data entry +
        sectionBytes (segmentWide data entry.1)) next := by
  unfold readSection silently at hrun
  obtain ⟨raw, middle, hraw, hrun⟩ := bind_eq_ok.mp hrun
  obtain ⟨rfl, hmiddle⟩ := readRawSection_ok hreader (adaptError_eq_ok.mp hraw)
  have hsame : rawSectionAt data (segmentWide data entry.1)
      (sectionOffset data entry) = rawSection data entry := rfl
  rw [hsame] at hrun
  obtain ⟨hstored, hrun⟩ := rejectIf_bind_eq_ok.mp hrun
  rw [rangeInside_eq_false, not_and, not_not] at hstored
  obtain ⟨relocations, last, hdecode, hrun⟩ := bind_eq_ok.mp hrun
  obtain ⟨hdecoded, rfl⟩ := liftExcept_eq_ok.mp hdecode
  have happends := decodeRelocations_ok hfields hdecoded
  have hbounded := happends.length_le hcollected.bounded
  obtain ⟨added, rfl, hall⟩ := happends.appended
  rw [pure_eq_ok] at hrun
  obtain ⟨rfl, rfl⟩ := hrun
  refine ⟨⟨?_, ?_, ?_, hbounded⟩, rfl, hmiddle⟩
  · rw [sectionsOf_append_singleton, ← hcollected.sections]
    rfl
  · rw [List.forall_mem_append, List.forall_mem_singleton]
    exact ⟨hcollected.stored, hstored⟩
  · have hgrown : relocationRecords data (entries ++ [entry]) =
        relocationRecords data entries ++ (List.range
          (rawSection data entry).relocationCount.toNat).map fun n =>
            (entry, n) := by
      simp [relocationRecords]
    rw [hgrown]
    exact List.rel_append hcollected.relocations
      (List.forall₂_map_left_iff.mpr hall)

theorem readSections_ok {fields : FileHeader}
    (hfields : fields.byteOrder = MachOFile.order data) (offset : ℕ)
    {entries : List SectionEntry} {collected grown : Collected} {count : ℕ}
    (hreader : At data (tailOffset data offset + 16) reader)
    (hcollected : Gathered limits data entries collected)
    (hrun : (List.range count).foldlM
      (readSection limits data fields (segmentWide data offset)
        (protection data offset)) collected reader = .ok grown next) :
    Gathered limits data
        (entries ++ (List.range count).map fun j => (offset, j)) grown ∧
      grown.segments = collected.segments ∧
      At data (sectionOffset data (offset, count)) next := by
  have hread := foldlM_ok_induction (fun done carried state =>
    Gathered limits data (entries ++ done.map fun j => (offset, j)) carried ∧
      carried.segments = collected.segments ∧
      At data (sectionOffset data (offset, done.length)) state)
    hrun ⟨by rwa [List.map_nil, List.append_nil], rfl, by
      rw [sectionOffset, List.length_nil, Nat.zero_mul, Nat.add_zero]
      exact hreader⟩ (by
      rintro done j rest carried state passed after hsplit
        ⟨hdone, hsegments, hstate⟩ hstep
      obtain rfl := RelocationTableDecoder.eq_length_of_range hsplit
      obtain ⟨hpassed, hsame, hafter⟩ := readSection_ok hfields
        (offset, done.length) hstate hdone hstep
      refine ⟨?_, hsame.trans hsegments, ?_⟩
      · rw [List.map_append, List.map_singleton, ← List.append_assoc]
        exact hpassed
      · rw [List.length_append, List.length_singleton, sectionOffset,
          Nat.succ_mul, ← Nat.add_assoc]
        exact hafter)
  rwa [List.length_range] at hread

/-! ## Segments -/

/-- The segment is no larger in the file than in memory, and lies inside the
file. -/
def SegmentInside (data : Bytes) (offset : ℕ) : Prop :=
  (segmentRange data offset).filesize ≤ (segmentRange data offset).vmsize ∧
    (segmentRange data offset).fileoff.toNat +
      (segmentRange data offset).filesize.toNat ≤ data.length

/-- The segment has the ranges of its command. -/
structure SegmentAt (data : Bytes) (offset : ℕ) (segment : Segment) :
    Prop where
  fileOffset : segment.fileOffset = (segmentRange data offset).fileoff
  fileSize : segment.fileSize = (segmentRange data offset).filesize
  virtualAddress : segment.virtualAddress = (segmentRange data offset).vmaddr
  memorySize : segment.memorySize = (segmentRange data offset).vmsize

/-- What has been collected once these segment commands are read. -/
structure Walked (limits : Limits) (data : Bytes) (offsets : List ℕ)
    (collected : Collected) : Prop where
  gathered : Gathered limits data (sectionEntries data offsets) collected
  sectionCount :
    (sectionEntries data offsets).length ≤ limits.maxSections.toNat
  segments : List.Forall₂ (SegmentAt data) offsets collected.segments
  inside : ∀ offset ∈ offsets, SegmentInside data offset

theorem walked_nil : Walked limits data [] {} :=
  ⟨⟨rfl, by simp [sectionEntries], .nil, Nat.zero_le _⟩, Nat.zero_le _, .nil,
    by simp⟩

theorem sectionEntries_append (first second : List ℕ) :
    sectionEntries data (first ++ second) =
      sectionEntries data first ++ sectionEntries data second := by
  simp [sectionEntries]

theorem sectionEntries_singleton (offset : ℕ) :
    sectionEntries data [offset] =
      (List.range (MachOFile.sectionCount data offset).toNat).map
        fun j => (offset, j) := by
  simp [sectionEntries]

theorem sectionEntries_singleton_length (offset : ℕ) :
    (sectionEntries data [offset]).length =
      (MachOFile.sectionCount data offset).toNat := by
  simp [sectionEntries]

theorem readSegment_ok {fields : FileHeader}
    (hfields : fields.byteOrder = MachOFile.order data) {offset : ℕ}
    {cursor : UInt64} {offsets : List ℕ} {collected grown : Collected}
    (hreader : At data (offset + 8) reader)
    (hcollected : Walked limits data offsets collected)
    (hrun : readSegment limits data fields cursor (segmentWide data offset)
      collected reader = .ok grown next) :
    Walked limits data (offsets ++ [offset]) grown ∧
      ∃ position, At data position next := by
  unfold readSegment silently at hrun
  obtain ⟨range, first, hrange, hrun⟩ := bind_eq_ok.mp hrun
  obtain ⟨rfl, hfirst⟩ :=
    readSegmentRange_ok hreader (adaptError_eq_ok.mp hrange)
  obtain ⟨⟨initprot, nsects⟩, second, htail, hrun⟩ := bind_eq_ok.mp hrun
  obtain ⟨hpair, hsecond⟩ := readSegmentTail_ok hfirst (adaptError_eq_ok.mp htail)
  obtain ⟨rfl, rfl⟩ := Prod.mk.inj hpair
  have hsame : rangeAt data (segmentWide data offset) (offset + 8 + 16) =
      segmentRange data offset := rfl
  rw [hsame] at hrun
  dsimp only at hrun
  obtain ⟨hchecks, hrun⟩ := rejectIf_bind_eq_ok.mp hrun
  rw [not_or, not_or, gt_iff_lt, UInt64.not_lt, gt_iff_lt, UInt64.not_lt,
    rangeInside_eq_false, not_not] at hchecks
  obtain ⟨hroom, hinside⟩ := hchecks
  obtain ⟨middle, third, hsections, hrun⟩ := bind_eq_ok.mp hrun
  obtain ⟨hgathered, hsegments, hthird⟩ :=
    readSections_ok hfields offset hsecond hcollected.gathered hsections
  rw [pure_eq_ok] at hrun
  obtain ⟨rfl, rfl⟩ := hrun
  have hcount : collected.sections.length =
      (sectionEntries data offsets).length := by
    rw [hcollected.gathered.sections, sectionsOf, List.length_mapIdx]
  have hsectionCount := hcollected.sectionCount
  rw [hcount] at hroom
  refine ⟨⟨?_, ?_, ?_, ?_⟩, _, hthird⟩
  · rw [sectionEntries_append, sectionEntries_singleton]
    exact ⟨hgathered.sections, hgathered.stored, hgathered.relocations,
      hgathered.bounded⟩
  · rw [sectionEntries_append, List.length_append,
      sectionEntries_singleton_length]
    rw [UInt64.le_iff_toNat_le, MachineInteger.room_toNat hsectionCount,
      UInt32.toNat_toUInt64] at hroom
    change (MachOFile.sectionCount data offset).toNat ≤ _ at hroom
    omega
  · rw [hsegments]
    exact List.rel_append hcollected.segments
      (.cons ⟨rfl, rfl, rfl, rfl⟩ .nil)
  · rw [List.forall_mem_append, List.forall_mem_singleton]
    exact ⟨hcollected.inside, hinside⟩

/-! ## Load commands -/

theorem segmentOffsets_append_singleton (commands : List ℕ) (n : ℕ) :
    segmentOffsets data (commands ++ [n]) =
      segmentOffsets data commands ++ segmentOffsets data [n] := by
  simp [segmentOffsets]

theorem readLoadCommand_ok {fields : FileHeader}
    (hfields : fields.byteOrder = MachOFile.order data) {position : ℕ}
    {commands : List ℕ} {n : ℕ} {collected : Collected} {state : CommandState}
    (hreader : At data position reader)
    (hfit : (commandOffset data n).toNat ≤ data.length)
    (hcollected : Walked limits data (segmentOffsets data commands) collected)
    (hrun : readLoadCommand limits data fields
      (commandOffset data n, collected) n reader = .ok state next) :
    state.1 = commandOffset data (n + 1) ∧
      (commandOffset data (n + 1)).toNat ≤ data.length ∧
      Walked limits data (segmentOffsets data (commands ++ [n])) state.2 ∧
      ∃ position, At data position next := by
  obtain ⟨horder, hdata, _⟩ := hreader
  unfold readLoadCommand reporting at hrun
  dsimp only at hrun
  obtain ⟨_, first, hmove, hrun⟩ := bind_eq_ok.mp hrun
  obtain rfl := attempt_seek_ok (by rw [hdata]; exact hfit) hmove
  have hfirst : At data (commandOffset data n).toNat
      (reader.movedTo (commandOffset data n).toNat) := ⟨horder, hdata, rfl⟩
  obtain ⟨⟨command, size⟩, second, hcommand, hrun⟩ := bind_eq_ok.mp hrun
  obtain ⟨hpair, hsecond⟩ :=
    readCommand_ok hfirst (adaptError_eq_ok.mp hcommand)
  obtain ⟨rfl, rfl⟩ := Prod.mk.inj hpair
  dsimp only at hrun
  obtain ⟨hchecks, hrun⟩ := rejectIf_bind_eq_ok.mp hrun
  rw [not_or, rangeInside_eq_false, not_not] at hchecks
  have hnext : (commandOffset data (n + 1)).toNat ≤ data.length := by
    have hsum := Nat.mod_le ((commandOffset data n).toNat +
      (word data ((commandOffset data n).toNat + 4)).toUInt64.toNat) (2 ^ 64)
    rw [← UInt64.toNat_add, UInt32.toNat_toUInt64] at hsum
    exact hsum.trans hchecks.2
  rw [segmentOffsets_append_singleton]
  by_cases hsegment : word data (commandOffset data n).toNat = 1 ∨
      word data (commandOffset data n).toNat = 0x19
  · rw [if_pos hsegment] at hrun
    obtain ⟨grown, third, hread, hrun⟩ := bind_eq_ok.mp hrun
    rw [pure_eq_ok] at hrun
    obtain ⟨rfl, rfl⟩ := hrun
    have hsingle : segmentOffsets data [n] = [(commandOffset data n).toNat] := by
      simp [segmentOffsets, hsegment]
    rw [hsingle]
    obtain ⟨hwalked, hthird⟩ := readSegment_ok hfields hsecond hcollected hread
    exact ⟨rfl, hnext, hwalked, hthird⟩
  · rw [if_neg hsegment, pure_eq_ok] at hrun
    obtain ⟨rfl, rfl⟩ := hrun
    have hnone : segmentOffsets data [n] = [] := by
      simpa [segmentOffsets] using hsegment
    rw [hnone, List.append_nil]
    exact ⟨rfl, hnext, hcollected, _, hsecond⟩

/-- The walk behind the first `count` commands. -/
theorem readLoadCommands_ok {fields : FileHeader}
    (hfields : fields.byteOrder = MachOFile.order data) {position count : ℕ}
    {state : CommandState} (hreader : At data position reader)
    (hstart : (commandsOffset (magic data)).toNat ≤ data.length)
    (hrun : (List.range count).foldlM (readLoadCommand limits data fields)
      (commandsOffset (magic data), {}) reader = .ok state next) :
    state.1 = commandOffset data count ∧
      (commandOffset data count).toNat ≤ data.length ∧
      Walked limits data (segmentOffsets data (List.range count)) state.2 ∧
      ∃ position, At data position next := by
  have hwalked := foldlM_ok_induction (fun done carried state =>
    carried.1 = commandOffset data done.length ∧
      (commandOffset data done.length).toNat ≤ data.length ∧
      Walked limits data (segmentOffsets data done) carried.2 ∧
      ∃ position, At data position state)
    hrun ⟨rfl, hstart, walked_nil, _, hreader⟩ (by
      rintro done n rest ⟨cursor, carried⟩ state passed after hsplit
        ⟨rfl, hfit, hdone, _, hstate⟩ hstep
      obtain rfl := RelocationTableDecoder.eq_length_of_range hsplit
      rw [List.length_append, List.length_singleton]
      exact readLoadCommand_ok hfields hstate hfit hdone hstep)
  rwa [List.length_range] at hwalked

/-! ## The whole image -/

structure Parsed (limits : Limits) (data : Bytes) (image : BinaryImage) :
    Prop where
  fileData : image.fileData = some data
  symbols : image.symbols = []
  walked : Walked limits data (segments data)
    { sections := image.sections, segments := image.segments
      relocations := image.relocations }

theorem parse_ok {image : BinaryImage} (hrun : parse limits data = .ok image) :
    Parsed limits data image := by
  unfold parse at hrun
  obtain ⟨_, hrun⟩ := rejectIf_except_bind_eq_ok.mp hrun
  obtain ⟨_, hrun⟩ := rejectIf_except_bind_eq_ok.mp hrun
  obtain ⟨last, hrun⟩ := evaluate_eq_ok.mp hrun
  have hstart : At data 0 { data, order := MachOFile.order data } :=
    ⟨rfl, rfl, rfl⟩
  unfold parseImage reporting at hrun
  obtain ⟨fields, first, hheader, hrun⟩ := bind_eq_ok.mp hrun
  obtain ⟨rfl, _, hfirst⟩ := readMachHeader_ok hstart
    (adaptError_eq_ok.mp hheader)
  obtain ⟨hchecks, hrun⟩ := rejectIf_bind_eq_ok.mp hrun
  rw [not_or, rangeInside_eq_false, not_not] at hchecks
  obtain ⟨⟨cursor, collected⟩, second, hloop, hrun⟩ := bind_eq_ok.mp hrun
  obtain ⟨-, -, hwalked, -⟩ := readLoadCommands_ok rfl hfirst
    (le_of_add_le_left hchecks.2) hloop
  dsimp only at hrun
  rw [pure_eq_ok] at hrun
  obtain ⟨rfl, _⟩ := hrun
  exact ⟨rfl, rfl, hwalked⟩

end MachOParser
end BinForge
