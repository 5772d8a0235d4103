import BinForge.ElfParser
import BinForge.RelocationRecords
import BinForge.Validator

/-!
# What the ELF parser establishes

The headers and table entries of an ELF file, read off the bytes directly, and
the image the parser builds from them.
-/

namespace BinForge

open StatefulExcept
open ListSplice
open ByteReader
open ElfParser

/-! ## The fields of the file -/

namespace ElfFile

def wide (data : Bytes) : Bool := data.getD 4 0 == 2

def order (data : Bytes) : ByteOrder :=
  if data.getD 5 0 = 1 then .little else .big

def wordBytes (data : Bytes) : ℕ := fieldSize (wide data)

def wordAt (data : Bytes) (offset : ℕ) : UInt64 :=
  fieldAt (wide data) (order data) data offset

def half (data : Bytes) (offset : ℕ) : UInt16 := u16At (order data) data offset

def word (data : Bytes) (offset : ℕ) : UInt32 := u32At (order data) data offset

def type (data : Bytes) : UInt16 := half data 16

def flagsOffset (data : Bytes) : ℕ := 24 + 3 * wordBytes data

def header (data : Bytes) : ElfHeader :=
  { entry := wordAt data 24
    programOffset := wordAt data (24 + wordBytes data)
    sectionOffset := wordAt data (24 + 2 * wordBytes data)
    flags := word data (flagsOffset data)
    headerSize := half data (flagsOffset data + 4)
    programEntrySize := half data (flagsOffset data + 6)
    programCount := half data (flagsOffset data + 8)
    sectionEntrySize := half data (flagsOffset data + 10)
    sectionCount := half data (flagsOffset data + 12)
    namesIndex := half data (flagsOffset data + 14) }

def sectionAt (data : Bytes) (offset : ℕ) : RawSection :=
  let size := wordBytes data
  { name := word data offset, type := word data (offset + 4)
    flags := wordAt data (offset + 8)
    address := wordAt data (offset + 8 + size)
    offset := wordAt data (offset + 8 + 2 * size)
    size := wordAt data (offset + 8 + 3 * size)
    link := word data (offset + 8 + 4 * size)
    info := word data (offset + 12 + 4 * size)
    alignment := wordAt data (offset + 16 + 4 * size)
    entrySize := wordAt data (offset + 16 + 5 * size) }

/-- A place in the section table; the sum is a 64-bit one. -/
def sectionOffset (data : Bytes) (index : ℕ) : ℕ :=
  ((header data).sectionOffset +
    UInt64.ofNat index * (header data).sectionEntrySize.toUInt64).toNat

def sections (data : Bytes) : List RawSection :=
  (List.range (header data).sectionCount.toNat).map fun index =>
    sectionAt data (sectionOffset data index)

def programHeaderAt (data : Bytes) (offset : ℕ) : ProgramHeader :=
  if wide data then
    { kind := word data offset, flags := word data (offset + 4)
      fileOffset := wordAt data (offset + 8)
      virtualAddress := wordAt data (offset + 16)
      fileSize := wordAt data (offset + 32)
      memorySize := wordAt data (offset + 40)
      alignment := wordAt data (offset + 48) }
  else
    { kind := word data offset, fileOffset := wordAt data (offset + 4)
      virtualAddress := wordAt data (offset + 8)
      fileSize := wordAt data (offset + 16)
      memorySize := wordAt data (offset + 20)
      flags := word data (offset + 24)
      alignment := wordAt data (offset + 28) }

def programOffset (data : Bytes) (index : ℕ) : ℕ :=
  ((header data).programOffset +
    UInt64.ofNat index * (header data).programEntrySize.toUInt64).toNat

def programHeader (data : Bytes) (index : ℕ) : ProgramHeader :=
  programHeaderAt data (programOffset data index)

/-- The positions of the load segments in the program table. -/
def loadIndices (data : Bytes) : List ℕ :=
  (List.range (header data).programCount.toNat).filter fun index =>
    (programHeader data index).kind = 1

def symbolEntryAt (data : Bytes) (offset : ℕ) : SymbolEntry :=
  if wide data then
    { name := word data offset, info := u8At data (offset + 4)
      other := u8At data (offset + 5), sectionIndex := half data (offset + 6)
      value := wordAt data (offset + 8), size := wordAt data (offset + 16) }
  else
    { name := word data offset, value := wordAt data (offset + 4)
      size := wordAt data (offset + 8), info := u8At data (offset + 12)
      other := u8At data (offset + 13), sectionIndex := half data (offset + 14) }

/-- An entry of a table: the table's section and a position in it. -/
abbrev TableEntry := RawSection × ℕ

/-- The symbol of a table entry, given its place in the image's list. -/
def symbolOf (limits : Limits) (data : Bytes) (entry : TableEntry)
    (index : ℕ) : Symbol :=
  (symbolEntryAt data
    (entry.1.offset + UInt64.ofNat entry.2 * entry.1.entrySize).toNat).toSymbol
      limits data ((sections data).getD entry.1.link.toNat {}) index

def symbolCount (data : Bytes) (item : RawSection) : ℕ :=
  if item.isSymbolTable (sections data) then (item.size / item.entrySize).toNat
  else 0

def symbolEntries (data : Bytes) (items : List RawSection) : List TableEntry :=
  items.flatMap fun item =>
    (List.range (symbolCount data item)).map fun j => (item, j)

/-- What the record decoder is told about a relocation table. -/
def recordOptions (data : Bytes) (item : RawSection) :
    RelocationDecodeOptions :=
  { wordSize := if wide data then .bits64 else .bits32
    byteOrder := order data, entrySize := item.entrySize
    explicitAddends := item.type == 4 }

def tableBytes (data : Bytes) (item : RawSection) : Bytes :=
  slice data item.offset.toNat item.size.toNat

def recordCount (data : Bytes) (item : RawSection) : ℕ :=
  if item.isRelocationTable then
    RelocationTableDecoder.elfCount (recordOptions data item)
      (tableBytes data item)
  else 0

def recordSymbol (data : Bytes) (record : TableEntry) : UInt32 :=
  RelocationTableDecoder.elfSymbolIndex (recordOptions data record.1)
    (tableBytes data record.1) record.2

def relocationRecords (data : Bytes) (items : List RawSection) :
    List TableEntry :=
  items.flatMap fun item =>
    (List.range (recordCount data item)).map fun n => (item, n)

end ElfFile

namespace ElfParser

open ElfFile

variable {limits : Limits} {data : Bytes} {reader next : ByteReader}

/-- The reader walks the file in its own byte order. -/
structure OnFile (data : Bytes) (reader : ByteReader) : Prop where
  order : reader.order = ElfFile.order data
  data : reader.data = data

theorem OnFile.movedTo (hreader : OnFile data reader) (position : ℕ) :
    OnFile data (reader.movedTo position) :=
  ⟨hreader.order, hreader.data⟩

/-! ## Records -/

theorem readElfHeader_ok (hreader : OnFile data reader) {header : ElfHeader}
    (hposition : reader.position = 24)
    (hrun : readElfHeader (wide data) reader = .ok header next) :
    header = ElfFile.header data ∧ OnFile data next := by
  obtain ⟨horder, rfl⟩ := hreader
  simp only [readElfHeader, bind_eq_ok, readWord_at, readU32_at, readU16_at,
    pure_eq_ok, and_assoc, exists_and_left, exists_eq_left, movedTo_data,
    movedTo_order, movedTo_position, movedTo_movedTo, Nat.add_assoc,
    Nat.reduceAdd, hposition, horder] at hrun
  obtain ⟨_, _, _, _, _, _, _, _, _, _, rfl, rfl⟩ := hrun
  refine ⟨?_, horder, rfl⟩
  simp only [ElfFile.header, flagsOffset, wordAt, wordBytes, half, word,
    Nat.succ_mul, Nat.zero_mul, Nat.zero_add, Nat.add_assoc]

theorem readSection_ok (hreader : OnFile data reader) {item : RawSection}
    (hrun : readSection (wide data) reader = .ok item next) :
    item = sectionAt data reader.position ∧ OnFile data next := by
  obtain ⟨horder, rfl⟩ := hreader
  simp only [readSection, bind_eq_ok, readWord_at, readU32_at, pure_eq_ok,
    and_assoc, exists_and_left, exists_eq_left, movedTo_data, movedTo_order,
    movedTo_position, movedTo_movedTo, Nat.add_assoc, Nat.reduceAdd,
    horder] at hrun
  obtain ⟨_, _, _, _, _, _, _, _, _, _, rfl, rfl⟩ := hrun
  refine ⟨?_, horder, rfl⟩
  simp only [sectionAt, wordAt, wordBytes, word]
  congr 2 <;> omega

theorem readProgramHeader_ok (hreader : OnFile data reader)
    {header : ProgramHeader}
    (hrun : readProgramHeader (wide data) reader = .ok header next) :
    header = programHeaderAt data reader.position ∧ OnFile data next := by
  obtain ⟨horder, rfl⟩ := hreader
  unfold readProgramHeader at hrun
  cases hwide : wide reader.data <;>
    simp only [hwide, Bool.false_eq_true, if_false, if_true, bind_eq_ok,
      readU64_at, readU32_at, pure_eq_ok, and_assoc, exists_and_left,
      exists_eq_left, movedTo_data, movedTo_order, movedTo_position,
      movedTo_movedTo, Nat.add_assoc, Nat.reduceAdd, horder]
      at hrun
  all_goals
    obtain ⟨_, _, _, _, _, _, _, _, rfl, rfl⟩ := hrun
    refine ⟨?_, horder, rfl⟩
    simp only [programHeaderAt, hwide, Bool.false_eq_true, if_false, if_true,
      wordAt, fieldAt, word]

theorem readSymbolEntry_ok (hreader : OnFile data reader) {entry : SymbolEntry}
    (hrun : readSymbolEntry (wide data) reader = .ok entry next) :
    entry = symbolEntryAt data reader.position ∧ OnFile data next := by
  obtain ⟨horder, rfl⟩ := hreader
  unfold readSymbolEntry at hrun
  cases hwide : wide reader.data <;>
    simp only [hwide, Bool.false_eq_true, if_false, if_true, bind_eq_ok,
      readU64_at, readU32_at, readU16_at, readU8_at, pure_eq_ok, and_assoc,
      exists_and_left, exists_eq_left, movedTo_data, movedTo_order,
      movedTo_position, movedTo_movedTo, Nat.add_assoc, Nat.reduceAdd,
      horder] at hrun
  all_goals
    obtain ⟨_, _, _, _, _, _, rfl, rfl⟩ := hrun
    refine ⟨?_, horder, rfl⟩
    simp only [symbolEntryAt, hwide, Bool.false_eq_true, if_false, if_true,
      wordAt, fieldAt, word, half]

/-! ## Sections -/

def StoredInside (data : Bytes) (item : RawSection) : Prop :=
  item.type ≠ 8 → item.offset.toNat + item.size.toNat ≤ data.length

theorem readRawSection_ok (hreader : OnFile data reader) {index : ℕ}
    {item : RawSection}
    (hrun : readRawSection data (wide data) (header data) index reader =
      .ok item next) :
    item = sectionAt data (sectionOffset data index) ∧
      StoredInside data item ∧ OnFile data next := by
  unfold readRawSection truncatedAt at hrun
  obtain ⟨_, first, hread, hrun⟩ := bind_eq_ok.mp hrun
  obtain ⟨_, sought, hseek, hread⟩ :=
    bind_eq_ok.mp (adaptError_eq_ok.mp hread)
  obtain ⟨_, rfl⟩ := seek_eq_ok.mp hseek
  obtain ⟨rfl, hfirst⟩ := readSection_ok (hreader.movedTo _) hread
  obtain ⟨hinside, hrun⟩ := rejectIf_bind_eq_ok.mp hrun
  rw [rangeInside_eq_false, not_and, not_not] at hinside
  rw [pure_eq_ok] at hrun
  obtain ⟨rfl, rfl⟩ := hrun
  exact ⟨rfl, hinside, hfirst⟩

theorem readRawSections_ok (hreader : OnFile data reader)
    {raw : List RawSection}
    (hrun : readRawSections data (wide data) (header data) reader =
      .ok raw next) :
    raw = sections data ∧ (∀ item ∈ sections data, StoredInside data item) ∧
      OnFile data next := by
  unfold readRawSections at hrun
  obtain ⟨tableBytes, _, hrun⟩ := demand_bind_eq_ok.mp hrun
  obtain ⟨_, hrun⟩ := rejectIf_bind_eq_ok.mp hrun
  obtain ⟨rfl, hstored, hnext⟩ := traverse_eq_map (OnFile data)
    (fun index => sectionAt data (sectionOffset data index))
    (fun index => StoredInside data (sectionAt data (sectionOffset data index)))
    hrun hreader fun index _ state item last hstate hread => by
      obtain ⟨rfl, hstored, hlast⟩ := readRawSection_ok hstate hread
      exact ⟨rfl, hstored, hlast⟩
  exact ⟨rfl, List.forall_mem_map.mpr hstored, hnext⟩

/-! ## Segments -/

/-- The segment is no larger in the file than in memory, and lies inside the
file. -/
def LoadInside (data : Bytes) (header : ProgramHeader) : Prop :=
  header.fileSize ≤ header.memorySize ∧
    header.fileOffset.toNat + header.fileSize.toNat ≤ data.length

def segmentAt (data : Bytes) (index : ℕ) : Segment :=
  (programHeader data index).toSegment index

theorem readSegment_ok (hreader : OnFile data reader) {index : ℕ}
    {segments result : List Segment}
    (hfit : programOffset data index ≤ data.length)
    (hrun : readSegment data (wide data) (header data) segments index reader =
      .ok result next) :
    (if (programHeader data index).kind = 1 then
        result = segments ++ [segmentAt data index] ∧
          LoadInside data (programHeader data index)
      else result = segments) ∧ OnFile data next := by
  unfold readSegment truncatedAt at hrun
  obtain ⟨_, first, hmove, hrun⟩ := bind_eq_ok.mp hrun
  obtain rfl := attempt_seek_ok (by rw [hreader.data]; exact hfit) hmove
  obtain ⟨entry, second, hentry, hrun⟩ := bind_eq_ok.mp hrun
  obtain ⟨rfl, hsecond⟩ :=
    readProgramHeader_ok (hreader.movedTo _) (adaptError_eq_ok.mp hentry)
  rw [movedTo_position] at hrun
  have hsame : programHeaderAt data ((header data).programOffset +
      UInt64.ofNat index * (header data).programEntrySize.toUInt64).toNat =
        programHeader data index := rfl
  rw [hsame] at hrun
  by_cases hkind : (programHeader data index).kind = 1
  · rw [if_neg (not_not.mpr hkind)] at hrun
    obtain ⟨hinside, hrun⟩ := rejectIf_bind_eq_ok.mp hrun
    rw [not_or, gt_iff_lt, UInt64.not_lt, rangeInside_eq_false,
      not_not] at hinside
    rw [pure_eq_ok] at hrun
    obtain ⟨rfl, rfl⟩ := hrun
    rw [if_pos hkind]
    exact ⟨⟨rfl, hinside⟩, hsecond⟩
  · rw [if_pos hkind, pure_eq_ok] at hrun
    obtain ⟨rfl, rfl⟩ := hrun
    rw [if_neg hkind]
    exact ⟨rfl, hsecond⟩

theorem readSegments_ok (hreader : OnFile data reader)
    {segments : List Segment}
    (hrun : readSegments data (wide data) (header data) reader =
      .ok segments next) :
    segments = (loadIndices data).map (segmentAt data) ∧
      (∀ index ∈ loadIndices data,
        LoadInside data (programHeader data index)) ∧ OnFile data next := by
  unfold readSegments at hrun
  obtain ⟨tableBytes, hbytes, hrun⟩ := demand_bind_eq_ok.mp hrun
  obtain ⟨hinside, hrun⟩ := rejectIf_bind_eq_ok.mp hrun
  have hproduct := checkedMultiply_toNat hbytes
  rw [not_or, rangeInside_eq_false, not_not, hproduct,
    UInt16.toNat_toUInt64, UInt16.toNat_toUInt64] at hinside
  refine foldlM_ok_induction (fun done carried state =>
    carried = (done.filter fun index =>
        (programHeader data index).kind = 1).map (segmentAt data) ∧
      (∀ index ∈ done.filter fun index => (programHeader data index).kind = 1,
        LoadInside data (programHeader data index)) ∧ OnFile data state)
    hrun ⟨rfl, by simp, hreader⟩ ?_
  rintro done index rest carried state passed after hsplit ⟨rfl, hdone, hstate⟩
    hstep
  have hindex : index < (header data).programCount.toNat :=
    List.mem_range.mp (hsplit ▸ by simp)
  have hfit : programOffset data index ≤ data.length := by
    have hplace := MachineInteger.place_le (header data).programOffset
      (header data).programEntrySize.toUInt64 index
    rw [UInt16.toNat_toUInt64] at hplace
    calc programOffset data index
        ≤ (header data).programOffset.toNat +
            index * (header data).programEntrySize.toNat := hplace
      _ ≤ (header data).programOffset.toNat +
            (header data).programCount.toNat *
              (header data).programEntrySize.toNat :=
          Nat.add_le_add_left (Nat.mul_le_mul_right _ hindex.le) _
      _ ≤ data.length := by
          rw [Nat.mul_comm]
          exact hinside.1
  obtain ⟨hread, hafter⟩ := readSegment_ok hstate hfit hstep
  rw [List.filter_append, List.filter_singleton]
  by_cases hkind : (programHeader data index).kind = 1
  · rw [if_pos hkind] at hread
    obtain ⟨rfl, hload⟩ := hread
    simp only [hkind, decide_true, cond_true, List.map_append, List.map_singleton,
      List.forall_mem_append, List.forall_mem_singleton]
    exact ⟨trivial, ⟨hdone, hload⟩, hafter⟩
  · rw [if_neg hkind] at hread
    subst hread
    simp only [hkind, decide_false, cond_false, List.append_nil]
    exact ⟨trivial, hdone, hafter⟩

/-! ## Symbols -/

def symbolsOf (limits : Limits) (data : Bytes) (entries : List TableEntry) :
    List Symbol :=
  entries.mapIdx fun index entry => symbolOf limits data entry index

theorem symbolsOf_append_singleton (entries : List TableEntry)
    (entry : TableEntry) :
    symbolsOf limits data (entries ++ [entry]) =
      symbolsOf limits data entries ++
        [symbolOf limits data entry (symbolsOf limits data entries).length] := by
  simp [symbolsOf]

theorem readSymbol_ok (hreader : OnFile data reader) {table : RawSection}
    {entries : List TableEntry} {j : ℕ} {result : List Symbol}
    (hfit : (table.offset + UInt64.ofNat j * table.entrySize).toNat ≤
      data.length)
    (hrun : readSymbol limits data (wide data) table
      ((sections data).getD table.link.toNat {})
      (symbolsOf limits data entries) j reader = .ok result next) :
    result = symbolsOf limits data (entries ++ [(table, j)]) ∧
      OnFile data next := by
  unfold readSymbol truncatedAt at hrun
  obtain ⟨_, first, hmove, hrun⟩ := bind_eq_ok.mp hrun
  obtain rfl := attempt_seek_ok (by rw [hreader.data]; exact hfit) hmove
  obtain ⟨entry, second, hentry, hrun⟩ := bind_eq_ok.mp hrun
  obtain ⟨rfl, hsecond⟩ :=
    readSymbolEntry_ok (hreader.movedTo _) (adaptError_eq_ok.mp hentry)
  rw [pure_eq_ok] at hrun
  obtain ⟨rfl, rfl⟩ := hrun
  rw [symbolsOf_append_singleton]
  exact ⟨rfl, hsecond⟩

theorem readSymbolTable_ok (hreader : OnFile data reader) {table : RawSection}
    (hstored : StoredInside data table) {items : List RawSection}
    {result : List Symbol}
    (hrun : readSymbolTable limits data (wide data) (sections data)
      (symbolsOf limits data (symbolEntries data items)) table reader =
        .ok result next) :
    result = symbolsOf limits data (symbolEntries data (items ++ [table])) ∧
      OnFile data next := by
  have hgrown : symbolEntries data (items ++ [table]) =
      symbolEntries data items ++
        (List.range (symbolCount data table)).map fun j => (table, j) := by
    simp [symbolEntries]
  unfold readSymbolTable at hrun
  rw [hgrown, symbolCount]
  by_cases htable : table.isSymbolTable (sections data)
  · rw [if_pos htable] at hrun ⊢
    obtain ⟨_, hrun⟩ := rejectIf_bind_eq_ok.mp hrun
    refine foldlM_ok_induction (fun done carried state =>
      carried = symbolsOf limits data
        (symbolEntries data items ++ done.map fun j => (table, j)) ∧
      OnFile data state) hrun ⟨by rw [List.map_nil, List.append_nil], hreader⟩ ?_
    rintro done j rest carried state passed after hsplit ⟨rfl, hstate⟩ hstep
    have hj : j < (table.size / table.entrySize).toNat :=
      List.mem_range.mp (hsplit ▸ by simp)
    have hfit : (table.offset + UInt64.ofNat j * table.entrySize).toNat ≤
        data.length := by
      have hinside := hstored (by
        rcases htable.1 with htype | htype <;> rw [htype] <;> decide)
      rw [UInt64.toNat_div] at hj
      calc (table.offset + UInt64.ofNat j * table.entrySize).toNat
          ≤ table.offset.toNat + j * table.entrySize.toNat :=
            MachineInteger.place_le _ _ _
        _ ≤ table.offset.toNat + table.size.toNat :=
            Nat.add_le_add_left (Nat.mul_le_of_le_div _ _ _ hj.le) _
        _ ≤ data.length := hinside
    obtain ⟨rfl, hafter⟩ := readSymbol_ok hstate hfit hstep
    rw [List.map_append, List.map_singleton, ← List.append_assoc]
    exact ⟨rfl, hafter⟩
  · rw [if_neg htable, pure_eq_ok] at hrun
    obtain ⟨rfl, rfl⟩ := hrun
    rw [if_neg htable, List.range_zero, List.map_nil, List.append_nil]
    exact ⟨rfl, hreader⟩

theorem readSymbolTables_ok (hreader : OnFile data reader)
    (hstored : ∀ item ∈ sections data, StoredInside data item)
    {symbols : List Symbol}
    (hrun : (sections data).foldlM
      (readSymbolTable limits data (wide data) (sections data)) [] reader =
        .ok symbols next) :
    symbols = symbolsOf limits data (symbolEntries data (sections data)) ∧
      OnFile data next := by
  refine foldlM_ok_induction (fun done carried state =>
    carried = symbolsOf limits data (symbolEntries data done) ∧
      OnFile data state) hrun ⟨rfl, hreader⟩ ?_
  rintro done table rest carried state passed after hsplit ⟨rfl, hstate⟩ hstep
  exact readSymbolTable_ok hstate (hstored table (hsplit ▸ by simp)) hstep

/-! ## Relocations -/

/-- The relocation keeps the symbol index stored in the record. -/
def Stores (data : Bytes) (record : TableEntry) (relocation : Relocation) :
    Prop :=
  relocation.symbolIndex = recordSymbol data record

/-- The relocations decoded from these records, within the limit. -/
structure Decoded (limits : Limits) (data : Bytes) (records : List TableEntry)
    (relocations : List Relocation) : Prop where
  stored : List.Forall₂ (Stores data) records relocations
  bounded : relocations.length ≤ limits.maxRelocations.toNat

theorem decodeRelocations_ok {type machine : UInt16} {fields : ElfHeader}
    {images : List Section} {item : RawSection} {items : List RawSection}
    {output result : List Relocation}
    (houtput : Decoded limits data (relocationRecords data items) output)
    (hrun : decodeRelocations limits data
      (imageHeader (wide data) (order data) type machine fields) images output
        item = .ok result) :
    Decoded limits data (relocationRecords data (items ++ [item])) result := by
  have hgrown : relocationRecords data (items ++ [item]) =
      relocationRecords data items ++
        (List.range (recordCount data item)).map fun n => (item, n) := by
    simp [relocationRecords]
  unfold decodeRelocations at hrun
  rw [hgrown, recordCount]
  by_cases htable : item.isRelocationTable
  · rw [if_pos htable] at hrun ⊢
    have happends := RelocationTableDecoder.decodeElf_ok hrun
    have hbounded := happends.length_le houtput.bounded
    obtain ⟨added, rfl, hall⟩ := happends.appended
    exact ⟨List.rel_append houtput.stored
      (List.forall₂_map_left_iff.mpr hall), hbounded⟩
  · rw [if_neg htable] at hrun
    obtain rfl := Except.ok.inj hrun
    rw [if_neg htable, List.range_zero, List.map_nil, List.append_nil]
    exact houtput

theorem decodeAllRelocations_ok {type machine : UInt16} {fields : ElfHeader}
    {images : List Section} {items : List RawSection}
    {relocations : List Relocation}
    (hrun : items.foldlM (decodeRelocations limits data
      (imageHeader (wide data) (order data) type machine fields) images) [] =
        .ok relocations) :
    Decoded limits data (relocationRecords data items) relocations := by
  refine foldlM_except_induction (fun done carried =>
    Decoded limits data (relocationRecords data done) carried) hrun
    ⟨.nil, Nat.zero_le _⟩ ?_
  rintro done item rest carried passed - hdone hstep
  exact decodeRelocations_ok hdone hstep

/-! ## The whole image -/

/-- The image of an accepted file, field by field. -/
structure Parsed (limits : Limits) (data : Bytes) (image : BinaryImage) :
    Prop where
  fileData : image.fileData = some data
  sections : image.sections = (sections data).mapIdx fun index item =>
    item.toSection limits data (sections data) (header data).namesIndex index
  sectionCount : (header data).sectionCount.toNat ≤ limits.maxSections.toNat
  stored : ∀ item ∈ ElfFile.sections data, StoredInside data item
  segments : image.segments = (loadIndices data).map (segmentAt data)
  segmentCount : (header data).programCount.toNat ≤ limits.maxSegments.toNat
  loads : ∀ index ∈ loadIndices data,
    LoadInside data (programHeader data index)
  symbols : image.symbols =
    symbolsOf limits data (symbolEntries data (ElfFile.sections data))
  relocations : Decoded limits data
    (relocationRecords data (ElfFile.sections data)) image.relocations

theorem parseIdentification_ok {found : Bool × ByteOrder}
    (hrun : parseIdentification data = .ok found) :
    found = (wide data, order data) := by
  unfold parseIdentification at hrun
  obtain ⟨_, hrun⟩ := rejectIf_except_bind_eq_ok.mp hrun
  rw [ElfFile.order]
  dsimp only at hrun
  split at hrun
  · next hlittle =>
      rw [if_pos hlittle]
      exact (Except.ok.inj hrun).symm
  · next hlittle =>
      rw [if_neg hlittle]
      split at hrun
      · exact (Except.ok.inj hrun).symm
      · contradiction

theorem readCommonHeader_ok {found : UInt16 × UInt16}
    (hrun : readCommonHeader reader = .ok found next) :
    next = reader.movedTo (reader.position + 8) := by
  simp only [readCommonHeader, bind_eq_ok, readU16_at, readU32_at,
    rejectIf_eq_ok, pure_eq_ok, and_assoc, exists_and_left, exists_eq_left,
    exists_const, movedTo_data, movedTo_order, movedTo_position,
    movedTo_movedTo, Nat.add_assoc, Nat.reduceAdd] at hrun
  obtain ⟨_, _, _, _, _, rfl⟩ := hrun
  rfl

/-- What is known of a file when its symbols are read. -/
structure Tables where
  header : FileHeader
  raw : List RawSection
  sections : List Section
  segments : List Segment

/-- The stages of the parser before the symbols. -/
def readTables (limits : Limits) (data : Bytes) (wide : Bool)
    (order : ByteOrder) : DecodeCall Tables := do
  silently (seek 16)
  let (type, machine) ← reporting
    (failure .invalidHeader 16 "invalid ELF common header") readCommonHeader
  let header ← truncatedAt (readElfHeader wide)
  rejectIf (header.sectionCount.toUInt32 > limits.maxSections ∨
      header.programCount.toUInt32 > limits.maxSegments)
    (failure .resourceLimit 0 "ELF table count exceeds limits")
  let raw ← readRawSections data wide header
  let sections := raw.mapIdx fun index item =>
    item.toSection limits data raw header.namesIndex index
  let segments ← readSegments data wide header
  return { header := imageHeader wide order type machine header, raw, sections,
           segments }

/-- The symbols and the relocations are read behind the tables. -/
theorem parseImage_eq (limits : Limits) (data : Bytes) (wide : Bool)
    (order : ByteOrder) :
    parseImage limits data wide order = do
      let tables ← readTables limits data wide order
      let symbols ← tables.raw.foldlM
        (readSymbolTable limits data wide tables.raw) []
      let relocations ← liftExcept (tables.raw.foldlM
        (decodeRelocations limits data tables.header tables.sections) [])
      return { fileData := some data, header := tables.header
               sections := tables.sections, segments := tables.segments
               symbols, relocations } := by
  simp only [parseImage, readTables, bind_assoc, pure_bind]

/-- The tables of a file, field by field. -/
structure TablesOf (limits : Limits) (data : Bytes) (tables : Tables) :
    Prop where
  header : ∃ type machine, tables.header =
    imageHeader (wide data) (order data) type machine (ElfFile.header data)
  raw : tables.raw = sections data
  sections : tables.sections = (ElfFile.sections data).mapIdx
    fun index item => item.toSection limits data (ElfFile.sections data)
      (ElfFile.header data).namesIndex index
  sectionCount : (ElfFile.header data).sectionCount.toNat ≤
    limits.maxSections.toNat
  stored : ∀ item ∈ ElfFile.sections data, StoredInside data item
  segments : tables.segments = (loadIndices data).map (segmentAt data)
  segmentCount : (ElfFile.header data).programCount.toNat ≤
    limits.maxSegments.toNat
  loads : ∀ index ∈ loadIndices data,
    LoadInside data (programHeader data index)

theorem readTables_ok {tables : Tables}
    (hrun : readTables limits data (wide data) (order data)
      { data, order := order data } = .ok tables next) :
    TablesOf limits data tables ∧ OnFile data next := by
  have hstart : OnFile data { data, order := order data } := ⟨rfl, rfl⟩
  unfold readTables silently reporting truncatedAt at hrun
  obtain ⟨_, first, hseek, hrun⟩ := bind_eq_ok.mp hrun
  obtain ⟨_, rfl⟩ := seek_eq_ok.mp (adaptError_eq_ok.mp hseek)
  obtain ⟨⟨type, machine⟩, second, hcommon, hrun⟩ := bind_eq_ok.mp hrun
  obtain rfl := readCommonHeader_ok (adaptError_eq_ok.mp hcommon)
  obtain ⟨fields, third, hheader, hrun⟩ := bind_eq_ok.mp hrun
  obtain ⟨rfl, hthird⟩ := readElfHeader_ok ((hstart.movedTo _).movedTo _) rfl
    (adaptError_eq_ok.mp hheader)
  obtain ⟨hcounts, hrun⟩ := rejectIf_bind_eq_ok.mp hrun
  rw [not_or, gt_iff_lt, gt_iff_lt, UInt32.not_lt, UInt32.not_lt,
    UInt32.le_iff_toNat_le, UInt32.le_iff_toNat_le, UInt16.toNat_toUInt32,
    UInt16.toNat_toUInt32] at hcounts
  obtain ⟨raw, fourth, hraw, hrun⟩ := bind_eq_ok.mp hrun
  obtain ⟨rfl, hstored, hfourth⟩ := readRawSections_ok hthird hraw
  obtain ⟨segments, fifth, hsegments, hrun⟩ := bind_eq_ok.mp hrun
  obtain ⟨rfl, hloads, hfifth⟩ := readSegments_ok hfourth hsegments
  rw [pure_eq_ok] at hrun
  obtain ⟨rfl, rfl⟩ := hrun
  exact ⟨⟨⟨type, machine, rfl⟩, rfl, rfl, hcounts.1, hstored, rfl, hcounts.2,
    hloads⟩, hfifth⟩

theorem parse_ok {image : BinaryImage} (hrun : parse limits data = .ok image) :
    Parsed limits data image := by
  obtain ⟨_, hident, hrun⟩ := except_bind_eq_ok.mp hrun
  rw [parseIdentification_ok hident] at hrun
  obtain ⟨last, hrun⟩ := evaluate_eq_ok.mp hrun
  rw [parseImage_eq] at hrun
  obtain ⟨tables, fifth, htables, hrun⟩ := bind_eq_ok.mp hrun
  obtain ⟨htables, hfifth⟩ := readTables_ok htables
  obtain ⟨type, machine, hheader⟩ := htables.header
  rw [htables.raw, hheader] at hrun
  obtain ⟨symbols, sixth, hsymbols, hrun⟩ := bind_eq_ok.mp hrun
  obtain ⟨rfl, _⟩ := readSymbolTables_ok hfifth htables.stored hsymbols
  obtain ⟨relocations, seventh, hrelocations, hrun⟩ := bind_eq_ok.mp hrun
  have hdecoded := decodeAllRelocations_ok (liftExcept_eq_ok.mp hrelocations).1
  rw [pure_eq_ok] at hrun
  obtain ⟨rfl, _⟩ := hrun
  exact ⟨rfl, htables.sections, htables.sectionCount, htables.stored,
    htables.segments, htables.segmentCount, htables.loads, rfl, hdecoded⟩

end ElfParser
end BinForge
