import BinForge.PeParser
import BinForge.RelocationRecords
import BinForge.Validator

/-!
# What the PE parser establishes

The fields of a PE file, read off the bytes directly, and the image the parser
builds from them.
-/

namespace BinForge

open StatefulExcept
open ListSplice
open ByteReader
open PeParser

/-! ## The fields of the file -/

namespace PeFile

def headerOffset (data : Bytes) : UInt32 := u32At .little data 0x3c

def sectionCount (data : Bytes) : UInt16 :=
  u16At .little data ((headerOffset data).toNat + 6)

def optionalSize (data : Bytes) : UInt16 :=
  u16At .little data ((headerOffset data).toNat + 20)

def optionalOffset (data : Bytes) : UInt64 :=
  (headerOffset data + 24).toUInt64

def wide (data : Bytes) : Bool :=
  u16At .little data (optionalOffset data).toNat == 0x20b

def entry (data : Bytes) : UInt32 :=
  u32At .little data ((optionalOffset data).toNat + 16)

def imageBase (data : Bytes) : UInt64 :=
  if wide data then u64At .little data ((optionalOffset data).toNat + 24)
  else (u32At .little data ((optionalOffset data).toNat + 28)).toUInt64

def sectionAlignment (data : Bytes) : UInt32 :=
  u32At .little data ((optionalOffset data).toNat + 32)

def sectionTable (data : Bytes) : UInt64 :=
  optionalOffset data + (optionalSize data).toUInt64

def headerAt (data : Bytes) (offset : ℕ) : SectionHeader :=
  { name := fixedStringAt data offset 8
    virtualSize := u32At .little data (offset + 8)
    rva := u32At .little data (offset + 12)
    rawSize := u32At .little data (offset + 16)
    rawOffset := u32At .little data (offset + 20)
    reloc := u32At .little data (offset + 24)
    line := u32At .little data (offset + 28)
    relocCount := u32At .little data (offset + 32)
    lineCount := u32At .little data (offset + 36)
    flags := u32At .little data (offset + 40) }

def sectionHeader (data : Bytes) (index : ℕ) : SectionHeader :=
  headerAt data (sectionTable data + UInt64.ofNat index * 40).toNat

def sections (data : Bytes) : List SectionHeader :=
  (List.range (sectionCount data).toNat).map (sectionHeader data)

end PeFile

namespace PeParser

variable {limits : Limits} {data : Bytes} {reader next : ByteReader}

/-- The reader walks the file, in little-endian order. -/
structure OnFile (data : Bytes) (reader : ByteReader) : Prop where
  data : reader.data = data
  order : reader.order = .little

theorem OnFile.movedTo (hreader : OnFile data reader) (position : ℕ) :
    OnFile data (reader.movedTo position) :=
  ⟨hreader.data, hreader.order⟩

theorem readCoffHeader_ok {header : CoffHeader}
    (hrun : readCoffHeader reader = .ok header next) :
    header.sections = u16At reader.order reader.data (reader.position + 6) ∧
      header.optionalSize =
        u16At reader.order reader.data (reader.position + 20) ∧
      next = reader.movedTo (reader.position + 24) := by
  simp only [readCoffHeader, bind_eq_ok, readU32_at, readU16_at, rejectIf_eq_ok,
    pure_eq_ok, and_assoc, exists_and_left, exists_eq_left, exists_const,
    movedTo_data, movedTo_order, movedTo_position, movedTo_movedTo,
    Nat.add_assoc, Nat.reduceAdd] at hrun
  obtain ⟨_, _, _, _, _, _, _, _, _, rfl, rfl⟩ := hrun
  exact ⟨rfl, rfl, rfl⟩

theorem readWide_ok {value : Bool} (hrun : readWide reader = .ok value next) :
    value = (u16At reader.order reader.data reader.position == 0x20b) ∧
      next = reader.movedTo (reader.position + 2) := by
  simp only [readWide, bind_eq_ok, readU16_at, rejectIf_eq_ok, pure_eq_ok,
    and_assoc, exists_and_left, exists_eq_left, exists_const] at hrun
  obtain ⟨_, _, rfl, rfl⟩ := hrun
  exact ⟨rfl, rfl⟩

theorem readStandardFields_ok {fields : StandardFields}
    (hrun : readStandardFields reader = .ok fields next) :
    fields.entry = u32At reader.order reader.data (reader.position + 14) ∧
      next = reader.movedTo (reader.position + 22) := by
  simp only [readStandardFields, bind_eq_ok, readU32_at, readU8_at, pure_eq_ok,
    and_assoc, exists_and_left, exists_eq_left, movedTo_data, movedTo_order,
    movedTo_position, movedTo_movedTo, Nat.add_assoc, Nat.reduceAdd] at hrun
  obtain ⟨_, _, _, _, _, _, _, rfl, rfl⟩ := hrun
  exact ⟨rfl, rfl⟩

theorem readImageBase_ok {wide : Bool} {base : UInt64}
    (hrun : readImageBase wide reader = .ok base next) :
    base = (if wide then u64At reader.order reader.data reader.position
      else (u32At reader.order reader.data (reader.position + 4)).toUInt64) ∧
      next = reader.movedTo (reader.position + 8) := by
  cases wide with
  | true =>
      rw [readImageBase, if_pos rfl, readU64_at] at hrun
      exact ⟨hrun.2.1, hrun.2.2⟩
  | false =>
      simp only [readImageBase, Bool.false_eq_true, if_false, bind_eq_ok,
        readU32_at, pure_eq_ok, and_assoc, exists_and_left, exists_eq_left,
        movedTo_data, movedTo_order, movedTo_position, movedTo_movedTo,
        Nat.add_assoc, Nat.reduceAdd] at hrun
      obtain ⟨_, _, rfl, rfl⟩ := hrun
      exact ⟨rfl, rfl⟩

theorem readAlignments_ok {alignment : UInt32}
    (hrun : readAlignments reader = .ok alignment next) :
    alignment = u32At reader.order reader.data reader.position ∧
      next = reader.movedTo (reader.position + 8) := by
  simp only [readAlignments, bind_eq_ok, readU32_at, rejectIf_eq_ok, pure_eq_ok,
    and_assoc, exists_and_left, exists_eq_left, exists_const, movedTo_data,
    movedTo_order, movedTo_position, movedTo_movedTo, Nat.add_assoc,
    Nat.reduceAdd] at hrun
  obtain ⟨_, _, _, rfl, rfl⟩ := hrun
  exact ⟨rfl, rfl⟩

theorem readSectionFields_ok {name : Bytes} {header : SectionHeader}
    (hrun : readSectionFields name reader = .ok header next) :
    header =
      { name
        virtualSize := u32At reader.order reader.data reader.position
        rva := u32At reader.order reader.data (reader.position + 4)
        rawSize := u32At reader.order reader.data (reader.position + 8)
        rawOffset := u32At reader.order reader.data (reader.position + 12)
        reloc := u32At reader.order reader.data (reader.position + 16)
        line := u32At reader.order reader.data (reader.position + 20)
        relocCount := u32At reader.order reader.data (reader.position + 24)
        lineCount := u32At reader.order reader.data (reader.position + 28)
        flags := u32At reader.order reader.data (reader.position + 32) } ∧
      next = reader.movedTo (reader.position + 36) := by
  simp only [readSectionFields, bind_eq_ok, readU32_at, pure_eq_ok, and_assoc,
    exists_and_left, exists_eq_left, movedTo_data, movedTo_order,
    movedTo_position, movedTo_movedTo, Nat.add_assoc, Nat.reduceAdd] at hrun
  obtain ⟨_, _, _, _, _, _, _, _, _, rfl, rfl⟩ := hrun
  exact ⟨rfl, rfl⟩

/-! ## The stages -/

theorem parseCoff_ok (hreader : OnFile data reader) {offset : UInt32}
    {header : CoffHeader}
    (hrun : parseCoff limits data reader = .ok (offset, header) next) :
    offset = PeFile.headerOffset data ∧
      header.sections = PeFile.sectionCount data ∧
      header.optionalSize = PeFile.optionalSize data ∧
      header.sections.toUInt32 ≤ limits.maxSections ∧ OnFile data next := by
  obtain ⟨rfl, horder⟩ := hreader
  unfold parseCoff reporting at hrun
  obtain ⟨_, hrun⟩ := rejectIf_bind_eq_ok.mp hrun
  obtain ⟨_, first, hseek, hrun⟩ := bind_eq_ok.mp hrun
  obtain ⟨_, rfl⟩ := seek_eq_ok.mp (adaptError_eq_ok.mp hseek)
  obtain ⟨found, second, hread, hrun⟩ := bind_eq_ok.mp hrun
  obtain ⟨_, hfound, rfl⟩ := readU32_at.mp (adaptError_eq_ok.mp hread)
  have hoffset : found = PeFile.headerOffset reader.data := by
    rw [hfound, movedTo_order, horder]
    rfl
  clear hread hfound
  obtain ⟨hinside, hrun⟩ := rejectIf_bind_eq_ok.mp hrun
  rw [rangeInside_eq_false, not_not] at hinside
  obtain ⟨_, third, hmove, hrun⟩ := bind_eq_ok.mp hrun
  have hfit : found.toUInt64.toNat ≤ reader.data.length := by
    rw [UInt32.toNat_toUInt64]
    omega
  obtain rfl := attempt_seek_ok (by exact hfit) hmove
  obtain ⟨coff, fourth, hcoff, hrun⟩ := bind_eq_ok.mp hrun
  obtain ⟨hsections, hoptional, rfl⟩ :=
    readCoffHeader_ok (adaptError_eq_ok.mp hcoff)
  obtain ⟨hlimit, hrun⟩ := rejectIf_bind_eq_ok.mp hrun
  rw [pure_eq_ok, Prod.mk.injEq] at hrun
  obtain ⟨⟨rfl, rfl⟩, rfl⟩ := hrun
  simp only [movedTo_data, movedTo_order, movedTo_position, horder,
    UInt32.toNat_toUInt64, hoffset] at hsections hoptional
  exact ⟨hoffset, hsections, hoptional, UInt32.not_lt.mp hlimit, rfl, horder⟩

theorem parseOptional_ok (hreader : OnFile data reader) {offset : UInt64}
    {size : UInt16} {header : OptionalHeader}
    (hrun : parseOptional data offset size reader = .ok header next) :
    header =
      { wide := u16At .little data offset.toNat == 0x20b
        entry := u32At .little data (offset.toNat + 16)
        imageBase :=
          if u16At .little data offset.toNat == 0x20b then
            u64At .little data (offset.toNat + 24)
          else (u32At .little data (offset.toNat + 28)).toUInt64
        sectionAlignment := u32At .little data (offset.toNat + 32) } ∧
      OnFile data next := by
  obtain ⟨rfl, horder⟩ := hreader
  unfold parseOptional reporting silently at hrun
  obtain ⟨hinside, hrun⟩ := rejectIf_bind_eq_ok.mp hrun
  rw [rangeInside_eq_false, not_not] at hinside
  obtain ⟨_, first, hmove, hrun⟩ := bind_eq_ok.mp hrun
  obtain rfl := attempt_seek_ok (by omega) hmove
  obtain ⟨wide, second, hwide, hrun⟩ := bind_eq_ok.mp hrun
  obtain ⟨rfl, rfl⟩ := readWide_ok (adaptError_eq_ok.mp hwide)
  obtain ⟨standard, third, hstandard, hrun⟩ := bind_eq_ok.mp hrun
  obtain ⟨hentry, rfl⟩ := readStandardFields_ok (adaptError_eq_ok.mp hstandard)
  obtain ⟨base, fourth, hbaseRun, hrun⟩ := bind_eq_ok.mp hrun
  obtain ⟨hbase, rfl⟩ := readImageBase_ok (adaptError_eq_ok.mp hbaseRun)
  obtain ⟨alignment, fifth, halignmentRun, hrun⟩ := bind_eq_ok.mp hrun
  obtain ⟨halignment, rfl⟩ :=
    readAlignments_ok (adaptError_eq_ok.mp halignmentRun)
  rw [pure_eq_ok] at hrun
  obtain ⟨rfl, rfl⟩ := hrun
  simp only [movedTo_data, movedTo_order, movedTo_position, movedTo_movedTo,
    horder, Nat.add_assoc, Nat.reduceAdd] at hentry hbase halignment ⊢
  exact ⟨by rw [hentry, hbase, halignment], rfl, horder⟩

theorem readSection_ok (hreader : OnFile data reader) {table : UInt64}
    {alignment : UInt32} {index : ℕ} {item : Section}
    (hfit : (table + UInt64.ofNat index * 40).toNat ≤ data.length)
    (hrun : readSection data table alignment index reader = .ok item next) :
    ∃ header : SectionHeader, header = PeFile.headerAt data
        (table + UInt64.ofNat index * 40).toNat ∧
      item = header.toSection index alignment ∧
      (header.rawSize ≠ 0 →
        header.rawOffset.toNat + header.rawSize.toNat ≤ data.length) ∧
      OnFile data next := by
  obtain ⟨rfl, horder⟩ := hreader
  unfold readSection silently at hrun
  obtain ⟨_, first, hmove, hrun⟩ := bind_eq_ok.mp hrun
  obtain rfl := attempt_seek_ok hfit hmove
  obtain ⟨name, second, hname, hrun⟩ := bind_eq_ok.mp hrun
  obtain ⟨_, rfl, rfl⟩ := readFixedString_at.mp (adaptError_eq_ok.mp hname)
  obtain ⟨header, third, hfields, hrun⟩ := bind_eq_ok.mp hrun
  obtain ⟨hheader, rfl⟩ := readSectionFields_ok (adaptError_eq_ok.mp hfields)
  obtain ⟨hinside, hrun⟩ := rejectIf_bind_eq_ok.mp hrun
  rw [rangeInside_eq_false, not_and, not_not] at hinside
  rw [pure_eq_ok] at hrun
  obtain ⟨rfl, rfl⟩ := hrun
  simp only [movedTo_data, movedTo_order, movedTo_position, horder,
    Nat.add_assoc, Nat.reduceAdd] at hheader
  exact ⟨header, hheader, rfl, hinside, rfl, horder⟩

def sectionAt (data : Bytes) (table : UInt64) (alignment : UInt32) (index : ℕ) :
    Section :=
  (PeFile.headerAt data (table + UInt64.ofNat index * 40).toNat).toSection index
    alignment

def StoredInside (data : Bytes) (header : SectionHeader) : Prop :=
  header.rawSize ≠ 0 →
    header.rawOffset.toNat + header.rawSize.toNat ≤ data.length

theorem rawSize_le_memorySize (header : SectionHeader) :
    header.rawSize.toNat ≤ header.memorySize.toNat := by
  unfold SectionHeader.memorySize
  split
  · rw [UInt32.toNat_toUInt64]
  · next hle =>
      rw [UInt64.not_lt, UInt64.le_iff_toNat_le, UInt32.toNat_toUInt64,
        UInt32.toNat_toUInt64] at hle
      rw [UInt32.toNat_toUInt64]
      exact hle

theorem parseSections_ok (hreader : OnFile data reader) {table : UInt64}
    {count : UInt16} {alignment : UInt32} {sections : List Section}
    (hrun : parseSections data table count alignment reader =
      .ok sections next) :
    table.toNat + count.toNat * 40 ≤ data.length ∧
      sections =
        (List.range count.toNat).map (sectionAt data table alignment) ∧
      (∀ i ∈ List.range count.toNat, StoredInside data
        (PeFile.headerAt data (table + UInt64.ofNat i * 40).toNat)) ∧
      OnFile data next := by
  unfold parseSections at hrun
  obtain ⟨tableBytes, hbytes, hrun⟩ := demand_bind_eq_ok.mp hrun
  obtain ⟨hinside, hrun⟩ := rejectIf_bind_eq_ok.mp hrun
  have hproduct : tableBytes.toNat = count.toNat * 40 := by
    simpa using checkedMultiply_toNat hbytes
  rw [rangeInside_eq_false, not_not, hproduct] at hinside
  obtain ⟨hsections, hstored, hnext⟩ := traverse_eq_map (OnFile data)
    (sectionAt data table alignment)
    (fun i => StoredInside data
      (PeFile.headerAt data (table + UInt64.ofNat i * 40).toNat))
    hrun hreader (by
      intro i hi state item last hstate hread
      have hlt := List.mem_range.mp hi
      have hfit : (table + UInt64.ofNat i * 40).toNat ≤ data.length := by
        have hplace := MachineInteger.place_le table 40 i
        rw [show (40 : UInt64).toNat = 40 from rfl] at hplace
        omega
      obtain ⟨header, rfl, hitem, hstored, hlast⟩ :=
        readSection_ok hstate hfit hread
      exact ⟨hitem, hstored, hlast⟩)
  exact ⟨hinside, hsections, hstored, hnext⟩

/-! ## Symbols -/

open BinaryValidator

theorem readSymbol_ok {table : SymbolTable} {i : UInt32} {index : ℕ}
    {value : Symbol × UInt8}
    (hrun : readSymbol data table i index reader = .ok value next) :
    value.1.index = UInt32.ofNat index := by
  simp only [readSymbol, bind_eq_ok, pure_eq_ok] at hrun
  obtain ⟨_, _, _, _, _, _, _, _, _, _, _, _, _, _, _, _, _, _, _, _, _,
    rfl, _⟩ := hrun
  rfl

theorem readSymbols_ok {table : SymbolTable} {passes : ℕ} {i : UInt32}
    {output result : List Symbol}
    (hrun : readSymbols data table passes i output reader = .ok result next)
    (hindexed : Indexed Symbol.index output)
    (hroom : output.length + passes < 2 ^ 32) :
    Indexed Symbol.index result ∧ result.length ≤ output.length + passes := by
  induction passes generalizing i output reader with
  | zero =>
      rw [readSymbols, pure_eq_ok] at hrun
      obtain ⟨rfl, _⟩ := hrun
      exact ⟨hindexed, le_rfl⟩
  | succ passes ih =>
      rw [readSymbols] at hrun
      split at hrun
      · rw [pure_eq_ok] at hrun
        obtain ⟨rfl, _⟩ := hrun
        exact ⟨hindexed, by omega⟩
      · obtain ⟨⟨symbol, aux⟩, middle, hsymbol, hrun⟩ := bind_eq_ok.mp hrun
        have hindex := readSymbol_ok hsymbol
        dsimp only at hindex hrun
        have hlength : (output ++ [symbol]).length = output.length + 1 := by
          simp
        have hnext : Indexed Symbol.index (output ++ [symbol]) :=
          indexed_append hindexed (by
            rw [hindex]
            exact UInt32.toNat_ofNat_of_lt' (Nat.lt_of_le_of_lt (by omega) hroom))
        split at hrun
        · rw [pure_eq_ok] at hrun
          obtain ⟨rfl, _⟩ := hrun
          exact ⟨hnext, by omega⟩
        · obtain ⟨hresult, hbound⟩ := ih hrun hnext (by omega)
          exact ⟨hresult, by omega⟩

theorem parseSymbols_ok {header : CoffHeader} {symbols : List Symbol}
    (hrun : parseSymbols limits data header reader = .ok symbols next) :
    Indexed Symbol.index symbols ∧
      symbols.length ≤ limits.maxSymbols.toNat := by
  unfold parseSymbols at hrun
  dsimp only at hrun
  split at hrun
  · next hguard =>
      have hloop : ∃ table middle, readSymbols data table
          header.symbolCount.toNat 0 [] middle = .ok symbols next := by
        split at hrun
        · obtain ⟨_, _, _, hrun⟩ := bind_eq_ok.mp hrun
          obtain ⟨_, middle, _, hrun⟩ := bind_eq_ok.mp hrun
          exact ⟨_, middle, hrun⟩
        · obtain ⟨_, middle, _, hrun⟩ := bind_eq_ok.mp hrun
          exact ⟨_, middle, hrun⟩
      obtain ⟨table, middle, hloop⟩ := hloop
      have hcount := UInt32.le_iff_toNat_le.mp hguard.2.1
      have hlimit := header.symbolCount.toNat_lt
      obtain ⟨hindexed, hbound⟩ := readSymbols_ok hloop
        indexed_nil (by simpa using hlimit)
      rw [List.length_nil, Nat.zero_add] at hbound
      exact ⟨hindexed, hbound.trans hcount⟩
  · rw [pure_eq_ok] at hrun
    obtain ⟨rfl, _⟩ := hrun
    exact ⟨indexed_nil, Nat.zero_le _⟩

/-! ## The whole image -/

open RelocationTableDecoder in
structure Parsed (limits : Limits) (data : Bytes) (image : BinaryImage) :
    Prop where
  fileData : image.fileData = some data
  imageBase : image.header.imageBase = PeFile.imageBase data
  entryPoint : image.header.entryPoint =
    PeFile.imageBase data + (PeFile.entry data).toUInt64
  sections : image.sections = (List.range (PeFile.sectionCount data).toNat).map
    (sectionAt data (PeFile.sectionTable data) (PeFile.sectionAlignment data))
  segments : image.segments = image.sections.map segmentOf
  count : (PeFile.sectionCount data).toNat ≤ limits.maxSections.toNat
  table : (PeFile.sectionTable data).toNat +
    (PeFile.sectionCount data).toNat * 40 ≤ data.length
  stored : ∀ i ∈ List.range (PeFile.sectionCount data).toNat,
    StoredInside data (PeFile.sectionHeader data i)
  symbolIndex : Indexed Symbol.index image.symbols
  symbolCount : image.symbols.length ≤ limits.maxSymbols.toNat
  relocations : Appends limits BaseRecord [] image.relocations

theorem parseRelocations_ok {image : BinaryImage} {offset : UInt64}
    {size : UInt16} {wide : Bool} {relocations : List Relocation}
    (hrun : parseRelocations limits data image offset size wide reader =
      .ok relocations next) :
    RelocationTableDecoder.Appends limits RelocationTableDecoder.BaseRecord []
      relocations := by
  unfold parseRelocations at hrun
  obtain ⟨table, middle, _, hrun⟩ := bind_eq_ok.mp hrun
  cases table with
  | none =>
      dsimp only at hrun
      rw [pure_eq_ok] at hrun
      rw [← hrun.1]
      exact RelocationTableDecoder.Appends.refl []
  | some table =>
      exact RelocationTableDecoder.decodePeBase_ok (liftExcept_eq_ok.mp hrun).1

theorem parse_ok {image : BinaryImage} (hrun : parse limits data = .ok image) :
    Parsed limits data image := by
  obtain ⟨last, hrun⟩ := evaluate_eq_ok.mp hrun
  have hstart : OnFile data { data := data } := ⟨rfl, rfl⟩
  unfold parseImage at hrun
  obtain ⟨⟨peOffset, coff⟩, first, hcoff, hrun⟩ := bind_eq_ok.mp hrun
  obtain ⟨rfl, hsectionCount, hoptionalSize, hlimit, hfirst⟩ :=
    parseCoff_ok hstart hcoff
  obtain ⟨optional, second, hoptional, hrun⟩ := bind_eq_ok.mp hrun
  rw [hoptionalSize] at hoptional
  obtain ⟨rfl, hsecond⟩ := parseOptional_ok hfirst hoptional
  obtain ⟨sections, third, hsections, hrun⟩ := bind_eq_ok.mp hrun
  rw [hsectionCount, hoptionalSize] at hsections
  obtain ⟨htable, hsections, hstored, hthird⟩ :=
    parseSections_ok hsecond hsections
  obtain ⟨symbols, fourth, hsymbols, hrun⟩ := bind_eq_ok.mp hrun
  obtain ⟨hindexed, hbound⟩ := parseSymbols_ok hsymbols
  obtain ⟨relocations, fifth, hrelocations, hrun⟩ := bind_eq_ok.mp hrun
  rw [pure_eq_ok] at hrun
  obtain ⟨rfl, _⟩ := hrun
  have hcount := UInt32.le_iff_toNat_le.mp hlimit
  rw [UInt16.toNat_toUInt32, hsectionCount] at hcount
  exact ⟨rfl, rfl, rfl, hsections, rfl, hcount, htable, hstored, hindexed,
    hbound, parseRelocations_ok hrelocations⟩

end PeParser
end BinForge
