import BinForge.ElfFile
import BinForge.ElfRelocations

/-!
# The ELF files that are accepted

A file whose tables lie inside it, hold entries at least as long as the
standard ones and keep within the limits is parsed without a failure.  The
image's relocations are then known in full, as its other lists already are.
-/

namespace BinForge

open StatefulExcept
open ListSplice
open ByteReader
open ElfParser
open RelocationTableDecoder

/-! ## The standard records -/

namespace ElfFile

def sectionBytes (wide : Bool) : ℕ := if wide then 64 else 40

def programBytes (wide : Bool) : ℕ := if wide then 56 else 32

def symbolBytes (wide : Bool) : ℕ := if wide then 24 else 16

def machine (data : Bytes) : UInt16 := half data 18

end ElfFile

namespace ElfParser

open ElfFile

variable {limits : Limits} {data : Bytes} {reader next : ByteReader}

/-! ## Reading one record -/

theorem readCommonHeader_returns (hreader : OnFile data reader)
    (hposition : reader.position = 16) (hfit : 24 ≤ data.length)
    (hversion : word data 20 = 1) :
    Returns readCommonHeader reader fun found last =>
      found = (type data, machine data) ∧ last = reader.movedTo 24 := by
  obtain ⟨horder, rfl⟩ := hreader
  unfold Returns readCommonHeader
  simp only [bind_eq_ok, readU16_at, readU32_at, rejectIf_eq_ok, pure_eq_ok,
    and_assoc, exists_and_left, exists_eq_left, exists_eq_left', exists_const,
    movedTo_data, movedTo_order, movedTo_position, movedTo_movedTo,
    Nat.reduceAdd, hposition, horder]
  exact ⟨by omega, by omega, hfit, not_not.mpr hversion, rfl, trivial⟩

theorem readElfHeader_returns (hreader : OnFile data reader)
    (hposition : reader.position = 24)
    (hfit : flagsOffset data + 16 ≤ data.length) :
    Returns (readElfHeader (wide data)) reader fun fields last =>
      fields = ElfFile.header data ∧ OnFile data last := by
  refine Returns.of_partial (readElfHeader_ok hreader hposition) ?_
  obtain ⟨-, rfl⟩ := hreader
  unfold flagsOffset wordBytes at hfit
  simp only [readElfHeader, bind_eq_ok, readWord_at, readU32_at, readU16_at,
    pure_eq_ok, and_assoc, exists_and_left, exists_eq_left, exists_eq',
    movedTo_data, movedTo_order, movedTo_position, movedTo_movedTo, and_true,
    hposition]
  omega

theorem readSection_returns (hreader : OnFile data reader)
    (hfit : reader.position + sectionBytes (wide data) ≤ data.length) :
    Returns (readSection (wide data)) reader fun item last =>
      item = sectionAt data reader.position ∧ OnFile data last := by
  refine Returns.of_partial (readSection_ok hreader) ?_
  obtain ⟨-, rfl⟩ := hreader
  unfold sectionBytes at hfit
  cases hwide : wide reader.data <;>
    simp only [hwide, Bool.false_eq_true, if_false, if_true, readSection,
      bind_eq_ok, readWord_at, readU32_at, fieldSize, pure_eq_ok, and_assoc,
      exists_and_left, exists_eq_left, exists_eq', movedTo_data, movedTo_order,
      movedTo_position, movedTo_movedTo, and_true] at hfit ⊢
  all_goals omega

theorem readProgramHeader_returns (hreader : OnFile data reader)
    (hfit : reader.position + programBytes (wide data) ≤ data.length) :
    Returns (readProgramHeader (wide data)) reader fun header last =>
      header = programHeaderAt data reader.position ∧ OnFile data last := by
  refine Returns.of_partial (readProgramHeader_ok hreader) ?_
  obtain ⟨-, rfl⟩ := hreader
  unfold programBytes at hfit
  unfold readProgramHeader
  cases hwide : wide reader.data <;>
    simp only [hwide, Bool.false_eq_true, if_false, if_true, bind_eq_ok,
      readU64_at, readU32_at, pure_eq_ok, and_assoc, exists_and_left,
      exists_eq_left, exists_eq', movedTo_data, movedTo_order, movedTo_position,
      movedTo_movedTo, and_true] at hfit ⊢
  all_goals omega

theorem readSymbolEntry_returns (hreader : OnFile data reader)
    (hfit : reader.position + symbolBytes (wide data) ≤ data.length) :
    Returns (readSymbolEntry (wide data)) reader fun entry last =>
      entry = symbolEntryAt data reader.position ∧ OnFile data last := by
  refine Returns.of_partial (readSymbolEntry_ok hreader) ?_
  obtain ⟨-, rfl⟩ := hreader
  unfold symbolBytes at hfit
  unfold readSymbolEntry
  cases hwide : wide reader.data <;>
    simp only [hwide, Bool.false_eq_true, if_false, if_true, bind_eq_ok,
      readU64_at, readU32_at, readU16_at, readU8_at, pure_eq_ok, and_assoc,
      exists_and_left, exists_eq_left, exists_eq', movedTo_data, movedTo_order,
      movedTo_position, movedTo_movedTo, and_true] at hfit ⊢
  all_goals omega

/-! ## Tables that are read -/

/-- A table of `count` entries, of at least `record` bytes each, in the file. -/
structure TableInside (data : Bytes) (record : ℕ) (start stride : UInt64)
    (count : ℕ) : Prop where
  inside : start.toNat + stride.toNat * count ≤ data.length
  stride : count ≠ 0 → record ≤ stride.toNat

/-- The whole entry lies inside the file, and its place does not wrap. -/
theorem TableInside.entry {record : ℕ} {start stride : UInt64} {count index : ℕ}
    (htable : TableInside data record start stride count)
    (hindex : index < count) :
    (start + UInt64.ofNat index * stride).toNat + record ≤ data.length := by
  have hinside := htable.inside
  have hstride := htable.stride (Nat.ne_zero_of_lt hindex)
  calc (start + UInt64.ofNat index * stride).toNat + record
      ≤ start.toNat + index * stride.toNat + stride.toNat :=
        Nat.add_le_add (MachineInteger.place_le _ _ _) hstride
    _ = start.toNat + stride.toNat * (index + 1) := by ring
    _ ≤ start.toNat + stride.toNat * count :=
        Nat.add_le_add_left (Nat.mul_le_mul_left _ hindex) _
    _ ≤ data.length := hinside

/-- What the image's header says. -/
def fileHeader (data : Bytes) : FileHeader :=
  imageHeader (wide data) (order data) (type data) (machine data) (header data)

def imageSections (limits : Limits) (data : Bytes) : List Section :=
  (sections data).mapIdx fun index item =>
    item.toSection limits data (sections data) (header data).namesIndex index

/-- What the decoder is told about a relocation table. -/
def tableOptions (limits : Limits) (data : Bytes) (item : RawSection) :
    RelocationDecodeOptions :=
  relocationOptions (fileHeader data) (imageSections limits data) item

/-- What a file must meet to be parsed.  Its length is a machine word. -/
structure Readable (limits : Limits) (data : Bytes) : Prop where
  length : data.length < 2 ^ 64
  headerInside : flagsOffset data + 16 ≤ data.length
  encodedClass : data.getD 4 0 = 1 ∨ data.getD 4 0 = 2
  encodedOrder : data.getD 5 0 = 1 ∨ data.getD 5 0 = 2
  version : word data 20 = 1
  sectionCount : (header data).sectionCount.toNat ≤ limits.maxSections.toNat
  programCount : (header data).programCount.toNat ≤ limits.maxSegments.toNat
  sectionTable : TableInside data (sectionBytes (wide data))
    (header data).sectionOffset (header data).sectionEntrySize.toUInt64
    (header data).sectionCount.toNat
  stored : ∀ item ∈ sections data, StoredInside data item
  programTable : TableInside data (programBytes (wide data))
    (header data).programOffset (header data).programEntrySize.toUInt64
    (header data).programCount.toNat
  loads : ∀ index ∈ loadIndices data, LoadInside data (programHeader data index)
  symbolStride : ∀ item ∈ sections data, symbolCount data item ≠ 0 →
    symbolBytes (wide data) ≤ item.entrySize.toNat
  symbolCount : ∀ item ∈ sections data,
    symbolCount data item ≤ limits.maxSymbols.toNat
  relocationStride : ∀ item ∈ sections data, item.isRelocationTable →
    (elfMinimum (tableOptions limits data item)).toNat ≤
      (elfStride (tableOptions limits data item)).toNat
  relocationWhole : ∀ item ∈ sections data, item.isRelocationTable →
    item.size.toNat % (elfStride (tableOptions limits data item)).toNat = 0
  relocationTarget : ∀ record ∈ relocationRecords data (sections data),
    (tableOptions limits data record.1).baseAddress.toNat +
      (elfEntryAt (tableOptions limits data record.1) (tableBytes data record.1)
        (elfPlace (tableOptions limits data record.1) record.2)).offset.toNat <
          2 ^ 64
  relocationCount : (relocationRecords data (sections data)).length ≤
    limits.maxRelocations.toNat

theorem checkedMultiply_halves (left right : UInt16) :
    ∃ product, checkedMultiply left.toUInt64 right.toUInt64 = some product ∧
      product.toNat = left.toNat * right.toNat := by
  have hfit : left.toUInt64.toNat * right.toUInt64.toNat < 2 ^ 64 := by
    rw [UInt16.toNat_toUInt64, UInt16.toNat_toUInt64]
    calc left.toNat * right.toNat ≤ 2 ^ 16 * 2 ^ 16 :=
          Nat.mul_le_mul left.toNat_lt.le right.toNat_lt.le
      _ < 2 ^ 64 := by norm_num
  refine ⟨_, checkedMultiply_of_fit hfit, ?_⟩
  rw [checkedMultiply_toNat (checkedMultiply_of_fit hfit),
    UInt16.toNat_toUInt64, UInt16.toNat_toUInt64]

/-- The check made of a table before it is read. -/
theorem TableInside.accepted {record : UInt16} {start product : UInt64}
    {stride count : UInt16}
    (htable : TableInside data record.toNat start stride.toUInt64 count.toNat)
    (hproduct : product.toNat = stride.toNat * count.toNat) :
    ¬(rangeInside start.toNat product.toNat data.length = false ∨
      count ≠ 0 ∧ stride < record) := by
  obtain ⟨hinside, hstride⟩ := htable
  rw [UInt16.toNat_toUInt64] at hinside hstride
  rw [not_or, rangeInside_eq_false, not_not, hproduct, not_and, UInt16.not_lt,
    UInt16.le_iff_toNat_le]
  exact ⟨hinside, fun hcount => hstride fun hzero =>
    hcount (UInt16.toNat_inj.mp hzero)⟩

/-! ## Sections -/

theorem readRawSection_returns (hreader : OnFile data reader)
    {index : ℕ}
    (hfit : sectionOffset data index + sectionBytes (wide data) ≤ data.length)
    (hstored : StoredInside data (sectionAt data (sectionOffset data index))) :
    Returns (readRawSection data (wide data) (header data) index) reader
      fun _ last => OnFile data last := by
  unfold readRawSection truncatedAt
  have hplace : sectionOffset data index ≤ reader.data.length := by
    rw [hreader.data]
    omega
  have hread : Returns (seek _ >>= fun _ => readSection (wide data)) reader
      fun item last => item = sectionAt data (sectionOffset data index) ∧
        OnFile data last :=
    (seek_returns hplace).bind fun _ sought hsought => by
      subst hsought
      exact readSection_returns (hreader.movedTo _) hfit
  refine (Returns.adaptError hread).bind ?_
  rintro _ last ⟨rfl, hlast⟩
  refine Returns.rejectIf ?_ (Returns.pure hlast)
  rw [rangeInside_eq_false, not_and, not_not]
  exact hstored

theorem readRawSections_returns (hfile : Readable limits data)
    (hreader : OnFile data reader) :
    Returns (readRawSections data (wide data) (header data)) reader
      fun raw last => raw = sections data ∧ OnFile data last := by
  suffices hread : Returns (readRawSections data (wide data) (header data))
      reader fun _ last => OnFile data last from
    hread.mono fun _ _ hrun hlast =>
      ⟨(readRawSections_ok hreader hrun).1, hlast⟩
  obtain ⟨product, hproduct, hnat⟩ := checkedMultiply_halves
    (header data).sectionEntrySize (header data).sectionCount
  have hrecord : sectionBytes (wide data) =
      (if wide data then 64 else 40 : UInt16).toNat := by
    cases wide data <;> rfl
  have htable := hfile.sectionTable
  unfold readRawSections
  refine Returns.demand hproduct (Returns.rejectIf
    (TableInside.accepted (hrecord ▸ htable) hnat) ?_)
  refine Returns.traverse (OnFile data) hreader fun index hindex state hstate => ?_
  exact readRawSection_returns hstate (htable.entry (List.mem_range.mp hindex))
    (hfile.stored _ (List.mem_map_of_mem hindex))

/-! ## Segments -/

theorem attempt_seek_returns {ε : Type} {position : UInt64}
    (hfit : position.toNat ≤ reader.data.length) :
    Returns (attempt (seek position) : EStateM ε ByteReader (Option Unit)) reader
      fun _ last => last = reader.movedTo position.toNat :=
  Returns.of_ok (attempt_of_ok (seek_of_le hfit)) rfl

theorem readSegment_returns (hreader : OnFile data reader) {index : ℕ}
    {segments : List Segment}
    (hfit : programOffset data index + programBytes (wide data) ≤ data.length)
    (hload : (programHeader data index).kind = 1 →
      LoadInside data (programHeader data index)) :
    Returns (readSegment data (wide data) (header data) segments index) reader
      fun _ last => OnFile data last := by
  unfold readSegment truncatedAt
  have hplace : programOffset data index ≤ reader.data.length := by
    rw [hreader.data]
    omega
  refine (attempt_seek_returns hplace).bind ?_
  rintro _ _ rfl
  refine (Returns.adaptError
    (readProgramHeader_returns (hreader.movedTo _) hfit)).bind ?_
  rintro _ last ⟨rfl, hlast⟩
  by_cases hkind : (programHeader data index).kind = 1
  · obtain ⟨hsize, hinside⟩ := hload hkind
    refine (congrArg (Returns · _ _) (if_neg (not_not.mpr hkind))).mpr ?_
    refine Returns.rejectIf ?_ (Returns.pure hlast)
    rw [not_or, gt_iff_lt, UInt64.not_lt, rangeInside_eq_false, not_not]
    exact ⟨hsize, hinside⟩
  · refine (congrArg (Returns · _ _) (if_pos hkind)).mpr ?_
    exact Returns.pure hlast

theorem readSegments_returns (hfile : Readable limits data)
    (hreader : OnFile data reader) :
    Returns (readSegments data (wide data) (header data)) reader
      fun _ last => OnFile data last := by
  obtain ⟨product, hproduct, hnat⟩ := checkedMultiply_halves
    (header data).programEntrySize (header data).programCount
  have hrecord : programBytes (wide data) =
      (if wide data then 56 else 32 : UInt16).toNat := by
    cases wide data <;> rfl
  have htable := hfile.programTable
  unfold readSegments
  refine Returns.demand hproduct (Returns.rejectIf
    (TableInside.accepted (hrecord ▸ htable) hnat) ?_)
  refine Returns.foldlM (fun _ _ state => OnFile data state) hreader ?_
  intro done index rest carried state hsplit hstate
  have hindex : index ∈ List.range (header data).programCount.toNat :=
    hsplit ▸ by simp
  refine readSegment_returns hstate (htable.entry (List.mem_range.mp hindex))
    fun hkind => hfile.loads index ?_
  exact List.mem_filter.mpr ⟨hindex, decide_eq_true hkind⟩

/-! ## Symbols -/

theorem readSymbol_returns (hreader : OnFile data reader)
    {table strings : RawSection} {symbols : List Symbol} {j : ℕ}
    (hfit : (table.offset + UInt64.ofNat j * table.entrySize).toNat +
      symbolBytes (wide data) ≤ data.length) :
    Returns (readSymbol limits data (wide data) table strings symbols j) reader
      fun _ last => OnFile data last := by
  unfold readSymbol truncatedAt
  have hplace : (table.offset + UInt64.ofNat j * table.entrySize).toNat ≤
      reader.data.length := by
    rw [hreader.data]
    omega
  refine (attempt_seek_returns hplace).bind ?_
  rintro _ _ rfl
  refine (Returns.adaptError
    (readSymbolEntry_returns (hreader.movedTo _) hfit)).bind ?_
  rintro _ last ⟨-, hlast⟩
  exact Returns.pure hlast

/-- The entries of a symbol table lie inside the file with its section. -/
theorem Readable.symbolTable (hfile : Readable limits data)
    {table : RawSection} (htable : table ∈ sections data)
    (hsymbols : table.isSymbolTable (sections data)) :
    TableInside data (symbolBytes (wide data)) table.offset table.entrySize
      (table.size / table.entrySize).toNat := by
  have hstored := hfile.stored table htable (by
    rcases hsymbols.1 with htype | htype <;> rw [htype] <;> decide)
  have hstride := hfile.symbolStride table htable
  rw [ElfFile.symbolCount, if_pos hsymbols] at hstride
  refine ⟨?_, hstride⟩
  have hcount := Nat.mul_div_le table.size.toNat table.entrySize.toNat
  rw [UInt64.toNat_div]
  omega

theorem readSymbolTable_returns (hfile : Readable limits data)
    (hreader : OnFile data reader) {table : RawSection}
    (htable : table ∈ sections data) {symbols : List Symbol} :
    Returns (readSymbolTable limits data (wide data) (sections data) symbols
      table) reader fun _ last => OnFile data last := by
  unfold readSymbolTable
  by_cases hsymbols : table.isSymbolTable (sections data)
  · have hcount := hfile.symbolCount table htable
    rw [symbolCount, if_pos hsymbols] at hcount
    have hinside := hfile.symbolTable htable hsymbols
    rw [if_pos hsymbols]
    refine Returns.rejectIf ?_ ?_
    · rw [gt_iff_lt, UInt64.not_lt, UInt64.le_iff_toNat_le,
        UInt32.toNat_toUInt64]
      exact hcount
    · refine Returns.foldlM (fun _ _ state => OnFile data state) hreader ?_
      intro done j rest carried state hsplit hstate
      exact readSymbol_returns hstate (hinside.entry
        (List.mem_range.mp (hsplit ▸ by simp)))
  · rw [if_neg hsymbols]
    exact Returns.pure hreader

theorem readSymbolTables_returns (hfile : Readable limits data)
    (hreader : OnFile data reader) :
    Returns ((sections data).foldlM
      (readSymbolTable limits data (wide data) (sections data)) []) reader
      fun _ last => OnFile data last := by
  refine Returns.foldlM (fun _ _ state => OnFile data state) hreader ?_
  intro done table rest carried state hsplit hstate
  exact readSymbolTable_returns hfile hstate (hsplit ▸ by simp)

/-! ## Relocations -/

/-- The relocation of a table entry, given its place in the image's list. -/
def relocationOf (limits : Limits) (data : Bytes) (record : TableEntry)
    (index : ℕ) : Relocation :=
  let options := tableOptions limits data record.1
  elfRelocation options (elfEntryAt options (tableBytes data record.1)
    (elfPlace options record.2)) index

def relocationsOf (limits : Limits) (data : Bytes) (records : List TableEntry) :
    List Relocation :=
  records.mapIdx fun index record => relocationOf limits data record index

theorem relocationsOf_table (records : List TableEntry) (item : RawSection)
    (count : ℕ) :
    relocationsOf limits data
        (records ++ (List.range count).map fun n => (item, n)) =
      relocationsOf limits data records ++
        elfRelocations (tableOptions limits data item) (tableBytes data item)
          (relocationsOf limits data records).length count := by
  rw [relocationsOf, List.mapIdx_append, ← relocationsOf]
  congr 1
  refine List.ext_getElem (by simp) fun n hleft hright => ?_
  simp [elfRelocations, relocationsOf, relocationOf, Nat.add_comm]

theorem tableBytes_length {item : RawSection} (hstored : StoredInside data item)
    (htable : item.isRelocationTable) :
    (tableBytes data item).length = item.size.toNat :=
  slice_length (hstored (by
    rcases htable.1 with htype | htype <;> rw [htype] <;> decide))

theorem Readable.decodable (hfile : Readable limits data) {item : RawSection}
    {before after : List RawSection}
    (hsplit : sections data = before ++ item :: after)
    (htable : item.isRelocationTable) :
    Decodable limits (tableOptions limits data item) (tableBytes data item)
      (relocationsOf limits data (relocationRecords data before)) := by
  have hitem : item ∈ sections data := hsplit ▸ by simp
  have hlength := tableBytes_length (hfile.stored item hitem) htable
  have hstride := hfile.relocationStride item hitem htable
  have hwhole := hfile.relocationWhole item hitem htable
  have hminimum := elfMinimum_pos (tableOptions limits data item)
  have hsize : item.size.toNat ≠ 0 := fun hzero =>
    htable.2 (UInt64.toNat_inj.mp hzero)
  have hcount : recordCount data item = elfCount (tableOptions limits data item)
      (tableBytes data item) := if_pos htable
  have hrecords : relocationRecords data (sections data) =
      relocationRecords data before ++
        ((List.range (recordCount data item)).map fun n => (item, n)) ++
          relocationRecords data after := by
    simp [hsplit, relocationRecords]
  refine ⟨by rw [hlength]; exact item.size.toNat_lt, hstride, ?_, ?_, ?_, ?_⟩
  · rw [hlength]
    exact Nat.le_of_dvd (Nat.pos_of_ne_zero hsize) (Nat.dvd_of_mod_eq_zero hwhole)
  · rw [hlength]
    exact hwhole
  · have htotal := hfile.relocationCount
    rw [hrecords, List.length_append, List.length_append, List.length_map,
      List.length_range, hcount] at htotal
    rw [relocationsOf, List.length_mapIdx]
    omega
  · intro n hn
    refine hfile.relocationTarget (item, n) ?_
    rw [hrecords]
    simp [hcount, hn]

theorem relocationRecords_append_singleton (items : List RawSection)
    (item : RawSection) :
    relocationRecords data (items ++ [item]) = relocationRecords data items ++
      (List.range (recordCount data item)).map fun n => (item, n) := by
  simp [relocationRecords]

theorem decodeRelocations_returns (hfile : Readable limits data)
    {item : RawSection} {before after : List RawSection}
    (hsplit : sections data = before ++ item :: after) :
    decodeRelocations limits data (fileHeader data) (imageSections limits data)
        (relocationsOf limits data (relocationRecords data before)) item =
      .ok (relocationsOf limits data
        (relocationRecords data (before ++ [item]))) := by
  rw [relocationRecords_append_singleton, relocationsOf_table]
  unfold decodeRelocations
  by_cases htable : item.isRelocationTable
  · have hcount : recordCount data item = elfCount
        (tableOptions limits data item) (tableBytes data item) := if_pos htable
    rw [if_pos htable, hcount]
    exact decodeElf_returns (hfile.decodable hsplit htable)
  · have hcount : recordCount data item = 0 := if_neg htable
    rw [if_neg htable, hcount]
    simp [elfRelocations]

theorem decodeAllRelocations_returns (hfile : Readable limits data) :
    (sections data).foldlM (decodeRelocations limits data (fileHeader data)
        (imageSections limits data)) [] =
      .ok (relocationsOf limits data
        (relocationRecords data (sections data))) := by
  obtain ⟨_, hrun, rfl⟩ := foldlM_except_returns
    (fun done carried =>
      carried = relocationsOf limits data (relocationRecords data done))
    (rfl : ([] : List Relocation) = _)
    fun done item rest carried hsplit hdone =>
      ⟨_, hdone ▸ decodeRelocations_returns hfile hsplit, rfl⟩
  exact hrun

/-! ## The whole file -/

theorem parseIdentification_of_readable (hfile : Readable limits data) :
    parseIdentification data = .ok (wide data, order data) := by
  have hlength : 52 ≤ data.length := by
    have hinside := hfile.headerInside
    unfold flagsOffset wordBytes fieldSize at hinside
    split at hinside <;> omega
  unfold parseIdentification
  refine rejectIf_except_bind_eq_ok.mpr ⟨?_, ?_⟩
  · rw [not_or, not_or]
    refine ⟨by omega, ?_⟩
    rcases hfile.encodedClass with hclass | hclass <;> rw [hclass] <;> decide
  · rw [ElfFile.order]
    dsimp only
    rcases hfile.encodedOrder with horder | horder
    · rw [if_pos horder, if_pos horder]
      rfl
    · rw [horder]
      rfl

theorem parseImage_returns (hfile : Readable limits data) :
    Returns (parseImage limits data (wide data) (order data))
      { data, order := order data } fun image _ =>
        image.header = fileHeader data ∧ image.relocations =
          relocationsOf limits data (relocationRecords data (sections data)) := by
  have hinside := hfile.headerInside
  have hstart : OnFile data { data, order := order data } := ⟨rfl, rfl⟩
  unfold parseImage silently reporting truncatedAt
  have hsixteen : (16 : UInt64).toNat ≤ data.length := by
    have hnat : (16 : UInt64).toNat = 16 := rfl
    omega
  refine (Returns.adaptError (seek_returns hsixteen)).bind ?_
  rintro _ _ rfl
  refine (Returns.adaptError (readCommonHeader_returns (hstart.movedTo _) rfl
    (by unfold flagsOffset at hinside; omega) hfile.version)).bind ?_
  rintro _ _ ⟨rfl, rfl⟩
  refine (Returns.adaptError (readElfHeader_returns
    ((hstart.movedTo _).movedTo _) rfl hinside)).bind ?_
  rintro _ third ⟨rfl, hthird⟩
  refine Returns.rejectIf ?_ ?_
  · rw [not_or, gt_iff_lt, gt_iff_lt, UInt32.not_lt, UInt32.not_lt,
      UInt32.le_iff_toNat_le, UInt32.le_iff_toNat_le, UInt16.toNat_toUInt32,
      UInt16.toNat_toUInt32]
    exact ⟨hfile.sectionCount, hfile.programCount⟩
  refine (readRawSections_returns hfile hthird).bind ?_
  rintro _ fourth ⟨rfl, hfourth⟩
  refine (readSegments_returns hfile hfourth).bind ?_
  rintro segments fifth hfifth
  refine (readSymbolTables_returns hfile hfifth).bind ?_
  rintro symbols sixth -
  have hlift : Returns (liftExcept ((sections data).foldlM
      (decodeRelocations limits data (fileHeader data)
        (imageSections limits data)) [])) sixth fun relocations _ =>
      relocations =
        relocationsOf limits data (relocationRecords data (sections data)) :=
    Returns.liftExcept (decodeAllRelocations_returns hfile) rfl
  refine hlift.bind ?_
  rintro _ seventh rfl
  exact Returns.pure ⟨rfl, rfl⟩

/-- The image of an accepted file. -/
theorem parse_of_readable (hfile : Readable limits data) :
    ∃ image, parse limits data = .ok image ∧ Parsed limits data image ∧
      image.header = fileHeader data ∧
      image.relocations =
        relocationsOf limits data (relocationRecords data (sections data)) := by
  obtain ⟨image, _, hrun, hheader, hrelocations⟩ :=
    (parseImage_returns hfile).evaluate
  have hparse : parse limits data = .ok image := except_bind_eq_ok.mpr
    ⟨_, parseIdentification_of_readable hfile, hrun⟩
  exact ⟨image, hparse, parse_ok hparse, hheader, hrelocations⟩

end ElfParser
end BinForge
