import BinForge.ElfContent

/-!
# Decoding inverts encoding

The fields the parser reads off a file are those of the content the file lays
out.  So the file is accepted, provided that no load segment is larger in the
file than in memory, and the image shows the content.
-/

namespace BinForge

open MachineInteger
open RecordLayout
open ElfParser
open RelocationTableDecoder

namespace ElfEncoding

/-! ## The file's fields are the content's -/

variable {content : Content} {limits : Limits} {data : Bytes}

theorem place_of_inside {start stride : UInt64} {count i : ℕ}
    (hlength : data.length < 2 ^ 64)
    (hinside : start.toNat + stride.toNat * count ≤ data.length)
    (hcount : count < 2 ^ 64) (hi : i < count) :
    (start + UInt64.ofNat i * stride).toNat =
      start.toNat + i * stride.toNat := by
  refine place_eq (hi.trans hcount) ?_
  calc start.toNat + i * stride.toNat
      ≤ start.toNat + stride.toNat * count := by
        rw [Nat.mul_comm]
        exact Nat.add_le_add_left (Nat.mul_le_mul_left _ hi.le) _
    _ < 2 ^ 64 := Nat.lt_of_le_of_lt hinside hlength

/-- A table whose stride is a 16-bit field. -/
theorem place_in_table {start : UInt64} {stride count : UInt16} {n i : ℕ}
    (hlength : data.length < 2 ^ 64)
    (hinside : start.toNat + stride.toNat * n ≤ data.length)
    (hcount : count.toNat = n) (hi : i < n) :
    (start + UInt64.ofNat i * stride.toUInt64).toNat =
      start.toNat + i * stride.toNat := by
  have hbound := count.toNat_lt
  rw [← UInt16.toNat_toUInt64] at hinside
  rw [place_of_inside hlength hinside (by omega) hi, UInt16.toNat_toUInt64]

theorem tableInside_of_tabulated {α : Type} {start : UInt64} {stride : UInt16}
    {record : ℕ} {encode : α → Bytes} {items : List α}
    (hinside : start.toNat + stride.toNat * items.length ≤ data.length)
    (htable : Tabulated data start.toNat stride.toNat (items.map encode))
    (hrecord : ∀ item, (encode item).length = record) :
    TableInside data record start stride.toUInt64 items.length := by
  rw [← UInt16.toNat_toUInt64] at hinside htable
  exact ⟨hinside, fun hcount =>
    htable.stride hrecord (mt List.length_eq_zero_iff.mpr hcount)⟩

theorem map_range_eq {α : Type} {items : List α} {entry : ℕ → α}
    (hentry : ∀ i (hi : i < items.length), entry i = items[i]) :
    (List.range items.length).map entry = items :=
  List.ext_getElem (by simp) fun i hleft hright => by
    rw [List.getElem_map, List.getElem_range]
    exact hentry i hright

namespace Content

theorem Encoded.header_eq (hfile : content.Encoded limits (ElfFile.wide data)
    (ElfFile.order data) data) :
    ElfFile.type data = content.type ∧ ElfFile.machine data = content.machine ∧
      ElfFile.word data 20 = 1 ∧ ElfFile.header data = content.header :=
  header_of_holds hfile.fits.header hfile.laidOut.header

section Encoded

variable (hfile : content.Encoded limits (ElfFile.wide data)
  (ElfFile.order data) data)
include hfile

theorem Encoded.sections_eq :
    ElfFile.sections data = content.sections.map SectionContent.header := by
  obtain ⟨-, -, -, hheader⟩ := hfile.header_eq
  have hcount := hfile.laidOut.sectionCount
  refine List.ext_getElem ?_ fun i hleft hright => ?_
  · rw [ElfFile.sections, List.length_map, List.length_range, List.length_map,
      hheader, hcount]
  · have hi : i < content.sections.length := by rwa [List.length_map] at hright
    have hplace : ElfFile.sectionOffset data i =
        content.header.sectionOffset.toNat +
          i * content.header.sectionEntrySize.toNat := by
      rw [ElfFile.sectionOffset, hheader]
      exact place_in_table hfile.inside.length hfile.inside.sectionTable hcount hi
    simp only [ElfFile.sections, List.getElem_map, List.getElem_range, hplace]
    exact sectionAt_of_holds
      (hfile.fits.sections _ (List.getElem_mem hi)) (hfile.laidOut.sections.map hi)

theorem Encoded.programHeader_eq {i : ℕ} (hi : i < content.programs.length) :
    ElfFile.programHeader data i = content.programs[i].toProgramHeader := by
  obtain ⟨-, -, -, hheader⟩ := hfile.header_eq
  have hplace : ElfFile.programOffset data i =
      content.header.programOffset.toNat +
        i * content.header.programEntrySize.toNat := by
    rw [ElfFile.programOffset, hheader]
    exact place_in_table hfile.inside.length hfile.inside.programTable
      hfile.laidOut.programCount hi
  rw [ElfFile.programHeader, hplace]
  exact programHeaderAt_of_holds
    (hfile.fits.programs _ (List.getElem_mem hi)) (hfile.laidOut.programs.map hi)

/-! ## Segments -/

theorem Encoded.mem_programs {load : ProgramEntry × ℕ}
    (hload : load ∈ content.programs.zipIdx) :
    load.1 ∈ content.programs ∧
      ElfFile.programHeader data load.2 = load.1.toProgramHeader := by
  obtain ⟨hi, hitem⟩ := List.getElem?_eq_some_iff.mp
    (List.mem_zipIdx_iff_getElem?.mp hload)
  rw [← hitem]
  exact ⟨List.getElem_mem hi, hfile.programHeader_eq hi⟩

theorem Encoded.loadIndices_eq :
    ElfFile.loadIndices data = content.loads.map Prod.snd := by
  obtain ⟨-, -, -, hheader⟩ := hfile.header_eq
  have hrange : List.range content.programs.length =
      content.programs.zipIdx.map Prod.snd := by
    rw [List.zipIdx_map_snd, List.range_eq_range']
  rw [ElfFile.loadIndices, hheader, hfile.laidOut.programCount, hrange,
    List.filter_map, loads]
  refine congrArg (List.map Prod.snd) (List.filter_congr fun load hload => ?_)
  rw [Function.comp_apply, (hfile.mem_programs hload).2]

theorem Encoded.segments_eq :
    (ElfFile.loadIndices data).map (segmentAt data) =
      content.loads.map fun load => shownSegment load.1 load.2 := by
  rw [hfile.loadIndices_eq, List.map_map]
  refine List.map_congr_left fun load hload => ?_
  rw [Function.comp_apply, segmentAt,
    (hfile.mem_programs (List.mem_filter.mp hload).1).2]
  rfl

/-! ## Symbols -/

theorem Encoded.symbolCount_eq {item : SectionContent}
    (hitem : item ∈ content.sections) :
    ElfFile.symbolCount data item.header = item.symbols.length := by
  rw [ElfFile.symbolCount]
  by_cases hstores : StoresSymbols item.header
  · obtain ⟨hlink, hfills⟩ := hfile.laidOut.symbols item hitem hstores
    have hsize := hfills.size
    rw [List.length_map] at hsize
    by_cases hnone : item.symbols = []
    · rw [hnone, List.length_nil, Nat.zero_mul] at hsize
      rw [hnone, UInt64.toNat_div, hsize, Nat.zero_div, ite_self,
        List.length_nil]
    · have hstride := hfills.records.stride
        (symbolRecord_length _ (ElfFile.order data)) hnone
      have hpositive : 0 < item.header.entrySize.toNat := by
        refine Nat.lt_of_lt_of_le ?_ hstride
        unfold ElfFile.symbolBytes
        split <;> decide
      rw [if_pos, UInt64.toNat_div, hsize, Nat.mul_div_cancel _ hpositive]
      refine ⟨hstores, fun hzero => ?_, ?_⟩
      · rw [hzero] at hpositive
        exact absurd hpositive (by decide)
      · rw [hfile.sections_eq, List.length_map]
        exact hlink
  · rw [if_neg fun htable => hstores htable.1,
      Classical.not_not.mp fun hsome => hstores (item.storesSymbols hsome)]
    rfl

theorem Encoded.symbolEntry_eq {item : SectionContent}
    (hitem : item ∈ content.sections) {j : ℕ} (hj : j < item.symbols.length) :
    ElfFile.symbolEntryAt data (item.header.offset +
      UInt64.ofNat j * item.header.entrySize).toNat = item.symbols[j] := by
  have hstores := item.storesSymbols
    (List.ne_nil_of_length_pos (Nat.zero_lt_of_lt hj))
  obtain ⟨-, hfills⟩ := hfile.laidOut.symbols item hitem hstores
  have hsize := hfills.size
  have hinside := hfile.inside.sections item hitem (by
    rcases hstores with htype | htype <;> rw [htype] <;> decide)
  have hbound := limits.maxSymbols.toNat_lt
  have hcount := hfile.within.symbols item hitem
  rw [List.length_map, Nat.mul_comm] at hsize
  rw [hsize] at hinside
  rw [place_of_inside hfile.inside.length hinside (by omega) hj]
  exact symbolEntryAt_of_holds (hfile.fits.symbols _
    (List.mem_flatMap.mpr ⟨item, hitem, List.getElem_mem hj⟩))
    (hfills.records.map hj)

/-- Where the parser reads a symbol. -/
def symbolPlace (entry : ElfFile.TableEntry) : ℕ :=
  (entry.1.offset + UInt64.ofNat entry.2 * entry.1.entrySize).toNat

theorem Encoded.symbolEntries_eq :
    (ElfFile.symbolEntries data (ElfFile.sections data)).map
        (fun entry => ElfFile.symbolEntryAt data (symbolPlace entry)) =
      content.symbols := by
  rw [hfile.sections_eq, ElfFile.symbolEntries, List.flatMap_map,
    List.map_flatMap, symbols]
  refine List.flatMap_congr fun item hitem => ?_
  rw [List.map_map, hfile.symbolCount_eq hitem]
  exact map_range_eq fun j hj => hfile.symbolEntry_eq hitem hj

theorem Encoded.symbols_eq :
    (symbolsOf limits data (ElfFile.symbolEntries data
        (ElfFile.sections data))).map unnamedSymbol =
      content.symbols.mapIdx fun index entry => shownSymbol entry index := by
  rw [← hfile.symbolEntries_eq]
  refine List.ext_getElem (by simp [symbolsOf]) fun i hleft hright => ?_
  simp only [symbolsOf, List.getElem_map, List.getElem_mapIdx]
  rfl

/-! ## Relocations -/

theorem Encoded.relocationStride {item : SectionContent}
    (hitem : item ∈ content.sections) (hsome : item.relocations ≠ []) :
    (elfMinimum (tableOptions limits data item.header)).toNat ≤
      item.header.entrySize.toNat :=
  (hfile.laidOut.relocations item hitem
    (item.storesRelocations hsome)).records.stride
      (fun entry => relocationRecord_length _ _ _ entry rfl rfl) hsome

theorem Encoded.elfStride_eq {item : SectionContent}
    (hitem : item ∈ content.sections) (hsome : item.relocations ≠ []) :
    elfStride (tableOptions limits data item.header) =
      item.header.entrySize := by
  have hstride := hfile.relocationStride hitem hsome
  have hpositive := elfMinimum_pos (tableOptions limits data item.header)
  refine if_pos fun hzero => ?_
  rw [show item.header.entrySize = 0 from hzero, UInt64.toNat_zero] at hstride
  omega

/-- The records of a table fill it: there are some when it is not empty. -/
theorem Encoded.isRelocationTable_iff {item : SectionContent}
    (hitem : item ∈ content.sections) :
    item.header.isRelocationTable ↔ item.relocations ≠ [] := by
  constructor
  · rintro ⟨hstores, hsize⟩ hnone
    have hfills := (hfile.laidOut.relocations item hitem hstores).size
    rw [hnone, List.map_nil, List.length_nil, Nat.zero_mul] at hfills
    exact hsize (UInt64.toNat_inj.mp hfills)
  · intro hsome
    have hstores := item.storesRelocations hsome
    have hfills := (hfile.laidOut.relocations item hitem hstores).size
    have hstride := hfile.relocationStride hitem hsome
    have hpositive := elfMinimum_pos (tableOptions limits data item.header)
    have hcount := List.length_pos_iff.mpr hsome
    refine ⟨hstores, fun hzero => ?_⟩
    rw [hzero, List.length_map, UInt64.toNat_zero] at hfills
    have hproduct := Nat.mul_pos hcount (Nat.lt_of_lt_of_le hpositive hstride)
    omega

theorem Encoded.recordCount_eq {item : SectionContent}
    (hitem : item ∈ content.sections) :
    ElfFile.recordCount data item.header = item.relocations.length := by
  rw [ElfFile.recordCount]
  by_cases htable : item.header.isRelocationTable
  · have hsome := (hfile.isRelocationTable_iff hitem).mp htable
    have hfills := (hfile.laidOut.relocations item hitem htable.1).size
    have hstride := hfile.relocationStride hitem hsome
    have hpositive := elfMinimum_pos (tableOptions limits data item.header)
    have hcount : elfCount (ElfFile.recordOptions data item.header)
        (ElfFile.tableBytes data item.header) =
          (UInt64.ofNat (ElfFile.tableBytes data item.header).length /
            elfStride (tableOptions limits data item.header)).toNat := rfl
    rw [if_pos htable, hcount, hfile.elfStride_eq hitem hsome,
      tableBytes_length (hfile.inside.sections item hitem) htable,
      UInt64.ofNat_toNat, UInt64.toNat_div, hfills, List.length_map,
      Nat.mul_div_cancel _ (Nat.lt_of_lt_of_le hpositive hstride)]
  · rw [if_neg htable, Classical.not_not.mp
      (mt (hfile.isRelocationTable_iff hitem).mpr htable), List.length_nil]

theorem Encoded.relocationEnd {item : SectionContent}
    (hitem : item ∈ content.sections) {n : ℕ}
    (hn : n < item.relocations.length) :
    n * item.header.entrySize.toNat + item.header.entrySize.toNat ≤
      item.header.size.toNat := by
  have hfills := (hfile.laidOut.relocations item hitem (item.storesRelocations
    (List.ne_nil_of_length_pos (Nat.zero_lt_of_lt hn)))).size
  rw [hfills, List.length_map, ← Nat.succ_mul]
  exact Nat.mul_le_mul_right _ hn

theorem Encoded.elfPlace_eq {item : SectionContent}
    (hitem : item ∈ content.sections) {n : ℕ}
    (hn : n < item.relocations.length) :
    elfPlace (tableOptions limits data item.header) n =
      n * item.header.entrySize.toNat := by
  have hsome := List.ne_nil_of_length_pos (Nat.zero_lt_of_lt hn)
  have hpositive := Nat.lt_of_lt_of_le
    (elfMinimum_pos (tableOptions limits data item.header))
    (hfile.relocationStride hitem hsome)
  have hend := hfile.relocationEnd hitem hn
  have hsize := item.header.size.toNat_lt
  have hindex := Nat.le_mul_of_pos_right n hpositive
  have hplace : (0 + UInt64.ofNat n * item.header.entrySize).toNat =
      (0 : UInt64).toNat + n * item.header.entrySize.toNat :=
    place_eq (by omega) (by rw [UInt64.toNat_zero]; omega)
  rw [UInt64.zero_add, UInt64.toNat_zero, Nat.zero_add] at hplace
  rw [elfPlace, hfile.elfStride_eq hitem hsome, hplace]

/-- The record stands at its place in the table. -/
theorem Encoded.relocation_holds {item : SectionContent}
    (hitem : item ∈ content.sections) {n : ℕ}
    (hn : n < item.relocations.length) :
    Holds (ElfFile.tableBytes data item.header)
      (elfPlace (tableOptions limits data item.header) n)
      (relocationRecord (ElfFile.wide data) (ElfFile.order data)
        (item.header.type == 4) item.relocations[n]) := by
  have hsome := List.ne_nil_of_length_pos (Nat.zero_lt_of_lt hn)
  have hfills := hfile.laidOut.relocations item hitem
    (item.storesRelocations hsome)
  have hrecord := hfills.records.fits _ (List.mem_map_of_mem
    (List.getElem_mem hn))
  have hend := hfile.relocationEnd hitem hn
  rw [hfile.elfPlace_eq hitem hn]
  exact (hfills.records.map hn).inSlice (by omega)

theorem Encoded.fits_relocation {item : SectionContent}
    (hitem : item ∈ content.sections) {n : ℕ}
    (hn : n < item.relocations.length) :
    RelocationFits (ElfFile.wide data) item.relocations[n] :=
  hfile.fits.relocations (item.header, item.relocations[n])
    (List.mem_flatMap.mpr ⟨item, hitem,
      List.mem_map_of_mem (List.getElem_mem hn)⟩)

theorem Encoded.baseAddress_eq (table : RawSection) :
    (tableOptions limits data table).baseAddress =
      content.baseAddress table := by
  obtain ⟨htype, -, -, -⟩ := hfile.header_eq
  have hkind : (fileHeader data).kind = .relocatable ↔ content.type = 1 := by
    show ElfParser.elfKind (ElfFile.type data) = .relocatable ↔ _
    rw [htype, ElfParser.elfKind]
    by_cases hone : content.type = 1
    · simp [hone]
    · simp only [hone, if_false, iff_false]
      split_ifs <;> simp
  have htarget : (imageSections limits data)[table.info.toNat]?.map
      Section.virtualAddress = content.sections[table.info.toNat]?.map
        fun target => target.header.address := by
    rw [imageSections, List.getElem?_mapIdx, Option.map_map,
      hfile.sections_eq, List.getElem?_map, Option.map_map]
    rfl
  unfold tableOptions relocationOptions baseAddress
  dsimp only
  rw [← htarget]
  cases (imageSections limits data)[table.info.toNat]? with
  | none => simp
  | some target =>
      simp only [Option.map_some, Option.getD_some]
      by_cases hone : content.type = 1
      · rw [if_pos (hkind.mpr hone), if_pos hone]
      · rw [if_neg (mt hkind.mp hone), if_neg hone]

theorem Encoded.relocation_eq {item : SectionContent}
    (hitem : item ∈ content.sections) {n : ℕ}
    (hn : n < item.relocations.length) (index : ℕ) :
    relocationOf limits data (item.header, n) index =
      content.shownRelocation (item.header, item.relocations[n]) index := by
  obtain ⟨-, hmachine, -, -⟩ := hfile.header_eq
  have harchitecture : (tableOptions limits data item.header).architecture =
      elfArch content.machine := congrArg elfArch hmachine
  rw [relocationOf]
  dsimp only
  rw [elfRelocation_of_holds (hfile.fits_relocation hitem hn) rfl
    (hfile.relocation_holds hitem hn), hfile.baseAddress_eq, harchitecture]
  have hexplicit : (tableOptions limits data item.header).explicitAddends =
      true ↔ item.header.type = 4 := beq_iff_eq
  simp only [hexplicit]
  rfl

/-- Entry by entry, at whatever place of the image's list. -/
theorem Encoded.relocationRecords_eq :
    (ElfFile.relocationRecords data (ElfFile.sections data)).map
        (relocationOf limits data) =
      content.relocations.map content.shownRelocation := by
  rw [hfile.sections_eq, ElfFile.relocationRecords, List.flatMap_map,
    List.map_flatMap, relocations, List.map_flatMap]
  refine List.flatMap_congr fun item hitem => ?_
  rw [List.map_map, List.map_map, hfile.recordCount_eq hitem]
  refine List.ext_getElem (by simp) fun n hleft hright => ?_
  rw [List.length_map] at hright
  simp only [List.getElem_map, List.getElem_range, Function.comp_apply]
  exact funext fun index => hfile.relocation_eq hitem hright index

theorem Encoded.relocations_eq :
    relocationsOf limits data
        (ElfFile.relocationRecords data (ElfFile.sections data)) =
      content.relocations.mapIdx fun index entry =>
        content.shownRelocation entry index := by
  have happlied : ∀ {α : Type} (shown : α → ℕ → Relocation) (items : List α),
      (items.mapIdx fun index item => shown item index) =
        (items.map shown).mapIdx fun index place => place index := by
    intro α shown items
    exact List.ext_getElem (by simp) fun i _ _ => by simp
  rw [relocationsOf, happlied, hfile.relocationRecords_eq, ← happlied]

/-! ## The whole file -/

theorem Encoded.headerInside :
    ElfFile.flagsOffset data + 16 ≤ data.length := by
  have hlength := headerRecord_length (ElfFile.wide data) (ElfFile.order data)
    content.type content.machine content.header
  have hfits := hfile.laidOut.header.fits
    (List.ne_nil_of_length_pos (by rw [hlength]; omega))
  rw [hlength] at hfits
  unfold ElfFile.flagsOffset ElfFile.wordBytes
  omega

theorem Encoded.sectionTable :
    TableInside data (ElfFile.sectionBytes (ElfFile.wide data))
      content.header.sectionOffset content.header.sectionEntrySize.toUInt64
      content.sections.length :=
  tableInside_of_tabulated hfile.inside.sectionTable hfile.laidOut.sections
    fun item => sectionRecord_length _ _ item.header

theorem Encoded.programTable :
    TableInside data (ElfFile.programBytes (ElfFile.wide data))
      content.header.programOffset content.header.programEntrySize.toUInt64
      content.programs.length :=
  tableInside_of_tabulated hfile.inside.programTable hfile.laidOut.programs
    (programRecord_length _ _)

theorem Encoded.loadInside (hloads : content.LoadsFit) :
    ∀ index ∈ ElfFile.loadIndices data,
      LoadInside data (ElfFile.programHeader data index) := by
  rw [hfile.loadIndices_eq]
  refine List.forall_mem_map.mpr fun load hload => ?_
  obtain ⟨hmember, hkind⟩ := List.mem_filter.mp hload
  obtain ⟨hprogram, hheader⟩ := hfile.mem_programs hmember
  rw [hheader]
  exact ⟨hloads _ hprogram (of_decide_eq_true hkind),
    hfile.inside.loads _ hprogram (of_decide_eq_true hkind)⟩

theorem Encoded.symbolStride {item : SectionContent}
    (hitem : item ∈ content.sections)
    (hcount : ElfFile.symbolCount data item.header ≠ 0) :
    ElfFile.symbolBytes (ElfFile.wide data) ≤ item.header.entrySize.toNat := by
  rw [hfile.symbolCount_eq hitem] at hcount
  have hsome := mt List.length_eq_zero_iff.mpr hcount
  exact (hfile.laidOut.symbols item hitem
    (item.storesSymbols hsome)).2.records.stride (symbolRecord_length _ _) hsome

theorem Encoded.relocationWhole {item : SectionContent}
    (hitem : item ∈ content.sections) (htable : item.header.isRelocationTable) :
    item.header.size.toNat %
      (elfStride (tableOptions limits data item.header)).toNat = 0 := by
  have hsome := (hfile.isRelocationTable_iff hitem).mp htable
  rw [hfile.elfStride_eq hitem hsome,
    (hfile.laidOut.relocations item hitem htable.1).size, Nat.mul_mod_left]

theorem Encoded.relocationTarget {item : SectionContent}
    (hitem : item ∈ content.sections) {n : ℕ}
    (hn : n < item.relocations.length) :
    (tableOptions limits data item.header).baseAddress.toNat +
      (elfEntryAt (tableOptions limits data item.header)
        (ElfFile.tableBytes data item.header)
        (elfPlace (tableOptions limits data item.header) n)).offset.toNat <
          2 ^ 64 := by
  rw [hfile.baseAddress_eq, elfEntryAt_offset_of_holds
    (hfile.fits_relocation hitem hn).offset rfl
    (hfile.relocation_holds hitem hn)]
  exact hfile.targets (item.header, item.relocations[n])
    (List.mem_flatMap.mpr ⟨item, hitem,
      List.mem_map_of_mem (List.getElem_mem hn)⟩)

theorem Encoded.readable (hloads : content.LoadsFit) : Readable limits data := by
  obtain ⟨-, -, hversion, hheader⟩ := hfile.header_eq
  have hsections := hfile.sections_eq
  refine
    { length := hfile.inside.length
      headerInside := hfile.headerInside
      encodedClass := ?encodedClass
      encodedOrder := ?encodedOrder
      version := hversion
      sectionCount := ?sectionCount
      programCount := ?programCount
      sectionTable := ?sectionTable
      stored := ?stored
      programTable := ?programTable
      loads := hfile.loadInside hloads
      symbolStride := ?symbolStride
      symbolCount := ?symbolCount
      relocationStride := ?relocationStride
      relocationWhole := ?relocationWhole
      relocationTarget := ?relocationTarget
      relocationCount := ?relocationCount }
  case encodedClass =>
    rw [encodedClass_of_holds hfile.laidOut.identification]
    cases ElfFile.wide data <;> simp [classByte]
  case encodedOrder =>
    rw [encodedOrder_of_holds hfile.laidOut.identification]
    cases ElfFile.order data <;> simp [orderByte]
  case sectionCount =>
    rw [hheader, hfile.laidOut.sectionCount]
    exact hfile.within.sections
  case programCount =>
    rw [hheader, hfile.laidOut.programCount]
    exact hfile.within.programs
  case sectionTable =>
    rw [hheader, hfile.laidOut.sectionCount]
    exact hfile.sectionTable
  case programTable =>
    rw [hheader, hfile.laidOut.programCount]
    exact hfile.programTable
  case relocationCount =>
    have hlength := congrArg List.length hfile.relocationRecords_eq
    rw [List.length_map, List.length_map] at hlength
    rw [hlength]
    exact hfile.within.relocations
  case relocationTarget =>
    intro record hrecord
    rw [hsections, ElfFile.relocationRecords, List.flatMap_map] at hrecord
    obtain ⟨item, hitem, hrecord⟩ := List.mem_flatMap.mp hrecord
    obtain ⟨n, hn, rfl⟩ := List.mem_map.mp hrecord
    rw [hfile.recordCount_eq hitem] at hn
    exact hfile.relocationTarget hitem (List.mem_range.mp hn)
  all_goals
    rw [hsections]
    refine List.forall_mem_map.mpr fun item hitem => ?_
  case stored => exact hfile.inside.sections item hitem
  case symbolStride => exact hfile.symbolStride hitem
  case symbolCount =>
    rw [hfile.symbolCount_eq hitem]
    exact hfile.within.symbols item hitem
  case relocationStride =>
    intro htable
    have hsome := (hfile.isRelocationTable_iff hitem).mp htable
    rw [hfile.elfStride_eq hitem hsome]
    exact hfile.relocationStride hitem hsome
  case relocationWhole => exact hfile.relocationWhole hitem

end Encoded

/-- Decoding inverts encoding, in both classes and both byte orders. -/
theorem parse_encoded {wide : Bool} {order : ByteOrder}
    (hfile : content.Encoded limits wide order data)
    (hloads : content.LoadsFit) :
    ∃ image, ElfParser.parse limits data = .ok image ∧
      content.ShownBy wide order image := by
  obtain rfl := wide_of_holds hfile.laidOut.identification
  obtain rfl := order_of_holds hfile.laidOut.identification
  obtain ⟨htype, hmachine, -, hheader⟩ := hfile.header_eq
  obtain ⟨image, hrun, hparsed, himage, hrelocations⟩ :=
    parse_of_readable (hfile.readable hloads)
  refine ⟨image, hrun, ?_, ?_, ?_, ?_, ?_⟩
  · rw [himage, fileHeader, htype, hmachine, hheader]
    rfl
  · rw [hparsed.sections, hfile.sections_eq]
    refine List.ext_getElem (by simp) fun i _ _ => ?_
    simp only [List.getElem_map, List.getElem_mapIdx]
    exact unnamedSection_toSection _ _ _ _ _ i
  · rw [hparsed.segments, hfile.segments_eq]
  · rw [hparsed.symbols, hfile.symbols_eq]
  · rw [hrelocations, hfile.relocations_eq]

theorem fits_wide (content : Content) : content.Fits true where
  header := ⟨UInt64.toNat_lt _, UInt64.toNat_lt _, UInt64.toNat_lt _⟩
  sections _ _ := ⟨UInt64.toNat_lt _, UInt64.toNat_lt _, UInt64.toNat_lt _,
    UInt64.toNat_lt _, UInt64.toNat_lt _, UInt64.toNat_lt _⟩
  programs _ _ := ⟨UInt64.toNat_lt _, UInt64.toNat_lt _, UInt64.toNat_lt _,
    UInt64.toNat_lt _, UInt64.toNat_lt _, UInt64.toNat_lt _⟩
  symbols _ _ := ⟨UInt64.toNat_lt _, UInt64.toNat_lt _⟩
  relocations _ _ := ⟨UInt64.toNat_lt _, fun h => by contradiction,
    fun h => by contradiction, fun h => by contradiction⟩

/-- A relocatable file with a segment, two symbols and a relocation. -/
def small (program : ProgramEntry) : Content :=
  { type := 1, machine := 62
    header :=
      { entry := 0x1000, programOffset := 64, sectionOffset := 192, flags := 0
        headerSize := 64, programEntrySize := 56, programCount := 1
        sectionEntrySize := 64, sectionCount := 2, namesIndex := 0 }
    sections :=
      [{ header := { type := 2, address := 0x1000, offset := 120, size := 48
                     alignment := 0, entrySize := 24 }
         symbols := [⟨0, 0x12, 0, 1, 0x10, 4⟩, ⟨0, 0x11, 7, 0, 0x20, 8⟩]
         storesSymbols := fun _ => .inl rfl
         storesRelocations := fun h => absurd rfl h },
       { header := { type := 4, offset := 168, size := 24, entrySize := 24 }
         relocations := [⟨0x30, 1, 2, -4⟩]
         storesSymbols := fun h => absurd rfl h
         storesRelocations := fun _ => .inl rfl }]
    programs := [program] }

/-- The big-endian encoding of `small`, wide. -/
def smallFile (program : ProgramEntry) : Bytes :=
  let content := small program
  identification true .big ++ List.replicate 10 0 ++
    headerRecord true .big content.type content.machine content.header ++
    programRecord true .big program ++
    content.symbols.flatMap (symbolRecord true .big) ++
    content.relocations.flatMap (fun entry =>
      relocationRecord true .big true entry.2) ++
    content.sections.flatMap (fun item => sectionRecord true .big item.header)

def loadOf (fileSize memorySize : UInt64) : ProgramEntry :=
  { kind := 1, flags := 5, fileOffset := 0, virtualAddress := 0x1000, fileSize
    memorySize, alignment := 0x1000 }

theorem small_encoded {fileSize memorySize : UInt64}
    (hsizes : (fileSize, memorySize) ∈ [((1 : UInt64), (2 : UInt64)), (2, 1)]) :
    (small (loadOf fileSize memorySize)).Encoded {} true .big
      (smallFile (loadOf fileSize memorySize)) := by
  have hnone : ∀ {table : RawSection}, table.type = 4 → ¬StoresSymbols table :=
    fun htype => by simp [StoresSymbols, htype]
  have hother : ∀ {table : RawSection}, table.type = 2 →
      ¬StoresRelocations table :=
    fun htype => by simp [StoresRelocations, htype]
  simp only [List.mem_cons, Prod.mk.injEq, List.not_mem_nil, or_false] at hsizes
  obtain ⟨rfl, rfl⟩ | ⟨rfl, rfl⟩ := hsizes
  all_goals exact
    { fits := fits_wide _
      inside := ⟨by decide +kernel, by decide +kernel, by decide +kernel,
        by unfold StoredInside; decide +kernel, by decide +kernel⟩
      within := ⟨by decide +kernel, by decide +kernel, by decide +kernel,
        by decide +kernel⟩
      laidOut :=
        { identification := by decide +kernel
          header := by decide +kernel
          sectionCount := by decide +kernel
          programCount := by decide +kernel
          sections := ⟨by decide +kernel, by decide +kernel⟩
          programs := ⟨by decide +kernel, by decide +kernel⟩
          symbols := List.forall_mem_cons.mpr ⟨fun _ => ⟨by decide +kernel,
              by decide +kernel, by decide +kernel, by decide +kernel⟩,
            List.forall_mem_singleton.mpr fun h => absurd h (hnone rfl)⟩
          relocations := List.forall_mem_cons.mpr
            ⟨fun h => absurd h (hother rfl), List.forall_mem_singleton.mpr
              fun _ => ⟨by decide +kernel, by decide +kernel,
                by decide +kernel⟩⟩ }
      targets := by decide +kernel }

theorem parse_encoded_small :
    ∃ image, ElfParser.parse {} (smallFile (loadOf 1 2)) = .ok image ∧
      (small (loadOf 1 2)).ShownBy true .big image :=
  parse_encoded (small_encoded (by decide)) (by
    unfold LoadsFit
    decide +kernel)

/-- A load segment of two bytes in the file and one in memory is rejected. -/
theorem parse_rejects_encoded :
    ¬∀ (content : Content) (limits : Limits) (wide : Bool) (order : ByteOrder)
      (data : Bytes), content.Encoded limits wide order data →
        ∃ image, ElfParser.parse limits data = .ok image ∧
          content.ShownBy wide order image := by
  intro hall
  obtain ⟨image, hrun, -⟩ :=
    hall _ _ _ _ _ (small_encoded (by decide) :
      (small (loadOf 2 1)).Encoded {} true .big (smallFile (loadOf 2 1)))
  have hrejected : (ElfParser.parse {} (smallFile
      (loadOf 2 1))).toOption.isSome = false := by decide +kernel
  exact absurd (congrArg (fun result => result.toOption.isSome) hrun)
    (by rw [hrejected]; exact Bool.false_ne_true)

end Content
end ElfEncoding
end BinForge
