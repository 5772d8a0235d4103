import BinForge.BinaryParser
import BinForge.ElfFile
import BinForge.MachOFile
import BinForge.PeFile
import BinForge.RelatedLists

/-!
# When a parsed image passes the validator

The parsers check counts, indices and most file ranges; alignments, the ends of
the memory ranges, symbol numbers and, in each format, one more count or offset
are left to the validator.  For each format, the fields of the file that decide
are gathered here.
-/

namespace BinForge

open StatefulExcept
open BinaryValidator

/-! ## Conditions on every item -/

theorem forall_mem_mapIdx {α β : Type} {f : ℕ → α → β} {items : List α}
    {valid : β → Prop} {allowed : α → Prop}
    (hiff : ∀ position, ∀ item ∈ items,
      (valid (f position item) ↔ allowed item)) :
    (∀ value ∈ items.mapIdx f, valid value) ↔
      ∀ item ∈ items, allowed item := by
  constructor
  · intro hall item hitem
    obtain ⟨position, hposition, rfl⟩ := List.mem_iff_getElem.mp hitem
    exact (hiff position _ hitem).mp
      (hall _ (List.mem_mapIdx.mpr ⟨position, hposition, rfl⟩))
  · intro hall value hvalue
    obtain ⟨position, hposition, rfl⟩ := List.mem_mapIdx.mp hvalue
    have hitem := List.getElem_mem hposition
    exact (hiff position _ hitem).mpr (hall _ hitem)

/-! ## ELF -/

namespace ElfFile

/-- The number of symbols in all symbol tables. -/
def totalSymbols (data : Bytes) : ℕ :=
  (symbolEntries data (sections data)).length

/-- What the parser leaves open. -/
structure Consistent (limits : Limits) (data : Bytes) : Prop where
  alignments : ∀ item ∈ sections data,
    item.alignment &&& (item.alignment - 1) = 0
  bounded : ∀ index ∈ loadIndices data,
    (programHeader data index).virtualAddress.toNat +
      (programHeader data index).memorySize.toNat < 2 ^ 64
  symbolCount : totalSymbols data ≤ limits.maxSymbols.toNat
  relocations : ∀ record ∈ relocationRecords data (sections data),
    (recordSymbol data record).toNat < totalSymbols data ∨
      recordSymbol data record = 0

end ElfFile

namespace ElfParser

open ElfFile

variable {limits : Limits} {data : Bytes} {image : BinaryImage}

theorem toSection_valid_iff {item : RawSection}
    (hstored : StoredInside data item) {all : List RawSection}
    {namesIndex : UInt16} {index : ℕ} :
    SectionValid data (item.toSection limits data all namesIndex index) ↔
      item.alignment &&& (item.alignment - 1) = 0 := by
  have halignment : ¬badAlignment
      (if item.alignment ≠ 0 then item.alignment else 1) ↔
        item.alignment &&& (item.alignment - 1) = 0 := by
    by_cases hzero : item.alignment = 0
    · rw [if_neg (not_not.mpr hzero), hzero]
      decide
    · rw [if_pos hzero, badAlignment, not_or, not_not]
      exact and_iff_right hzero
  rw [← halignment]
  refine ⟨fun hvalid => hvalid.alignment, fun hgood => ⟨?_, hgood⟩⟩
  by_cases htype : item.type = 8
  · refine .inl ?_
    rw [RawSection.toSection, elfSectionKind, htype]
    simp
  · exact .inr (hstored htype)

theorem segmentAt_valid_iff {index : ℕ}
    (hload : LoadInside data (programHeader data index)) :
    SegmentValid data (segmentAt data index) ↔
      (programHeader data index).virtualAddress.toNat +
        (programHeader data index).memorySize.toNat < 2 ^ 64 :=
  ⟨fun hvalid => hvalid.bounded, fun hbounded => ⟨hload.1, hload.2, hbounded⟩⟩

theorem Parsed.valid_iff (hparsed : Parsed limits data image)
    (hsize : data.length ≤ limits.maxFileSize.toNat) :
    Valid limits image data ↔ Consistent limits data := by
  have hsectionCount : image.sections.length ≤ limits.maxSections.toNat := by
    rw [hparsed.sections, List.length_mapIdx, ElfFile.sections,
      List.length_map, List.length_range]
    exact hparsed.sectionCount
  have hsegmentCount : image.segments.length ≤ limits.maxSegments.toNat := by
    rw [hparsed.segments, List.length_map]
    refine (List.length_filter_le _ _).trans ?_
    rw [List.length_range]
    exact hparsed.segmentCount
  have hsymbolCount : image.symbols.length = totalSymbols data := by
    rw [hparsed.symbols, symbolsOf, List.length_mapIdx, totalSymbols]
  have hsections : (∀ item ∈ image.sections, SectionValid data item) ↔
      ∀ item ∈ ElfFile.sections data,
        item.alignment &&& (item.alignment - 1) = 0 := by
    rw [hparsed.sections]
    exact forall_mem_mapIdx fun _ item hitem =>
      toSection_valid_iff (hparsed.stored item hitem)
  have hsegments : (∀ segment ∈ image.segments, SegmentValid data segment) ↔
      ∀ index ∈ loadIndices data,
        (programHeader data index).virtualAddress.toNat +
          (programHeader data index).memorySize.toNat < 2 ^ 64 := by
    rw [hparsed.segments, List.forall_mem_map]
    exact forall₂_congr fun index hindex =>
      segmentAt_valid_iff (hparsed.loads index hindex)
  have hrelocations : (∀ relocation ∈ image.relocations,
      RelocationValid image.symbols.length relocation) ↔
        ∀ record ∈ relocationRecords data (ElfFile.sections data),
          (recordSymbol data record).toNat < totalSymbols data ∨
            recordSymbol data record = 0 := by
    rw [hsymbolCount]
    exact RelatedLists.forall_mem_iff hparsed.relocations.stored
      fun record _ relocation hstored => by rw [RelocationValid, hstored]
  constructor
  · intro hvalid
    exact ⟨hsections.mp hvalid.sections, hsegments.mp hvalid.segments,
      hsymbolCount ▸ hvalid.symbolCount, hrelocations.mp hvalid.relocations⟩
  · intro hconsistent
    have hsectionLimit := limits.maxSections.toNat_lt
    have hsymbolLimit := limits.maxSymbols.toNat_lt
    have hsymbols := hconsistent.symbolCount
    refine ⟨hsize, hsectionCount, hsegmentCount, hsymbolCount ▸ hsymbols,
      hparsed.relocations.bounded, ?_, hsections.mpr hconsistent.alignments,
      hsegments.mpr hconsistent.bounded, ?_,
      hrelocations.mpr hconsistent.relocations⟩
    · rw [hparsed.sections] at hsectionCount ⊢
      rw [List.length_mapIdx] at hsectionCount
      exact indexed_mapIdx (by omega) fun _ _ => rfl
    · rw [hparsed.symbols]
      rw [totalSymbols] at hsymbols
      exact indexed_mapIdx (by omega) fun _ _ => rfl

end ElfParser

/-! ## PE -/

namespace PeFile

/-- What the parser leaves open. -/
structure Consistent (limits : Limits) (data : Bytes) : Prop where
  segmentCount : (sectionCount data).toNat ≤ limits.maxSegments.toNat
  alignment : sections data ≠ [] →
    ¬badAlignment (sectionAlignment data).toUInt64
  offsets : ∀ header ∈ sections data, header.rawOffset.toNat ≤ data.length

end PeFile

namespace PeParser

open PeFile

variable {limits : Limits} {data : Bytes} {image : BinaryImage}

theorem memorySize_lt (header : SectionHeader) :
    header.memorySize.toNat < 2 ^ 32 := by
  unfold SectionHeader.memorySize
  split <;> exact UInt32.toNat_toUInt64 _ ▸ UInt32.toNat_lt _

theorem toSection_valid_iff {header : SectionHeader}
    (hstored : StoredInside data header) {index : ℕ} {alignment : UInt32} :
    SectionValid data (header.toSection index alignment) ∧
        SegmentValid data (segmentOf (header.toSection index alignment)) ↔
      ¬badAlignment alignment.toUInt64 ∧
        header.rawOffset.toNat ≤ data.length := by
  have hoffset : header.rawOffset.toUInt64.toNat = header.rawOffset.toNat :=
    UInt32.toNat_toUInt64 _
  have hsize : header.rawSize.toUInt64.toNat = header.rawSize.toNat :=
    UInt32.toNat_toUInt64 _
  constructor
  · rintro ⟨hsection, hsegment⟩
    have hrange : header.rawOffset.toUInt64.toNat +
        header.rawSize.toUInt64.toNat ≤ data.length := hsegment.range
    exact ⟨hsection.alignment, by omega⟩
  · rintro ⟨halignment, hinside⟩
    have hrange : header.rawOffset.toUInt64.toNat +
        header.rawSize.toUInt64.toNat ≤ data.length := by
      rw [hoffset, hsize]
      by_cases hempty : header.rawSize = 0
      · rwa [hempty, UInt32.toNat_zero, Nat.add_zero]
      · exact hstored hempty
    have hfile : header.rawSize.toUInt64 ≤ header.memorySize := by
      rw [UInt64.le_iff_toNat_le, hsize]
      exact rawSize_le_memorySize header
    refine ⟨⟨.inr hrange, halignment⟩, hfile, hrange, ?_⟩
    have haddress : header.rva.toUInt64.toNat < 2 ^ 32 :=
      UInt32.toNat_toUInt64 _ ▸ header.rva.toNat_lt
    have hmemory := memorySize_lt header
    show header.rva.toUInt64.toNat + header.memorySize.toNat < 2 ^ 64
    omega

theorem Parsed.valid_iff (hparsed : Parsed limits data image)
    (hsize : data.length ≤ limits.maxFileSize.toNat) :
    Valid limits image data ↔ Consistent limits data := by
  have hcount : image.sections.length = (sectionCount data).toNat := by
    rw [hparsed.sections, List.length_map, List.length_range]
  have hsegmentCount : image.segments.length = (sectionCount data).toNat := by
    rw [hparsed.segments, List.length_map, hcount]
  have hsections : (∀ item ∈ image.sections, SectionValid data item ∧
        SegmentValid data (segmentOf item)) ↔
      ∀ header ∈ PeFile.sections data,
        ¬badAlignment (sectionAlignment data).toUInt64 ∧
          header.rawOffset.toNat ≤ data.length := by
    rw [hparsed.sections, PeFile.sections, List.forall_mem_map,
      List.forall_mem_map]
    exact forall₂_congr fun index hindex =>
      toSection_valid_iff (hparsed.stored index hindex)
  constructor
  · intro hvalid
    have hboth := hsections.mp fun item hitem =>
      ⟨hvalid.sections item hitem, hvalid.segments _
        (hparsed.segments ▸ List.mem_map_of_mem hitem)⟩
    refine ⟨hsegmentCount ▸ hvalid.segmentCount, fun hsome => ?_,
      fun header hheader => (hboth header hheader).2⟩
    obtain ⟨header, hheader⟩ := List.exists_mem_of_ne_nil _ hsome
    exact (hboth header hheader).1
  · intro hconsistent
    have hboth := hsections.mpr fun header hheader =>
      ⟨hconsistent.alignment (List.ne_nil_of_mem hheader),
        hconsistent.offsets header hheader⟩
    refine ⟨hsize, hcount ▸ hparsed.count,
      hsegmentCount ▸ hconsistent.segmentCount, hparsed.symbolCount, ?_, ?_,
      fun item hitem => (hboth item hitem).1, ?_, hparsed.symbolIndex, ?_⟩
    · obtain ⟨added, hadded, _⟩ := hparsed.relocations.appended
      rcases hparsed.relocations.bounded with hnone | hbounded
      · rw [hnone]
        exact Nat.zero_le _
      · exact hbounded
    · have hsmall := (sectionCount data).toNat_lt
      refine indexed_of_ofNat (by omega) fun position item hitem => ?_
      rw [hparsed.sections, List.getElem?_map, Option.map_eq_some_iff] at hitem
      obtain ⟨index, hindex, rfl⟩ := hitem
      obtain ⟨hposition, rfl⟩ := List.getElem?_eq_some_iff.mp hindex
      rw [List.getElem_range]
      rfl
    · rw [hparsed.segments, List.forall_mem_map]
      exact fun item hitem => (hboth item hitem).2
    · obtain ⟨added, hadded, hrecords⟩ := hparsed.relocations.appended
      rw [hadded, List.nil_append]
      exact fun relocation hrelocation =>
        .inr (hrecords relocation hrelocation).symbolIndex

end PeParser

/-! ## Mach-O -/

namespace MachOFile

/-- What the parser leaves open. -/
structure Consistent (limits : Limits) (data : Bytes) : Prop where
  segmentCount : (segments data).length ≤ limits.maxSegments.toNat
  bounded : ∀ offset ∈ segments data,
    (segmentRange data offset).vmaddr.toNat +
      (segmentRange data offset).vmsize.toNat < 2 ^ 64
  offsets : ∀ entry ∈ sectionEntries data (segments data),
    (rawSection data entry).zeroFilled = true →
      (ascii "__debug").isPrefixOf (rawSection data entry).name = true →
        (rawSection data entry).offset.toNat ≤ data.length
  relocations : ∀ record ∈
    relocationRecords data (sectionEntries data (segments data)),
      recordSymbol data record = 0

end MachOFile

namespace MachOParser

open MachOFile

variable {limits : Limits} {data : Bytes} {image : BinaryImage}

theorem not_badAlignment_shift {align : UInt32} :
    ¬badAlignment
      (if align < 63 then (1 : UInt64) <<< align.toUInt64 else 1) := by
  rw [badAlignment, not_or, not_not, ← ne_eq, Alignment.powerOfTwo_iff]
  split
  · next hsmall =>
      refine ⟨align.toNat, ?_⟩
      rw [UInt32.lt_iff_toNat_lt] at hsmall
      have hbound : align.toNat < 63 := hsmall
      rw [UInt64.toNat_shiftLeft, UInt32.toNat_toUInt64,
        Nat.mod_eq_of_lt (show align.toNat < 64 by omega), UInt64.toNat_one,
        Nat.one_shiftLeft]
      exact Nat.mod_eq_of_lt (Nat.pow_lt_pow_right (by decide) (by omega))
  · exact ⟨0, rfl⟩

theorem sectionOf_valid_iff {entry : SectionEntry}
    (hstored : StoredInside data (rawSection data entry)) {index : ℕ} :
    SectionValid data (sectionOf data entry index) ↔
      ((rawSection data entry).zeroFilled = true →
        (ascii "__debug").isPrefixOf (rawSection data entry).name = true →
          (rawSection data entry).offset.toNat ≤ data.length) := by
  have hoffset : (rawSection data entry).offset.toUInt64.toNat =
      (rawSection data entry).offset.toNat := UInt32.toNat_toUInt64 _
  have halignment : ¬badAlignment (sectionOf data entry index).alignment :=
    not_badAlignment_shift
  cases hfilled : (rawSection data entry).zeroFilled with
  | false =>
      refine ⟨fun _ hfalse => absurd hfalse Bool.false_ne_true,
        fun _ => ⟨.inr ?_, halignment⟩⟩
      simp only [sectionOf, RawSection.toSection, hfilled, Bool.false_eq_true,
        if_false, hoffset]
      exact hstored hfilled
  | true =>
      have hrange : (sectionOf data entry index).fileOffset.toNat +
          (sectionOf data entry index).fileSize.toNat =
            (rawSection data entry).offset.toNat := by
        simp only [sectionOf, RawSection.toSection, hfilled, if_true, hoffset,
          UInt64.toNat_zero, Nat.add_zero]
      cases hdebug : (ascii "__debug").isPrefixOf (rawSection data entry).name
      case false =>
        refine ⟨fun _ _ hfalse => absurd hfalse Bool.false_ne_true,
          fun _ => ⟨.inl ?_, halignment⟩⟩
        simp only [sectionOf, RawSection.toSection, hdebug, hfilled,
          Bool.false_eq_true, if_false, if_true]
      case true =>
        have hkind : (sectionOf data entry index).kind ≠ .noBits := by
          simp only [sectionOf, RawSection.toSection, hdebug, if_true]
          decide
        constructor
        · intro hvalid _ _
          rw [← hrange]
          exact hvalid.range.resolve_left hkind
        · intro hinside
          exact ⟨.inr (hrange ▸ hinside rfl rfl), halignment⟩

theorem segmentAt_valid_iff {offset : ℕ} {segment : Segment}
    (hinside : SegmentInside data offset)
    (hsegment : SegmentAt data offset segment) :
    SegmentValid data segment ↔
      (segmentRange data offset).vmaddr.toNat +
        (segmentRange data offset).vmsize.toNat < 2 ^ 64 := by
  rw [← hsegment.virtualAddress, ← hsegment.memorySize]
  refine ⟨fun hvalid => hvalid.bounded, fun hbounded => ⟨?_, ?_, hbounded⟩⟩
  · rw [hsegment.fileSize, hsegment.memorySize]
    exact hinside.1
  · rw [hsegment.fileOffset, hsegment.fileSize]
    exact hinside.2

theorem Parsed.sections_eq (hparsed : Parsed limits data image) :
    image.sections =
      sectionsOf data (sectionEntries data (MachOFile.segments data)) :=
  hparsed.walked.gathered.sections

theorem Parsed.valid_iff (hparsed : Parsed limits data image)
    (hsize : data.length ≤ limits.maxFileSize.toNat) :
    Valid limits image data ↔ Consistent limits data := by
  have hgathered := hparsed.walked.gathered
  have hsectionCount : image.sections.length =
      (sectionEntries data (MachOFile.segments data)).length := by
    rw [hparsed.sections_eq, sectionsOf, List.length_mapIdx]
  have hsegmentCount : image.segments.length =
      (MachOFile.segments data).length :=
    hparsed.walked.segments.length_eq.symm
  have hsections : (∀ item ∈ image.sections, SectionValid data item) ↔
      ∀ entry ∈ sectionEntries data (MachOFile.segments data),
        (rawSection data entry).zeroFilled = true →
          (ascii "__debug").isPrefixOf (rawSection data entry).name = true →
            (rawSection data entry).offset.toNat ≤ data.length := by
    rw [hparsed.sections_eq]
    exact forall_mem_mapIdx fun _ entry hentry =>
      sectionOf_valid_iff (hgathered.stored entry hentry)
  have hsegments : (∀ segment ∈ image.segments, SegmentValid data segment) ↔
      ∀ offset ∈ MachOFile.segments data,
        (segmentRange data offset).vmaddr.toNat +
          (segmentRange data offset).vmsize.toNat < 2 ^ 64 :=
    RelatedLists.forall_mem_iff hparsed.walked.segments
      fun offset hoffset _ hsegment =>
        segmentAt_valid_iff (hparsed.walked.inside offset hoffset) hsegment
  have hrelocations : (∀ relocation ∈ image.relocations,
      RelocationValid image.symbols.length relocation) ↔
        ∀ record ∈ relocationRecords data
          (sectionEntries data (MachOFile.segments data)),
            recordSymbol data record = 0 := by
    rw [hparsed.symbols]
    exact RelatedLists.forall_mem_iff hgathered.relocations
      fun record _ relocation hstored => by
        rw [RelocationValid, hstored, List.length_nil, or_iff_right]
        exact Nat.not_lt_zero _
  constructor
  · intro hvalid
    exact ⟨hsegmentCount ▸ hvalid.segmentCount, hsegments.mp hvalid.segments,
      hsections.mp hvalid.sections, hrelocations.mp hvalid.relocations⟩
  · intro hconsistent
    have hlimit := limits.maxSections.toNat_lt
    have hcount := hparsed.walked.sectionCount
    refine ⟨hsize, hsectionCount ▸ hcount,
      hsegmentCount ▸ hconsistent.segmentCount, ?_, hgathered.bounded, ?_,
      hsections.mpr hconsistent.offsets, hsegments.mpr hconsistent.bounded, ?_,
      hrelocations.mpr hconsistent.relocations⟩
    · rw [hparsed.symbols]
      exact Nat.zero_le _
    · rw [hparsed.sections_eq]
      exact indexed_mapIdx (by omega) fun _ _ => rfl
    · rw [hparsed.symbols]
      exact indexed_nil

end MachOParser

/-! ## Every format -/

namespace BinaryParser

variable {limits : Limits} {data : Bytes} {image : BinaryImage}

/-- The fields the parser of the format leaves open are as the validator wants
them. -/
def Consistent (limits : Limits) (data : Bytes) : Prop :=
  match detect data with
  | .elfLike => ElfFile.Consistent limits data
  | .peLike => PeFile.Consistent limits data
  | .machoLike => MachOFile.Consistent limits data
  | .unknown => False

/-- The image of an accepted file passes the validator exactly when the file is
consistent. -/
theorem parse_validates_iff (hrun : parse limits data = .ok image) :
    (validate limits image).valid = true ↔ Consistent limits data := by
  obtain ⟨hsize, hformat⟩ := parse_ok hrun
  have hvalid : image.fileData = some data →
      ((validate limits image).valid = true ↔ Valid limits image data) := by
    intro hdata
    rw [validate_valid_iff, hdata]
    simp only [Option.some.injEq, exists_eq_left']
  unfold Consistent
  cases hdetect : detect data <;> rw [hdetect] at hformat
  case unknown => exact absurd hformat not_false
  case elfLike =>
    have hparsed := ElfParser.parse_ok hformat
    rw [hvalid hparsed.fileData]
    exact hparsed.valid_iff hsize
  case peLike =>
    have hparsed := PeParser.parse_ok hformat
    rw [hvalid hparsed.fileData]
    exact hparsed.valid_iff hsize
  case machoLike =>
    have hparsed := MachOParser.parse_ok hformat
    rw [hvalid hparsed.fileData]
    exact hparsed.valid_iff hsize

/-- A Mach-O object with one section, which has one relocation by an external
symbol of the file's symbol table. -/
def objectFile (symbol : UInt32) : Bytes :=
  ([0xfeedfacf, 0x1000007, 3, 1, 2, 176, 0, 0] ++
    [0x19, 152, 0, 0, 0, 0, 0, 0, 8, 0, 208, 0, 8, 0, 7, 7, 1, 0] ++
    [0, 0, 0, 0, 0, 0, 0, 0, 0, 0, 8, 0, 208, 3, 216, 1, 0, 0, 0, 0] ++
    [2, 24, 224, 2, 256, 8] ++ [0, 0] ++ [0, 0xe000000 + symbol] ++
    [1, 1, 0, 0, 3, 1, 0, 0] ++ [0x62006100, 0]).flatMap u32Bytes

theorem parse_validates_iff_object_file :
    ∃ image, parse {} (objectFile 0) = .ok image ∧
      ((validate {} image).valid = true ↔ Consistent {} (objectFile 0)) := by
  obtain ⟨image, hrun, _⟩ := toOption_bind_eq_some.mp (by decide +kernel :
    ((parse {} (objectFile 0)).toOption.bind
      fun image => some image.relocations.length) = some 1)
  exact ⟨image, hrun, parse_validates_iff hrun⟩

/-- The parser reads no Mach-O symbols, so the second one is out of range. -/
theorem parse_admits_invalid_image :
    ¬∀ limits data image, parse limits data = .ok image →
      (validate limits image).valid = true := by
  intro hall
  obtain ⟨image, hrun, hinvalid⟩ := toOption_bind_eq_some.mp
    (by decide +kernel :
      ((parse {} (objectFile 1)).toOption.bind
        fun image => some (validate {} image).valid) = some false)
  rw [hall _ _ _ hrun] at hinvalid
  exact absurd hinvalid (by decide)

end BinaryParser
end BinForge
