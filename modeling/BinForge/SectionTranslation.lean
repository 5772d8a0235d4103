import BinForge.BinaryParser
import BinForge.PeFile
import BinForge.TranslatedRange

/-!
# Translation through disjoint sections

Each translation stops at the first section that holds the request.  Where the
ranges of the sections are disjoint, a nonempty request inside one of them has
no earlier match, so both directions go through that section and undo each
other.
-/

namespace BinForge

open StatefulExcept

namespace AddressTranslator

variable {image : BinaryImage} {item : Section}
  {start size address offset length : UInt64}

/-- The numbers of a range that starts at a 64-bit value; its end is not cut. -/
def span (start size : UInt64) : Set ℕ :=
  Set.Ico start.toNat (start.toNat + size.toNat)

/-- No place lies in two of the ranges. -/
def SpansApart (items : List Section) (start size : Section → UInt64) : Prop :=
  items.Pairwise fun first second =>
    Disjoint (span (start first) (size first))
      (span (start second) (size second))

theorem disjoint_span {start size start' size' : UInt64} :
    Disjoint (span start size) (span start' size') ↔
      min (start.toNat + size.toNat) (start'.toNat + size'.toNat) ≤
        max start.toNat start'.toNat :=
  Set.Ico_disjoint_Ico

instance (start size start' size' : UInt64) :
    Decidable (Disjoint (span start size) (span start' size')) :=
  decidable_of_iff _ disjoint_span.symm

instance (items : List Section) (start size : Section → UInt64) :
    Decidable (SpansApart items start size) :=
  inferInstanceAs (Decidable (List.Pairwise _ _))

/-- At most one item is found, so the first one is. -/
theorem find?_of_pairwise {α : Type} {found : α → Bool} {items : List α}
    {item : α}
    (hpairs : items.Pairwise fun first second =>
      ¬(found first = true ∧ found second = true))
    (hmem : item ∈ items) (hfound : found item = true) :
    items.find? found = some item := by
  induction items with
  | nil => exact absurd hmem List.not_mem_nil
  | cons head rest ih =>
      obtain ⟨hhead, hrest⟩ := List.pairwise_cons.mp hpairs
      rcases List.mem_cons.mp hmem with rfl | hmem
      · exact List.find?_cons_of_pos hfound
      · rw [List.find?_cons_of_neg fun h => hhead item hmem ⟨h, hfound⟩]
        exact ih hrest hmem

theorem mem_span_of_holds (hlength : 0 < length.toNat)
    (hholds : holds start size address length = true) :
    address.toNat ∈ span start size := by
  obtain ⟨hbelow, hend⟩ := holds_iff.mp hholds
  exact ⟨hbelow, by omega⟩

/-- A nonempty request is inside one of disjoint ranges at most. -/
theorem SpansApart.not_both {start size : Section → UInt64}
    {items : List Section} (hapart : SpansApart items start size)
    (hlength : 0 < length.toNat) :
    items.Pairwise fun first second =>
      ¬(holds (start first) (size first) address length = true ∧
        holds (start second) (size second) address length = true) := by
  apply hapart.imp
  intro first second hdisjoint hboth
  exact Set.disjoint_left.mp hdisjoint (mem_span_of_holds hlength hboth.1)
    (mem_span_of_holds hlength hboth.2)

/-! ## There and back -/

theorem lookStored_eq_ite (fileOffset fileSize virtualAddress offset
      length : UInt64) :
    lookStored fileOffset fileSize virtualAddress offset length =
      if holds fileOffset fileSize offset length then
        some (checkedAdd virtualAddress (offset - fileOffset))
      else none :=
  guarded_eq_ite ..

/-- The section a place of the file is translated by. -/
def inFile (offset length : UInt64) (item : Section) : Bool :=
  holds item.fileOffset item.fileSize offset length

theorem findSome?_lookStored (items : List Section) :
    items.findSome? (fun item => lookStored item.fileOffset item.fileSize
        item.virtualAddress offset length) =
      (items.find? (inFile offset length)).map fun item =>
        checkedAdd item.virtualAddress (offset - item.fileOffset) := by
  simp only [lookStored_eq_ite]
  exact findSome?_ite (inFile offset length) _ items

theorem fileToVirtual_of_section
    (hfound : image.sections.find? (inFile offset length) = some item) :
    fileToVirtual image offset length =
      checkedAdd item.virtualAddress (offset - item.fileOffset) := by
  rw [fileToVirtual, findSome?_lookStored, hfound, Option.map_some]
  exact Option.join_some

theorem virtualToFile_of_section
    (hfound : image.sections.find? (inMemory address length) = some item) :
    virtualToFile image address length = sectionAnswer address length item := by
  rw [virtualToFile_eq, hfound]
  rfl

theorem sectionAnswer_of_stores
    (hholds : holds item.virtualAddress item.fileSize address length = true)
    (hfit : item.fileOffset.toNat + (address - item.virtualAddress).toNat <
      2 ^ 64) :
    sectionAnswer address length item =
      some { fileOffset := item.fileOffset + (address - item.virtualAddress)
             available := item.fileSize - (address - item.virtualAddress)
             sectionIndex := item.index } := by
  rw [sectionAnswer, answerFrom, if_pos hholds, fileAddress_eq_some]
  exact ⟨hfit, rfl⟩

/-- Sections that store no more than they occupy, whose ranges do not leave 64
bits and share neither an address nor a byte of the file. -/
structure SectionsApart (items : List Section) : Prop where
  stored : ∀ item ∈ items, item.fileSize ≤ item.memorySize
  addresses : ∀ item ∈ items,
    item.virtualAddress.toNat + item.memorySize.toNat ≤ 2 ^ 64
  offsets : ∀ item ∈ items,
    item.fileOffset.toNat + item.fileSize.toNat ≤ 2 ^ 64
  memory : SpansApart items Section.virtualAddress Section.memorySize
  file : SpansApart items Section.fileOffset Section.fileSize

/-- Inside such a section the two translations undo each other. -/
theorem translations_inverse (hapart : SectionsApart image.sections)
    (hmem : item ∈ image.sections) {d n : UInt64} (hlength : 1 ≤ n)
    (hinside : d.toNat + n.toNat ≤ item.fileSize.toNat) :
    fileToVirtual image (item.fileOffset + d) n =
        some (item.virtualAddress + d) ∧
      virtualToFile image (item.virtualAddress + d) n =
        some { fileOffset := item.fileOffset + d
               available := item.fileSize - d, sectionIndex := item.index } := by
  have hstored := UInt64.le_iff_toNat_le.mp (hapart.stored item hmem)
  have haddresses := hapart.addresses item hmem
  have hoffsets := hapart.offsets item hmem
  have hsome : 0 < n.toNat := by
    have hone := UInt64.le_iff_toNat_le.mp hlength
    rw [show (1 : UInt64).toNat = 1 from rfl] at hone
    exact hone
  have hfilePlace : (item.fileOffset + d).toNat =
      item.fileOffset.toNat + d.toNat := toNat_add_of_fit (by omega)
  have hmemoryPlace : (item.virtualAddress + d).toNat =
      item.virtualAddress.toNat + d.toNat := toNat_add_of_fit (by omega)
  constructor
  · have hholds : inFile (item.fileOffset + d) n item = true := by
      rw [inFile, holds_iff, hfilePlace]
      omega
    rw [fileToVirtual_of_section
      (find?_of_pairwise (hapart.file.not_both hsome) hmem hholds),
      add_sub_cancel_left]
    exact checkedAdd_of_fit (by omega)
  · have hholds : inMemory (item.virtualAddress + d) n item = true := by
      rw [inMemory, holds_iff, hmemoryPlace]
      omega
    rw [virtualToFile_of_section
      (find?_of_pairwise (hapart.memory.not_both hsome) hmem hholds),
      sectionAnswer_of_stores]
    · rw [add_sub_cancel_left]
    · rw [holds_iff, hmemoryPlace]
      omega
    · rw [add_sub_cancel_left]
      omega

/-- Two sections side by side, in the file and in memory. -/
def adjacentSections : BinaryImage :=
  { sections := [
      { index := 0, fileOffset := 0x10, fileSize := 4,
        virtualAddress := 0x1000, memorySize := 0x10 },
      { index := 1, fileOffset := 0x14, fileSize := 8,
        virtualAddress := 0x1010, memorySize := 8 }] }

/-- The last byte of the second section. -/
theorem translations_inverse_adjacent :
    fileToVirtual adjacentSections (0x14 + 7) 1 = some (0x1010 + 7) ∧
      virtualToFile adjacentSections (0x1010 + 7) 1 =
        some { fileOffset := 0x14 + 7, available := 8 - 7,
               sectionIndex := 1 } := by
  exact @translations_inverse adjacentSections adjacentSections.sections[1]
    ⟨by decide, by decide, by decide, by decide, by decide⟩ (by decide) 7 1
    (by decide) (by decide)

/-! ## RVAs of PE sections

The sections of a PE image carry RVAs.  The translator first takes them for
addresses and looks for the RVA behind the image base. -/

open BinaryValidator
open PeParser

theorem eq_of_indexed {items : List Section} {first second : Section}
    (hindexed : Indexed Section.index items) (hfirst : first ∈ items)
    (hsecond : second ∈ items) (hindex : first.index = second.index) :
    first = second := by
  obtain ⟨i, hi⟩ := List.mem_iff_getElem?.mp hfirst
  obtain ⟨j, hj⟩ := List.mem_iff_getElem?.mp hsecond
  have hsame : i = j := by
    rw [← hindexed i first hi, hindex, hindexed j second hj]
  subst hsame
  exact Option.some.inj (hi.symm.trans hj)

/-- What the PE parser leaves true of every section and of their segments. -/
structure RvaSections (image : BinaryImage) : Prop where
  indexed : Indexed Section.index image.sections
  stored : ∀ item ∈ image.sections,
    item.fileSize.toNat ≤ item.memorySize.toNat
  offset : ∀ item ∈ image.sections,
    item.fileOffset.toNat + item.fileSize.toNat < 2 ^ 64
  segments : image.segments = image.sections.map segmentOf

theorem rvaSections_of_parsed {limits : Limits} {data : Bytes}
    (hparsed : Parsed limits data image) : RvaSections image := by
  have hcount := (PeFile.sectionCount data).toNat_lt
  have hsections : ∀ item ∈ image.sections, ∃ header : SectionHeader,
      ∃ index alignment, item = header.toSection index alignment := by
    intro item hitem
    rw [hparsed.sections] at hitem
    obtain ⟨i, _, rfl⟩ := List.mem_map.mp hitem
    exact ⟨_, _, _, rfl⟩
  refine ⟨indexed_of_ofNat ?_ ?_, ?_, ?_, hparsed.segments⟩
  · rw [hparsed.sections, List.length_map, List.length_range]
    omega
  · intro position item hitem
    rw [hparsed.sections, List.getElem?_map, Option.map_eq_some_iff] at hitem
    obtain ⟨i, hi, rfl⟩ := hitem
    rw [List.getElem?_eq_some_iff] at hi
    obtain ⟨_, hi⟩ := hi
    rw [List.getElem_range] at hi
    rw [← hi]
    rfl
  · intro item hitem
    obtain ⟨header, index, alignment, rfl⟩ := hsections item hitem
    exact (UInt32.toNat_toUInt64 _).trans_le (rawSize_le_memorySize header)
  · intro item hitem
    obtain ⟨header, index, alignment, rfl⟩ := hsections item hitem
    have hoffset := header.rawOffset.toNat_lt
    have hsize := header.rawSize.toNat_lt
    show header.rawOffset.toUInt64.toNat + header.rawSize.toUInt64.toNat < _
    rw [UInt32.toNat_toUInt64, UInt32.toNat_toUInt64]
    omega

/-- No section stores the request behind the image base, and the sum fits. -/
def NotTaken (image : BinaryImage) (rva length : UInt64) : Prop :=
  image.header.imageBase = 0 ∨
    (image.header.imageBase.toNat + rva.toNat < 2 ^ 64 ∧
      ∀ other ∈ image.sections,
        ¬(other.virtualAddress.toNat ≤
            image.header.imageBase.toNat + rva.toNat ∧
          image.header.imageBase.toNat + rva.toNat + length.toNat ≤
            other.virtualAddress.toNat + other.fileSize.toNat))

/-- The answer is the place of the RVA in its own section. -/
def OwnedBy (item : Section) (rva : UInt64) (place : FileAddress) : Prop :=
  place.fileOffset.toNat =
      item.fileOffset.toNat + (rva.toNat - item.virtualAddress.toNat) ∧
    place.sectionIndex = item.index

section Owner

variable {rva : UInt64} (hrvas : RvaSections image)
  (hapart : SpansApart image.sections Section.virtualAddress Section.memorySize)
  (hlength : 0 < length.toNat)

include hrvas

/-- A section that stores a request answers with the place inside its own file
range. -/
theorem sectionAnswer_owned {item : Section} (hmem : item ∈ image.sections)
    (hholds : holds item.virtualAddress item.fileSize address length = true) :
    ∃ place, sectionAnswer address length item = some place ∧
      OwnedBy item address place := by
  obtain ⟨hlow, hend⟩ := holds_iff.mp hholds
  have hoffset := hrvas.offset item hmem
  have hshift := UInt64.toNat_sub_of_le _ _ (UInt64.le_iff_toNat_le.mpr hlow)
  have hfit : item.fileOffset.toNat + (address - item.virtualAddress).toNat <
      2 ^ 64 := by
    omega
  refine ⟨_, sectionAnswer_of_stores hholds hfit, ?_, rfl⟩
  rw [toNat_add_of_fit hfit, hshift]

/-- Where no section stores a request, neither does a segment. -/
theorem virtualToFile_of_unstored
    (hnone : ∀ other ∈ image.sections,
      holds other.virtualAddress other.fileSize address length = false) :
    virtualToFile image address length = none := by
  apply virtualToFile_of_unanswered
  · rw [answeredBySegment, Bool.and_eq_false_iff]
    right
    rw [Option.isSome_eq_false_iff, Option.isNone_iff_eq_none,
      List.find?_eq_none]
    intro segment hsegment
    rw [hrvas.segments] at hsegment
    obtain ⟨other, hother, rfl⟩ := List.mem_map.mp hsegment
    exact Bool.eq_false_iff.mp (hnone other hother)
  · rw [virtualSection, Option.filter_eq_none_iff]
    intro other hother hstores
    have hholds := (Bool.and_eq_true_iff.mp hstores).1
    rw [hnone other (List.mem_of_find?_eq_some hother)] at hholds
    contradiction

include hapart hlength

/-- A request inside the stored part of a section finds it in both searches. -/
theorem searches_of_stores {item : Section} (hmem : item ∈ image.sections)
    (hholds : holds item.virtualAddress item.fileSize address length = true) :
    image.sections.find? (inMemory address length) = some item ∧
      image.sections.find? (fun other => holds other.virtualAddress
        other.fileSize address length) = some item := by
  have hwithin : ∀ other ∈ image.sections,
      holds other.virtualAddress other.fileSize address length = true →
        inMemory address length other = true := by
    intro other hother hstores
    have hstored := hrvas.stored other hother
    rw [holds_iff] at hstores
    rw [inMemory, holds_iff]
    omega
  have hpairs : image.sections.Pairwise fun first second =>
      ¬(inMemory address length first = true ∧
        inMemory address length second = true) :=
    hapart.not_both hlength
  refine ⟨find?_of_pairwise hpairs hmem (hwithin item hmem hholds),
    find?_of_pairwise ?_ hmem hholds⟩
  refine hpairs.imp_of_mem fun hfirst hsecond hapart hboth => ?_
  exact hapart ⟨hwithin _ hfirst hboth.1, hwithin _ hsecond hboth.2⟩

/-- The RVA of a byte of a section is translated by that section exactly when no
section stores the request behind the image base. -/
theorem rvaToFile_owned_iff {item : Section} (hmem : item ∈ image.sections)
    (hholds : holds item.virtualAddress item.fileSize rva length = true) :
    (∃ place, rvaToFile image rva length = some place ∧
      OwnedBy item rva place) ↔ NotTaken image rva length := by
  -- The second search always comes to the section itself.
  have hraw : ∃ place, (image.sections.findSome? (lookRva rva length)).join =
      some place ∧ OwnedBy item rva place := by
    rw [rawSearch_eq, (searches_of_stores hrvas hapart hlength hmem hholds).2]
    exact sectionAnswer_owned hrvas hmem hholds
  unfold rvaToFile NotTaken
  dsimp only
  by_cases hbase : image.header.imageBase = 0
  · rw [if_neg (not_not.mpr hbase)]
    exact ⟨fun _ => .inl hbase, fun _ => hraw⟩
  rw [if_pos hbase, or_iff_right hbase]
  cases hsum : checkedAdd image.header.imageBase rva with
  | none =>
      have hover := checkedAdd_eq_none.mp hsum
      constructor
      · rintro ⟨place, hplace, _⟩
        contradiction
      · rintro ⟨hfit, _⟩
        omega
  | some biased =>
      obtain ⟨hfit, rfl⟩ := checkedAdd_eq_some.mp hsum
      have hplace : (image.header.imageBase + rva).toNat =
          image.header.imageBase.toNat + rva.toNat := toNat_add_of_fit hfit
      dsimp only
      by_cases hnone : ∀ other ∈ image.sections, holds other.virtualAddress
          other.fileSize (image.header.imageBase + rva) length = false
      · rw [virtualToFile_of_unstored hrvas hnone]
        refine ⟨fun _ => ⟨hfit, fun other hother hstores => ?_⟩, fun _ => hraw⟩
        have hmissed := hnone other hother
        rw [← Bool.not_eq_true, holds_iff, hplace] at hmissed
        exact hmissed hstores
      · push Not at hnone
        obtain ⟨other, hother, hstores⟩ := hnone
        rw [Bool.ne_false_iff] at hstores
        obtain ⟨answer, hanswer, howned⟩ :=
          sectionAnswer_owned hrvas hother hstores
        rw [virtualToFile_of_section (searches_of_stores hrvas hapart hlength
          hother hstores).1, hanswer]
        constructor
        · rintro ⟨_, hfound, hitem⟩
          obtain rfl := Option.some.inj hfound
          -- The same section at another place of the file.
          obtain rfl := eq_of_indexed hrvas.indexed hother hmem
            (howned.2.symm.trans hitem.2)
          have hoffset := howned.1.symm.trans hitem.1
          have hlow := (holds_iff.mp hholds).1
          have hsome : image.header.imageBase.toNat ≠ 0 := fun hzero =>
            hbase (UInt64.toNat_inj.mp hzero)
          omega
        · rintro ⟨_, hfree⟩
          rw [holds_iff, hplace] at hstores
          exact absurd hstores (hfree other hother)

end Owner

/-- In an accepted PE file with disjoint sections. -/
theorem rva_to_own_section_iff {limits : Limits} {data : Bytes}
    (hparse : BinaryParser.parse limits data = .ok image)
    (hformat : BinaryParser.detect data = .peLike)
    (hapart : SpansApart image.sections Section.virtualAddress
      Section.memorySize)
    {item : Section} (hmem : item ∈ image.sections) {n r : UInt64}
    (hlength : 1 ≤ n) (hlow : item.virtualAddress ≤ r)
    (hinside : r.toNat + n.toNat ≤
      item.virtualAddress.toNat + item.fileSize.toNat) :
    (∃ place, rvaToFile image r n = some place ∧ OwnedBy item r place) ↔
      NotTaken image r n := by
  have hparsed := (BinaryParser.parse_ok hparse).2
  rw [hformat] at hparsed
  exact rvaToFile_owned_iff (rvaSections_of_parsed (PeParser.parse_ok hparsed))
    hapart (UInt64.le_iff_toNat_le.mp hlength) hmem
    (holds_iff.mpr ⟨UInt64.le_iff_toNat_le.mp hlow, hinside⟩)

/-- A file of two sections of one byte each, 64 KiB apart. -/
def twoByteFile (imageBase : UInt64) : Bytes :=
  [0x4d, 0x5a] ++ List.replicate 58 0 ++ u32Bytes 64 ++
    [0x50, 0x45, 0, 0, 0x64, 0x86, 2, 0] ++ List.replicate 12 0 ++
    [40, 0, 0, 0] ++ [0x0b, 0x02] ++ List.replicate 22 0 ++
    u64Bytes imageBase ++ u32Bytes 0x1000 ++ u32Bytes 0x200 ++
    ascii ".text" ++ List.replicate 3 0 ++
    [1, 0x1000, 1, 208, 0, 0, 0, 0].flatMap u32Bytes ++
    ascii ".data" ++ List.replicate 3 0 ++
    [1, 0x11000, 1, 209, 0, 0, 0, 0].flatMap u32Bytes ++ [0xa1, 0xb2, 0, 0x40]

/-- The RVA of the first section is answered by the second one. -/
theorem rva_to_foreign_section :
    ¬∀ limits data image item n r,
      BinaryParser.parse limits data = .ok image →
      BinaryParser.detect data = .peLike →
      SpansApart image.sections Section.virtualAddress Section.memorySize →
      item ∈ image.sections → 1 ≤ n → item.virtualAddress ≤ r →
      r.toNat + n.toNat ≤ item.virtualAddress.toNat + item.fileSize.toNat →
      ∃ place, rvaToFile image r n = some place ∧ OwnedBy item r place := by
  intro hall
  obtain ⟨image, hparse, hview⟩ := toOption_bind_eq_some.mp (by decide +kernel :
    (BinaryParser.parse {} (twoByteFile 0x10000)).toOption.bind (fun image =>
      some (decide (SpansApart image.sections Section.virtualAddress
          Section.memorySize),
        image.sections[0]?.map fun item =>
          (item.index, item.virtualAddress, item.fileSize),
        (rvaToFile image 0x1000 1).map FileAddress.sectionIndex)) =
      some (true, some (0, 0x1000, 1), some 1))
  simp only [Option.some.injEq, Prod.mk.injEq, decide_eq_true_eq] at hview
  obtain ⟨hapart, hitem, hanswer⟩ := hview
  obtain ⟨item, hitem, hfields⟩ := Option.map_eq_some_iff.mp hitem
  simp only [Prod.mk.injEq] at hfields
  obtain ⟨hindex, haddress, hsize⟩ := hfields
  obtain ⟨place, hplace, howned⟩ := hall {} _ image item 1 0x1000 hparse
    (by decide +kernel) hapart (List.mem_of_getElem? hitem) (by decide)
    (by rw [haddress]) (by rw [haddress, hsize])
  rw [hplace, Option.map_some, howned.2, hindex] at hanswer
  exact absurd hanswer (by decide)

theorem rva_to_own_section_iff_foreign :
    ∃ image, BinaryParser.parse {} (twoByteFile 0x10000) = .ok image ∧
      ∃ item ∈ image.sections,
        ((∃ place, rvaToFile image 0x1000 1 = some place ∧
            OwnedBy item 0x1000 place) ↔ NotTaken image 0x1000 1) := by
  obtain ⟨image, hparse, hview⟩ := toOption_bind_eq_some.mp (by decide +kernel :
    (BinaryParser.parse {} (twoByteFile 0x10000)).toOption.bind (fun image =>
      some (decide (SpansApart image.sections Section.virtualAddress
          Section.memorySize),
        image.sections[0]?.map fun item =>
          (item.virtualAddress, item.fileSize))) =
      some (true, some (0x1000, 1)))
  simp only [Option.some.injEq, Prod.mk.injEq, decide_eq_true_eq] at hview
  obtain ⟨hapart, hitem⟩ := hview
  obtain ⟨item, hitem, hfields⟩ := Option.map_eq_some_iff.mp hitem
  obtain ⟨haddress, hsize⟩ := Prod.mk.inj hfields
  have hmem := List.mem_of_getElem? hitem
  exact ⟨image, hparse, item, hmem, rva_to_own_section_iff hparse
    (by decide +kernel) hapart hmem (by decide) (by rw [haddress])
    (by rw [haddress, hsize])⟩

end AddressTranslator
end BinForge
