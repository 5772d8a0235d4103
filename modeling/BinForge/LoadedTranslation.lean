import BinForge.Unloading
import BinForge.SectionTranslation
import BinForge.PeLoading

/-!
# Where loaded bytes come from

The loader copies segments into memory, and the translator finds the file bytes
of an address in the section table first.  Where the two tables agree, what is
loaded at an address is what the translator finds for it.  The tables of a PE
file agree once it is loaded.
-/

namespace BinForge

open StatefulExcept
open ListSplice
open AddressSpace

namespace AddressTranslator

variable {image : BinaryImage} {data : Bytes} {item : Section}
  {segment : Segment} {start offset size address length : UInt64}
  {place : FileAddress}

/-! ## The bytes a table entry stores -/

/-- Where the file keeps the byte of an address in a stored range. -/
def storedAt (start offset size : UInt64) (address : ℕ) : Option ℕ :=
  if start.toNat ≤ address ∧ address < start.toNat + size.toNat then
    some (offset.toNat + (address - start.toNat))
  else none

def sectionByte (item : Section) (address : ℕ) : Option ℕ :=
  storedAt item.virtualAddress item.fileOffset item.fileSize address

def segmentByte (segment : Segment) (address : ℕ) : Option ℕ :=
  storedAt segment.virtualAddress segment.fileOffset segment.fileSize address

def SectionOccupies (item : Section) (address : ℕ) : Prop :=
  item.virtualAddress.toNat ≤ address ∧
    address < item.virtualAddress.toNat + item.memorySize.toNat

def SegmentOccupies (segment : Segment) (address : ℕ) : Prop :=
  segment.virtualAddress.toNat ≤ address ∧
    address < segment.virtualAddress.toNat + segment.memorySize.toNat

/-- Where both occupy memory they store the same byte of the file, or none. -/
def Agree (item : Section) (segment : Segment) : Prop :=
  ∀ address, SectionOccupies item address → SegmentOccupies segment address →
    sectionByte item address = segmentByte segment address

theorem storedAt_of_answer {index : UInt32}
    (hplace : answerFrom start offset size index address length = some place)
    {i : ℕ} (hi : i < length.toNat) :
    storedAt start offset size (address.toNat + i) =
      some (place.fileOffset.toNat + i) := by
  unfold answerFrom at hplace
  split at hplace
  · next hholds =>
      obtain ⟨hfit, rfl⟩ := fileAddress_eq_some.mp hplace
      obtain ⟨hbelow, hend⟩ := holds_iff.mp hholds
      rw [UInt64.toNat_sub_of_le _ _ (UInt64.le_iff_toNat_le.mpr hbelow)] at hfit
      rw [storedAt, if_pos (by omega), toNat_add_of_fit, UInt64.toNat_sub_of_le
        _ _ (UInt64.le_iff_toNat_le.mpr hbelow)]
      · congr 1
        omega
      · rwa [UInt64.toNat_sub_of_le _ _ (UInt64.le_iff_toNat_le.mpr hbelow)]
  · contradiction

/-- Without an answer for one byte there is no byte in the file, unless its
offset does not fit. -/
theorem storedAt_of_unanswered {index : UInt32}
    (hnone : answerFrom start offset size index address 1 = none) {found : ℕ}
    (hstored : storedAt start offset size address.toNat = some found) :
    2 ^ 64 ≤ found := by
  unfold storedAt at hstored
  split at hstored
  · next hinside =>
      obtain rfl := Option.some.inj hstored
      have hshift := UInt64.toNat_sub_of_le _ _
        (UInt64.le_iff_toNat_le.mpr hinside.1)
      have hholds : holds start size address 1 = true :=
        holds_iff.mpr ⟨hinside.1, by
          rw [show (1 : UInt64).toNat = 1 from rfl]
          omega⟩
      by_contra hlarge
      have hfit : offset.toNat + (address - start).toNat < 2 ^ 64 := by
        rw [hshift]
        exact not_le.mp hlarge
      rw [answerFrom, if_pos hholds,
        fileAddress_eq_some.mpr ⟨hfit, rfl⟩] at hnone
      contradiction
  · contradiction

/-! ## Answers of the translator -/

section Answers

variable (hsegments : ∀ other ∈ image.segments,
    BinaryValidator.SegmentValid data other)
  (hagree : ∀ item ∈ image.sections, Agree item segment)

include hsegments hagree

/-- The file bytes the translator finds are those the segment stores. -/
theorem segmentByte_of_answer
    (halone : ∀ other ∈ image.segments, ∀ address,
      SegmentOccupies other address → SegmentOccupies segment address →
        other = segment)
    (hinside : holds segment.virtualAddress segment.memorySize address length =
      true)
    (hplace : virtualToFile image address length = some place) {i : ℕ}
    (hi : i < length.toNat) :
    segmentByte segment (address.toNat + i) =
      some (place.fileOffset.toNat + i) := by
  obtain ⟨hlow, hhigh⟩ := holds_iff.mp hinside
  have hoccupied : SegmentOccupies segment (address.toNat + i) := by
    unfold SegmentOccupies
    omega
  rw [virtualToFile_eq] at hplace
  cases hsection : image.sections.find? (inMemory address length) with
  | some item =>
      rw [hsection] at hplace
      have hholds : inMemory address length item = true :=
        List.find?_some hsection
      obtain ⟨hstart, hstop⟩ := holds_iff.mp hholds
      rw [← hagree item (List.mem_of_find?_eq_some hsection) _
        (by unfold SectionOccupies; omega) hoccupied]
      exact storedAt_of_answer hplace hi
  | none =>
      rw [hsection] at hplace
      cases hfound : image.segments.find? (inSegment address length) with
      | some other =>
          rw [hfound] at hplace
          have hmem := List.mem_of_find?_eq_some hfound
          have hholds : inSegment address length other = true :=
            List.find?_some hfound
          obtain ⟨hstart, hstop⟩ := holds_iff.mp hholds
          have hsize := UInt64.le_iff_toNat_le.mp (hsegments other hmem).size
          obtain rfl := halone other hmem _ (by unfold SegmentOccupies; omega)
            hoccupied
          exact storedAt_of_answer hplace hi
      | none =>
          rw [hfound] at hplace
          contradiction

/-- Where the translator finds nothing, the segment stores nothing. -/
theorem segmentByte_of_unanswered (hbound : data.length < 2 ^ 64)
    (hsegment : segment ∈ image.segments)
    (hinside : SegmentOccupies segment address.toNat)
    (hnone : virtualToFile image address 1 = none) :
    segmentByte segment address.toNat = none := by
  have hone : (1 : UInt64).toNat = 1 := rfl
  by_contra hstored
  obtain ⟨found, hfound⟩ := Option.ne_none_iff_exists'.mp hstored
  have hrange : segment.virtualAddress.toNat ≤ address.toNat ∧
      address.toNat < segment.virtualAddress.toNat + segment.fileSize.toNat := by
    by_contra hout
    rw [segmentByte, storedAt, if_neg hout] at hfound
    contradiction
  -- A stored byte lies inside the file, so its offset fits.
  have hsmall : found < 2 ^ 64 := by
    have hfile := (hsegments segment hsegment).range
    rw [segmentByte, storedAt, if_pos hrange] at hfound
    obtain rfl := Option.some.inj hfound
    omega
  rw [virtualToFile_eq] at hnone
  cases hsection : image.sections.find? (inMemory address 1) with
  | some item =>
      rw [hsection] at hnone
      have hholds : inMemory address 1 item = true := List.find?_some hsection
      obtain ⟨hstart, hstop⟩ := holds_iff.mp hholds
      rw [← hagree item (List.mem_of_find?_eq_some hsection) _
        (by unfold SectionOccupies; omega) hinside] at hfound
      exact absurd (storedAt_of_unanswered hnone hfound) (not_le.mpr hsmall)
  | none =>
      rw [hsection] at hnone
      have hholds : inSegment address 1 segment = true :=
        holds_iff.mpr ⟨hrange.1, by omega⟩
      cases hother : image.segments.find? (inSegment address 1) with
      | none => exact List.find?_eq_none.mp hother segment hsegment hholds
      | some other =>
          rw [hother] at hnone
          have hfits : inSegment address 1 other = true :=
            List.find?_some hother
          obtain ⟨place, hplace⟩ := fileAddress_of_valid hbound
            (hsegments other (List.mem_of_find?_eq_some hother)) hfits
            0xffffffff
          have hanswer : answerFrom other.virtualAddress other.fileOffset
              other.fileSize 0xffffffff address 1 = none := hnone
          rw [inSegment] at hfits
          rw [answerFrom, if_pos hfits, hplace] at hanswer
          contradiction

end Answers

end AddressTranslator

/-! ## Bytes of a loaded image -/

namespace BinaryLoader

open AddressTranslator

variable {limits : Limits} {image : BinaryImage} {options : LoadOptions}
  {resolver : Option SymbolResolver} {data : Bytes} {bias : UInt64}
  {memory middle next : AddressSpace} {result : LoadResult}
  {segment other : Segment}

/-- The stores of relocations and imports, none where they cannot be made. -/
def patchStores (image : BinaryImage) (options : LoadOptions)
    (resolver : Option SymbolResolver) : List Store :=
  (relocationStores image options resolver).toOption.getD [] ++
    (importStores image options resolver).toOption.getD []

/-- No relocation and no import is written to the range. -/
def Untouched (image : BinaryImage) (options : LoadOptions)
    (resolver : Option SymbolResolver) (address length : ℕ) : Prop :=
  ∀ store ∈ patchStores image options resolver,
    address + length ≤ store.target.toNat ∨
      store.target.toNat + store.bytes.length ≤ address

instance (address length : ℕ) :
    Decidable (Untouched image options resolver address length) :=
  inferInstanceAs (Decidable (∀ store ∈ _, _))

/-- The segments of a load, and what is stored over them. -/
theorem contents_of_load (hmemory : memory.WellFormed)
    (hdata : image.fileData = some data)
    (hrun : load limits image options resolver memory = .ok result next) :
    ∃ middle relocated bound, BinaryValidator.Valid limits image data ∧
      loadSegments limits image options (loadBias image options)
        image.segments memory = .ok result.mappedBytes middle ∧
      relocationStores image options resolver = .ok relocated ∧
      importStores image options resolver = .ok bound ∧
      next.contents =
        middle.contents.storeAll ((relocated ++ bound).map Store.cells) := by
  obtain ⟨hvalid, middle, second, hsegments, hrelocate, hbind, -⟩ :=
    load_eq_ok hrun
  obtain ⟨found, hfound, hvalid⟩ := BinaryValidator.validate_valid_iff.mp hvalid
  obtain rfl := Option.some.inj (hdata.symm.trans hfound)
  obtain ⟨relocated, hrelocations, hfirst, -⟩ :=
    (relocateStage_eq_stores hvalid.relocationCount).mp hrelocate
  obtain ⟨bound, himports, hlast, -⟩ := importStage_eq_stores.mp hbind
  obtain ⟨hextends, -, -⟩ :=
    loadSegments_ok hmemory hdata hvalid.segments hsegments
  obtain ⟨hsecond, -, hcontents⟩ := hfirst.meaning hextends.wellFormed
  obtain ⟨-, -, hfinal⟩ := hlast.meaning hsecond
  refine ⟨middle, relocated, bound, hvalid, hsegments, hrelocations, himports,
    ?_⟩
  rw [hfinal, hcontents, ← CellMemory.storeAll_append, ← List.map_append]

theorem contents_of_untouched (hmemory : memory.WellFormed)
    (hdata : image.fileData = some data)
    (hrun : load limits image options resolver memory = .ok result next) :
    ∃ middle, BinaryValidator.Valid limits image data ∧
      loadSegments limits image options (loadBias image options)
        image.segments memory = .ok result.mappedBytes middle ∧
      ∀ target, Untouched image options resolver target 1 →
        next.contents target = middle.contents target := by
  obtain ⟨middle, relocated, bound, hvalid, hsegments, hrelocations, himports,
    hcontents⟩ := contents_of_load hmemory hdata hrun
  have hstores : patchStores image options resolver = relocated ++ bound := by
    rw [patchStores, hrelocations, himports]
    rfl
  refine ⟨middle, hvalid, hsegments, fun target huntouched => ?_⟩
  rw [hcontents, ← hstores]
  refine CellMemory.storeAll_outside fun cells hcells => ?_
  obtain ⟨store, hstore, rfl⟩ := List.mem_map.mp hcells
  exact (huntouched store hstore).imp Nat.succ_le_iff.mp id

/-- The pages of a segment are around everything it occupies. -/
theorem region_covers {address base size : UInt64}
    (hpages : segmentPages limits bias segment = .ok (address, base, size))
    {target : ℕ} (hoccupied : SegmentOccupies segment target) :
    base.toNat ≤ target + bias.toNat ∧
      target + bias.toNat < base.toNat + size.toNat := by
  have hplace := segmentPages_ok hpages
  have hlow := hplace.base_le
  have hhigh := hplace.end_le
  have hshifted := hplace.shifted
  unfold SegmentOccupies at hoccupied
  omega

/-- Segments loaded together do not share an address. -/
theorem eq_of_occupied (hmemory : memory.WellFormed)
    (hdata : image.fileData = some data) {segments : List Segment}
    (hsegments : ∀ segment ∈ segments,
      BinaryValidator.SegmentValid data segment) {mapped : UInt64}
    (hrun : loadSegments limits image options bias segments memory =
      .ok mapped middle)
    (hother : other ∈ segments) (hsegment : segment ∈ segments) {target : ℕ}
    (hleft : SegmentOccupies other target)
    (hright : SegmentOccupies segment target) : other = segment := by
  obtain ⟨hextends, -, hpages⟩ :=
    loadSegments_ok hmemory hdata hsegments hrun
  have hapart := (addable_of_extends hmemory hextends).apart
  rw [segmentRegions, List.pairwise_filterMap] at hapart
  have hnonempty : ∀ {one : Segment}, SegmentOccupies one target →
      one.memorySize ≠ 0 := by
    rintro one ⟨hlow, hhigh⟩ hzero
    rw [hzero] at hhigh
    exact absurd hhigh (not_lt.mpr hlow)
  by_contra hdistinct
  have hnever : segments.Pairwise fun one two =>
      ¬(SegmentOccupies one target ∧ SegmentOccupies two target) := by
    refine hapart.imp_of_mem ?_
    rintro one two hone htwo hregions ⟨hfirst, hsecond⟩
    obtain ⟨_, base, size, hpage⟩ := hpages one hone (hnonempty hfirst)
    obtain ⟨_, start, length, hpage'⟩ := hpages two htwo (hnonempty hsecond)
    have hcovers := region_covers hpage hfirst
    have hcovers' := region_covers hpage' hsecond
    have hmissed : base.toNat + size.toNat ≤ start.toNat ∨
        start.toNat + length.toNat ≤ base.toNat := hregions
      (loadedRegion options data one _ base size)
      (by rw [segmentRegion, if_neg (hnonempty hfirst), hpage])
      (loadedRegion options data two _ start length)
      (by rw [segmentRegion, if_neg (hnonempty hsecond), hpage'])
    omega
  have hsymm : Std.Symm fun one two : Segment =>
      ¬(SegmentOccupies one target ∧ SegmentOccupies two target) :=
    ⟨fun _ _ hnot hboth => hnot hboth.symm⟩
  exact hnever.forall hother hsegment hdistinct ⟨hleft, hright⟩

theorem segmentByte_lt (hsegment : BinaryValidator.SegmentValid data segment)
    {target found : ℕ} (hfound : segmentByte segment target = some found) :
    found < data.length := by
  have hrange := hsegment.range
  unfold segmentByte storedAt at hfound
  split at hfound
  · obtain rfl := Option.some.inj hfound
    omega
  · contradiction

theorem contents_of_segmentByte
    (hloaded : SegmentLoaded limits bias data segment memory) {target : ℕ}
    (hoccupied : SegmentOccupies segment target) :
    memory.contents (target + bias.toNat) =
      (segmentByte segment target).elim (some 0) (data[·]?) := by
  obtain ⟨hlow, hhigh⟩ := hoccupied
  have hbyte := hloaded.bytes (target - segment.virtualAddress.toNat) (by omega)
  rw [show segment.virtualAddress.toNat + bias.toNat +
      (target - segment.virtualAddress.toNat) = target + bias.toNat by omega]
    at hbyte
  rw [hbyte, segmentByte, storedAt]
  by_cases hstored :
      target < segment.virtualAddress.toNat + segment.fileSize.toNat
  · rw [if_pos (by omega), if_pos ⟨hlow, hstored⟩]
    rfl
  · rw [if_neg (by omega), if_neg fun hinside => hstored hinside.2]
    rfl

/-- What is loaded for a range of the image is what the translator finds for
it: the bytes at the file offset it answers, and zero where it has no answer
for a byte. -/
structure Shows (image : BinaryImage) (data : Bytes) (bias : UInt64)
    (memory : AddressSpace) (address length : UInt64) : Prop where
  stored : ∀ place, virtualToFile image address length = some place →
    memory.contents.load (address.toNat + bias.toNat) length.toNat =
      slice data place.fileOffset.toNat length.toNat
  zero : length = 1 → virtualToFile image address length = none →
    memory.contents (address.toNat + bias.toNat) = some 0

/-- Where the sections agree with a segment, a load shows the segment as the
translator finds it, whatever the options, apart from the places relocations
and imports are written to. -/
theorem shows_of_agree (hmemory : memory.WellFormed)
    (hdata : image.fileData = some data)
    (hrun : load limits image options resolver memory = .ok result next)
    (hsegment : segment ∈ image.segments)
    (hagree : ∀ item ∈ image.sections, Agree item segment)
    {address length : UInt64}
    (hinside : holds segment.virtualAddress segment.memorySize address length =
      true)
    (huntouched : Untouched image options resolver
      (address.toNat + (loadBias image options).toNat) length.toNat) :
    Shows image data (loadBias image options) next address length := by
  obtain ⟨middle, hvalid, hsegments, hsame⟩ :=
    contents_of_untouched hmemory hdata hrun
  obtain ⟨hlow, hhigh⟩ := holds_iff.mp hinside
  have hbound : data.length < 2 ^ 64 :=
    hvalid.fileSize.trans_lt limits.maxFileSize.toNat_lt
  have hoccupied : ∀ i < length.toNat,
      SegmentOccupies segment (address.toNat + i) := by
    intro i hi
    unfold SegmentOccupies
    omega
  have hbyte : ∀ i < length.toNat,
      next.contents (address.toNat + (loadBias image options).toNat + i) =
        (segmentByte segment (address.toNat + i)).elim (some 0) (data[·]?) := by
    intro i hi
    have hnonempty : segment.memorySize ≠ 0 := by
      intro hzero
      rw [hzero, show (0 : UInt64).toNat = 0 from rfl] at hhigh
      omega
    rw [hsame, show address.toNat + (loadBias image options).toNat + i =
      address.toNat + i + (loadBias image options).toNat by omega]
    · exact contents_of_segmentByte (segmentLoaded_of_loadSegments hmemory hdata
        hvalid.segments hsegments hsegment hnonempty) (hoccupied i hi)
    · intro store hstore
      have hapart := huntouched store hstore
      omega
  constructor
  · intro place hplace
    have hfound : ∀ i < length.toNat, segmentByte segment (address.toNat + i) =
        some (place.fileOffset.toNat + i) := fun i =>
      segmentByte_of_answer hvalid.segments hagree (fun other hother target =>
        eq_of_occupied hmemory hdata hvalid.segments hsegments hother hsegment)
          hinside hplace
    rcases Nat.eq_zero_or_pos length.toNat with hempty | hpos
    · rw [hempty]
      rfl
    have hlast := segmentByte_lt (hvalid.segments segment hsegment)
      (hfound (length.toNat - 1) (by omega))
    have hlength : (slice data place.fileOffset.toNat length.toNat).length =
        length.toNat := slice_length (by omega)
    have hload := @CellMemory.load_eq _ next.contents
      (address.toNat + (loadBias image options).toNat)
      (slice data place.fileOffset.toNat length.toNat) (by
        intro i hi
        rw [hlength] at hi
        rw [hbyte i hi, hfound i hi, slice_getElem?, if_pos hi]
        rfl)
    rwa [hlength] at hload
  · rintro rfl hnone
    have hfirst := hbyte 0 Nat.one_pos
    rw [Nat.add_zero, Nat.add_zero, segmentByte_of_unanswered hvalid.segments
      hagree hbound hsegment (hoccupied 0 Nat.one_pos) hnone] at hfirst
    exact hfirst

/-- In every image whose sections agree with its segments, a load shows the
segments as the translator finds them. -/
theorem load_as_translated (hmemory : memory.Reachable)
    (hdata : image.fileData = some data)
    (hrun : load limits image options resolver memory = .ok result next)
    (hagree : ∀ item ∈ image.sections, ∀ segment ∈ image.segments,
      Agree item segment)
    (hsegment : segment ∈ image.segments) {address length : UInt64}
    (hinside : holds segment.virtualAddress segment.memorySize address length =
      true)
    (huntouched : Untouched image options resolver
      (address.toNat + (loadBias image options).toNat) length.toNat) :
    Shows image data (loadBias image options) next address length :=
  shows_of_agree hmemory.wellFormed hdata hrun hsegment
    (fun item hitem => hagree item hitem segment hsegment) hinside huntouched

/-- A section inside a segment, beside a relocated pointer. -/
theorem load_as_translated_beside_pointer :
    let image : BinaryImage :=
      { fileData := some [1, 2, 3, 4]
        sections := [{ index := 0, fileOffset := 1, fileSize := 2,
                       virtualAddress := 0x1001, memorySize := 2 }]
        segments := [{ index := 0, fileSize := 4, virtualAddress := 0x1000,
                       memorySize := 32 }]
        relocations := [{ kind := .relative64, offset := 0x1008 }] }
    let options : LoadOptions := { preferredBase := 0x3000 }
    ∃ result next, load { pageSize := 16 } image options none (new {}) =
        .ok result next ∧
      Shows image [1, 2, 3, 4] (loadBias image options) next 0x1001 2 := by
  intro image options
  obtain ⟨result, next, hrun⟩ := succeeded_iff.mp (by decide +kernel :
    succeeded (load { pageSize := 16 } image options none (new {})) = true)
  have hagree : ∀ item ∈ image.sections, ∀ segment ∈ image.segments,
      Agree item segment := by
    intro item hitem segment hsegment address hoccupied _
    obtain rfl := List.mem_singleton.mp hitem
    obtain rfl := List.mem_singleton.mp hsegment
    simp only [SectionOccupies, UInt64.reduceToNat] at hoccupied
    simp only [sectionByte, segmentByte, storedAt, UInt64.reduceToNat]
    rw [if_pos (by omega), if_pos (by omega)]
    refine congrArg some ?_
    omega
  exact ⟨result, next, hrun, load_as_translated ⟨{}, [], rfl⟩ rfl hrun hagree
    List.mem_cons_self (by decide +kernel) (by decide +kernel)⟩

end BinaryLoader

/-! ## Loaded PE files -/

namespace PeParser

open AddressTranslator
open BinaryLoader

variable {limits parserLimits : Limits} {image : BinaryImage}
  {options : LoadOptions} {resolver : Option SymbolResolver} {data : Bytes}
  {memory next : AddressSpace} {result : LoadResult} {item : Section}

/-- The sections of a PE file agree with the segments of its loaded image. -/
theorem agree_of_loaded (hmemory : memory.WellFormed)
    (hparsed : Parsed parserLimits data image)
    (hrun : load limits image options resolver memory = .ok result next)
    (hitem : item ∈ image.sections) {segment : Segment}
    (hsegment : segment ∈ image.segments) : Agree item segment := by
  obtain ⟨middle, hvalid, hsegments, -⟩ :=
    contents_of_untouched hmemory hparsed.fileData hrun
  intro address hoccupied hother
  have hown : segmentOf item ∈ image.segments := by
    rw [hparsed.segments]
    exact List.mem_map_of_mem hitem
  have hoccupied : SegmentOccupies (segmentOf item) address := hoccupied
  obtain rfl := eq_of_occupied hmemory hparsed.fileData hvalid.segments
    hsegments hown hsegment hoccupied hother
  rfl

/-- Every section of a loaded PE file is in memory as the translator finds it
in the file, apart from the places relocations and imports are written to. -/
theorem load_shows_sections (hmemory : memory.Reachable)
    (hparse : parse parserLimits data = .ok image)
    (hrun : load limits image options resolver memory = .ok result next)
    (hitem : item ∈ image.sections) {address length : UInt64}
    (hinside : inMemory address length item = true)
    (huntouched : Untouched image options resolver
      (address.toNat + (loadBias image options).toNat) length.toNat) :
    Shows image data (loadBias image options) next address length := by
  have hparsed := parse_ok hparse
  have hown : segmentOf item ∈ image.segments := by
    rw [hparsed.segments]
    exact List.mem_map_of_mem hitem
  exact shows_of_agree hmemory.wellFormed hparsed.fileData hrun hown
    (fun other hother => agree_of_loaded hmemory.wellFormed hparsed hrun hother
      hown) hinside huntouched

theorem load_shows_sections_two :
    ∃ image, parse {} (twoByteFile 0x10000) = .ok image ∧
      ∃ result next, load smallPages image quietOptions none
          (AddressSpace.new {}) = .ok result next ∧
        ∃ item ∈ image.sections, Shows image (twoByteFile 0x10000)
          (loadBias image quietOptions) next item.virtualAddress 1 := by
  obtain ⟨image, hparse, hview⟩ := toOption_bind_eq_some.mp (by decide +kernel :
    (parse {} (twoByteFile 0x10000)).toOption.bind (fun image =>
      some (succeeded (load smallPages image quietOptions none
          (AddressSpace.new {})),
        decide (patchStores image quietOptions none = []),
        image.sections[1]?.map fun item =>
          inMemory item.virtualAddress 1 item)) =
      some (true, true, some true))
  simp only [Option.some.injEq, Prod.mk.injEq, decide_eq_true_eq] at hview
  obtain ⟨hload, hstores, hitem⟩ := hview
  obtain ⟨result, next, hrun⟩ := succeeded_iff.mp hload
  obtain ⟨item, hitem, hinside⟩ := Option.map_eq_some_iff.mp hitem
  have hmem := List.mem_of_getElem? hitem
  refine ⟨image, hparse, result, next, hrun, item, hmem,
    load_shows_sections ⟨{}, [], rfl⟩ hparse hrun hmem hinside ?_⟩
  unfold Untouched
  rw [hstores]
  exact fun store hstore => absurd hstore List.not_mem_nil

end PeParser
end BinForge
