import BinForge.AddressTranslator
import BinForge.Validator

/-!
# Translated ranges and the file

The translator answers a request from the first section, or segment, whose
range holds it, and never compares that range with the file.  The validator
has compared all of them except the file ranges of sections without bits, so
an answer lies inside the file unless it comes from such a section.
-/

namespace BinForge

namespace AddressTranslator

/-- The request lies inside the range of `size` bytes at `start`. -/
def holds (start size address length : UInt64) : Bool :=
  start.toNat ≤ address.toNat &&
    address.toNat + length.toNat ≤ start.toNat + size.toNat

def inMemory (address length : UInt64) (item : Section) : Bool :=
  holds item.virtualAddress item.memorySize address length

/-- The section has file bytes for the request, at an offset that fits. -/
def stores (address length : UInt64) (item : Section) : Bool :=
  holds item.virtualAddress item.fileSize address length &&
    item.fileOffset.toNat + (address.toNat - item.virtualAddress.toNat) < 2 ^ 64

def inSegment (address length : UInt64) (segment : Segment) : Bool :=
  holds segment.virtualAddress segment.fileSize address length

/-- The section an address is translated by: the first one in memory there,
if it stores the request. -/
def virtualSection (image : BinaryImage) (address length : UInt64) :
    Option Section :=
  (image.sections.find? (inMemory address length)).filter
    (stores address length)

/-- A segment answers when no section is in memory there. -/
def answeredBySegment (image : BinaryImage) (address length : UInt64) : Bool :=
  (image.sections.find? (inMemory address length)).isNone &&
    (image.segments.find? (inSegment address length)).isSome

/-- The section whose file range holds the RVA first, if it stores it. -/
def rawSection (image : BinaryImage) (rva length : UInt64) : Option Section :=
  (image.sections.find? fun item =>
    holds item.virtualAddress item.fileSize rva length).filter
      (stores rva length)

/-- The section an RVA is translated by: that of the biased address, or the
raw one when nothing answers there. -/
def rvaSection (image : BinaryImage) (rva length : UInt64) : Option Section :=
  if image.header.imageBase = 0 then rawSection image rva length
  else if 2 ^ 64 ≤ image.header.imageBase.toNat + rva.toNat then none
  else if answeredBySegment image (image.header.imageBase + rva) length then none
  else
    virtualSection image (image.header.imageBase + rva) length <|>
      rawSection image rva length

/-- Both ranges a caller may read lie inside the file. -/
def Inside (data : Bytes) (length : UInt64) (place : FileAddress) : Prop :=
  place.fileOffset.toNat + length.toNat ≤ data.length ∧
    place.fileOffset.toNat + place.available.toNat ≤ data.length

/-- The file ranges of all sections and segments lie inside the file. -/
structure RangesInside (image : BinaryImage) (data : Bytes) : Prop where
  sections : ∀ item ∈ image.sections,
    item.fileOffset.toNat + item.fileSize.toNat ≤ data.length
  segments : ∀ segment ∈ image.segments,
    segment.fileOffset.toNat + segment.fileSize.toNat ≤ data.length

/-- The section is not one without bits that claims bytes beyond the file. -/
def Backed (data : Bytes) (item : Section) : Prop :=
  item.kind = .noBits →
    item.fileOffset.toNat + item.fileSize.toNat ≤ data.length

variable {image : BinaryImage} {data : Bytes} {limits : Limits}
  {start size address length rva : UInt64} {item : Section} {place : FileAddress}

/-! ## One range -/

theorem holds_iff :
    holds start size address length = true ↔
      start.toNat ≤ address.toNat ∧
        address.toNat + length.toNat ≤ start.toNat + size.toNat := by
  rw [holds, Bool.and_eq_true, decide_eq_true_eq, decide_eq_true_eq]

theorem not_holds_iff :
    holds start size address length = false ↔
      address < start ∨
        rangeInside (address - start).toNat length.toNat size.toNat = false := by
  rw [← Bool.not_eq_true, holds_iff, rangeInside_eq_false,
    UInt64.lt_iff_toNat_lt]
  by_cases hbelow : address.toNat < start.toNat
  · simp only [hbelow, true_or, iff_true]
    omega
  · rw [UInt64.toNat_sub_of_le _ _
      (UInt64.le_iff_toNat_le.mpr (not_lt.mp hbelow))]
    omega

theorem rangeInside_of_holds
    (hholds : holds start size address length = true) :
    ¬address < start ∧
      rangeInside (address - start).toNat length.toNat size.toNat ≠ false := by
  rw [← not_or, ← not_holds_iff, Bool.not_eq_false]
  exact hholds

/-- The two refusals in front of an answer are one test. -/
theorem guarded_eq_ite {α : Type} (start size address length : UInt64)
    (answer : Option α) :
    (if address < start then none
      else if rangeInside (address - start).toNat length.toNat size.toNat =
        false then none
      else answer) =
      if holds start size address length then answer else none := by
  by_cases hholds : holds start size address length
  · obtain ⟨hbelow, hrange⟩ := rangeInside_of_holds hholds
    rw [if_pos hholds, if_neg hbelow, if_neg hrange]
  · rw [if_neg hholds]
    rcases not_holds_iff.mp (Bool.not_eq_true _ ▸ hholds) with hbelow | hrange
    · rw [if_pos hbelow]
    · rw [if_pos hrange, ite_self]

theorem fileAddress_eq_some {offset displacement : UInt64} {index : UInt32} :
    fileAddress offset size displacement index = some place ↔
      offset.toNat + displacement.toNat < 2 ^ 64 ∧
        place = { fileOffset := offset + displacement,
                  available := size - displacement, sectionIndex := index } := by
  rw [fileAddress, Option.map_eq_some_iff]
  constructor
  · rintro ⟨sum, hsum, rfl⟩
    obtain ⟨hfit, rfl⟩ := checkedAdd_eq_some.mp hsum
    exact ⟨hfit, rfl⟩
  · rintro ⟨hfit, rfl⟩
    exact ⟨_, checkedAdd_of_fit hfit, rfl⟩

theorem inside_iff {offset : UInt64} {index : UInt32}
    (hholds : holds start size address length = true)
    (hplace : fileAddress offset size (address - start) index = some place) :
    Inside data length place ↔ offset.toNat + size.toNat ≤ data.length := by
  obtain ⟨hfit, rfl⟩ := fileAddress_eq_some.mp hplace
  obtain ⟨hbelow, hend⟩ := holds_iff.mp hholds
  have hshift := UInt64.toNat_sub_of_le _ _ (UInt64.le_iff_toNat_le.mpr hbelow)
  have hwithin : address - start ≤ size := by
    rw [UInt64.le_iff_toNat_le, hshift]
    omega
  rw [Inside, toNat_add_of_fit hfit, UInt64.toNat_sub_of_le _ _ hwithin, hshift]
  omega

/-! ## The loops

Each of the three loops stops at the first item whose reach holds the request
and answers from its stored range if that holds the request too. -/

def answerFrom (start offset size : UInt64) (index : UInt32)
    (address length : UInt64) : Option FileAddress :=
  if holds start size address length then
    fileAddress offset size (address - start) index
  else none

/-- What one item of `reach` and `size` bytes says about a request. -/
def lookRange (start reach offset size : UInt64) (index : UInt32)
    (address length : UInt64) : Option (Option FileAddress) :=
  if holds start reach address length then
    some (answerFrom start offset size index address length)
  else none

theorem lookSection_eq (item : Section) :
    lookSection address length item =
      lookRange item.virtualAddress item.memorySize item.fileOffset
        item.fileSize item.index address length := by
  refine (guarded_eq_ite ..).trans ?_
  unfold lookRange
  by_cases hreach : holds item.virtualAddress item.memorySize address length
  · obtain ⟨hbelow, -⟩ := rangeInside_of_holds hreach
    rw [if_pos hreach, if_pos hreach, answerFrom]
    by_cases hstored : holds item.virtualAddress item.fileSize address length
    · rw [if_pos hstored, if_neg (rangeInside_of_holds hstored).2]
    · have hout := not_holds_iff.mp (Bool.not_eq_true _ ▸ hstored)
      rw [if_neg hstored, if_pos (hout.resolve_left hbelow)]
  · rw [if_neg hreach, if_neg hreach]

theorem lookStored_eq {offset : UInt64} {index : UInt32} :
    (if address < start then none
      else if rangeInside (address - start).toNat length.toNat size.toNat =
        false then none
      else some (fileAddress offset size (address - start) index)) =
      lookRange start size offset size index address length := by
  rw [guarded_eq_ite, lookRange, answerFrom]
  split
  · rfl
  · rfl

theorem lookSegment_eq (segment : Segment) :
    lookSegment address length segment =
      lookRange segment.virtualAddress segment.fileSize segment.fileOffset
        segment.fileSize 0xffffffff address length :=
  lookStored_eq

theorem lookRva_eq (item : Section) :
    lookRva rva length item =
      lookRange item.virtualAddress item.fileSize item.fileOffset
        item.fileSize item.index rva length :=
  lookStored_eq

/-- A search for what the first item with a property says. -/
theorem findSome?_ite {α β : Type} (found : α → Bool) (view : α → β)
    (items : List α) :
    items.findSome? (fun item => if found item then some (view item) else none) =
      (items.find? found).map view := by
  induction items with
  | nil => rfl
  | cons item items ih =>
      rw [List.findSome?_cons, List.find?_cons, ih]
      cases found item <;> rfl

/-- Such a search stops at the first item in reach. -/
theorem findSome?_lookRange {α : Type} {start reach offset size : α → UInt64}
    {index : α → UInt32} (items : List α) :
    items.findSome? (fun item => lookRange (start item) (reach item)
        (offset item) (size item) (index item) address length) =
      (items.find? fun item =>
        holds (start item) (reach item) address length).map fun item =>
          answerFrom (start item) (offset item) (size item) (index item) address
            length :=
  findSome?_ite (fun item => holds (start item) (reach item) address length) _
    items

/-- A section's answer to a request. -/
def sectionAnswer (address length : UInt64) (item : Section) :
    Option FileAddress :=
  answerFrom item.virtualAddress item.fileOffset item.fileSize item.index
    address length

theorem virtualToFile_eq (image : BinaryImage) (address length : UInt64) :
    virtualToFile image address length =
      ((image.sections.find? (inMemory address length)).map
          (sectionAnswer address length) <|>
        (image.segments.find? (inSegment address length)).map fun segment =>
          answerFrom segment.virtualAddress segment.fileOffset
            segment.fileSize 0xffffffff address length).join := by
  rw [virtualToFile, funext lookSection_eq, funext lookSegment_eq,
    findSome?_lookRange, findSome?_lookRange]
  rfl

theorem rawSearch_eq (image : BinaryImage) (rva length : UInt64) :
    (image.sections.findSome? (lookRva rva length)).join =
      (image.sections.find? fun item =>
        holds item.virtualAddress item.fileSize rva length).bind
          (sectionAnswer rva length) := by
  rw [funext lookRva_eq, findSome?_lookRange]
  cases image.sections.find? _ <;> rfl

/-! ## Where an answer lies -/

/-- The section answers exactly when it stores the request. -/
theorem sectionAnswer_isSome (address length : UInt64) (item : Section) :
    (sectionAnswer address length item).isSome = stores address length item := by
  unfold sectionAnswer answerFrom stores
  cases hholds : holds item.virtualAddress item.fileSize address length with
  | false => rfl
  | true =>
      have hshift := UInt64.toNat_sub_of_le _ _
        (UInt64.le_iff_toNat_le.mpr (holds_iff.mp hholds).1)
      rw [if_pos rfl, Bool.true_and, Bool.eq_iff_iff, decide_eq_true_eq,
        ← hshift, Option.isSome_iff_exists]
      constructor
      · rintro ⟨place, hplace⟩
        exact (fileAddress_eq_some.mp hplace).1
      · intro hfit
        exact ⟨_, fileAddress_eq_some.mpr ⟨hfit, rfl⟩⟩

theorem answerFrom_inside {offset : UInt64} {index : UInt32}
    (hplace : answerFrom start offset size index address length = some place) :
    Inside data length place ↔ offset.toNat + size.toNat ≤ data.length := by
  unfold answerFrom at hplace
  split at hplace
  · next hholds => exact inside_iff hholds hplace
  · contradiction

/-- The result comes from `source`, or lies inside the file anyway. -/
structure AnsweredBy (data : Bytes) (length : UInt64) (source : Option Section)
    (result : Option FileAddress) : Prop where
  bySource : ∀ item, source = some item → ∃ place, result = some place ∧
    (Inside data length place ↔
      item.fileOffset.toNat + item.fileSize.toNat ≤ data.length)
  otherwise : source = none → ∀ place, result = some place →
    Inside data length place

theorem answeredBy_filter (found : Option Section) :
    AnsweredBy data length (found.filter (stores address length))
      (found.bind (sectionAnswer address length)) := by
  cases found with
  | none => exact ⟨by simp, by simp⟩
  | some item =>
      rw [Option.bind_some]
      have hstores := sectionAnswer_isSome address length item
      cases hanswer : sectionAnswer address length item with
      | none =>
          rw [hanswer, Option.isSome_none] at hstores
          rw [Option.filter_some_neg hstores.symm]
          exact ⟨by simp, by simp⟩
      | some place =>
          rw [hanswer, Option.isSome_some] at hstores
          rw [Option.filter_some_pos hstores.symm]
          refine ⟨?_, by simp⟩
          rintro _ ⟨⟩
          exact ⟨place, rfl, answerFrom_inside hanswer⟩

theorem segmentAnswer_inside
    (hsegments : ∀ segment ∈ image.segments,
      segment.fileOffset.toNat + segment.fileSize.toNat ≤ data.length)
    (hplace : ((image.segments.find? (inSegment address length)).map
      fun segment => answerFrom segment.virtualAddress segment.fileOffset
        segment.fileSize 0xffffffff address length).join = some place) :
    Inside data length place := by
  cases hfound : image.segments.find? (inSegment address length) with
  | none =>
      rw [hfound] at hplace
      contradiction
  | some segment =>
      rw [hfound] at hplace
      exact (answerFrom_inside hplace).mpr
        (hsegments segment (List.mem_of_find?_eq_some hfound))

theorem virtualToFile_inside (hranges : RangesInside image data)
    (hplace : virtualToFile image address length = some place) :
    Inside data length place := by
  rw [virtualToFile_eq] at hplace
  cases hfound : image.sections.find? (inMemory address length) with
  | none =>
      rw [hfound] at hplace
      exact segmentAnswer_inside hranges.segments hplace
  | some item =>
      rw [hfound] at hplace
      exact (answerFrom_inside hplace).mpr
        (hranges.sections item (List.mem_of_find?_eq_some hfound))

theorem rvaToFile_inside (hranges : RangesInside image data)
    (hplace : rvaToFile image rva length = some place) :
    Inside data length place := by
  have hraw (hplace : (image.sections.findSome? (lookRva rva length)).join =
      some place) : Inside data length place := by
    rw [rawSearch_eq] at hplace
    obtain ⟨item, hfound, hanswer⟩ := Option.bind_eq_some_iff.mp hplace
    exact (answerFrom_inside hanswer).mpr
      (hranges.sections item (List.mem_of_find?_eq_some hfound))
  unfold rvaToFile at hplace
  dsimp only at hplace
  split at hplace
  · split at hplace
    · contradiction
    · rcases (Option.orElse_eq_some _ _ _).mp hplace with hvirtual | ⟨-, hplace⟩
      · exact virtualToFile_inside hranges hvirtual
      · exact hraw hplace
  · exact hraw hplace

open BinaryValidator

/-- In a valid image an address is answered by its section or from inside the
file. -/
theorem virtualToFile_answeredBy
    (hsegments : ∀ segment ∈ image.segments, SegmentValid data segment) :
    AnsweredBy data length (virtualSection image address length)
      (virtualToFile image address length) := by
  rw [virtualToFile_eq, virtualSection]
  cases hfound : image.sections.find? (inMemory address length) with
  | none =>
      exact ⟨by simp, fun _ place => segmentAnswer_inside
        fun segment hmem => (hsegments segment hmem).range⟩
  | some item => exact answeredBy_filter (some item)

theorem virtualToFile_of_answeredBySegment
    (hanswered : answeredBySegment image address length = true) :
    virtualSection image address length = none ∧
      ∃ segment ∈ image.segments,
        holds segment.virtualAddress segment.fileSize address length = true ∧
        virtualToFile image address length =
          fileAddress segment.fileOffset segment.fileSize
            (address - segment.virtualAddress) 0xffffffff := by
  obtain ⟨hnone, hany⟩ := Bool.and_eq_true_iff.mp hanswered
  rw [Option.isNone_iff_eq_none] at hnone
  rw [Option.isSome_iff_exists] at hany
  obtain ⟨segment, hfound⟩ := hany
  have hholds := List.find?_some hfound
  rw [inSegment] at hholds
  refine ⟨by rw [virtualSection, hnone]; rfl, segment,
    List.mem_of_find?_eq_some hfound, hholds, ?_⟩
  rw [virtualToFile_eq, hnone, hfound]
  exact if_pos hholds

theorem virtualToFile_of_unanswered
    (hsegment : answeredBySegment image address length = false)
    (hsection : virtualSection image address length = none) :
    virtualToFile image address length = none := by
  rw [virtualToFile_eq]
  unfold virtualSection at hsection
  unfold answeredBySegment at hsegment
  cases hfound : image.sections.find? (inMemory address length) with
  | none =>
      rw [hfound, Option.isNone_none, Bool.true_and,
        Option.isSome_eq_false_iff, Option.isNone_iff_eq_none] at hsegment
      rw [hsegment]
      rfl
  | some item =>
      rw [hfound, Option.filter_some_eq_none, ← sectionAnswer_isSome,
        Option.not_isSome_iff_eq_none] at hsection
      exact hsection

theorem fileAddress_of_valid (hbound : data.length < 2 ^ 64) {segment : Segment}
    (hsegment : SegmentValid data segment)
    (hholds : holds segment.virtualAddress segment.fileSize address length =
      true) (index : UInt32) :
    ∃ place, fileAddress segment.fileOffset segment.fileSize
      (address - segment.virtualAddress) index = some place := by
  obtain ⟨hbelow, hend⟩ := holds_iff.mp hholds
  have hrange := hsegment.range
  have hshift := UInt64.toNat_sub_of_le _ _ (UInt64.le_iff_toNat_le.mpr hbelow)
  exact ⟨_, fileAddress_eq_some.mpr ⟨by omega, rfl⟩⟩

/-- In a valid image an RVA is answered by its section or from inside the
file. -/
theorem rvaToFile_answeredBy (hbound : data.length < 2 ^ 64)
    (hsegments : ∀ segment ∈ image.segments, SegmentValid data segment) :
    AnsweredBy data length (rvaSection image rva length)
      (rvaToFile image rva length) := by
  have hraw : AnsweredBy data length (rawSection image rva length)
      (image.sections.findSome? (lookRva rva length)).join := by
    rw [rawSearch_eq]
    exact answeredBy_filter _
  unfold rvaToFile rvaSection
  dsimp only
  by_cases hbase : image.header.imageBase = 0
  · rw [if_pos hbase, if_neg (not_not.mpr hbase)]
    exact hraw
  rw [if_neg hbase, if_pos hbase]
  cases hsum : checkedAdd image.header.imageBase rva with
  | none =>
      rw [if_pos (checkedAdd_eq_none.mp hsum)]
      exact ⟨by simp, by simp⟩
  | some biased =>
      obtain ⟨hfit, rfl⟩ := checkedAdd_eq_some.mp hsum
      rw [if_neg (not_le.mpr hfit)]
      have hvirtual : AnsweredBy data length
          (virtualSection image (image.header.imageBase + rva) length)
          (virtualToFile image (image.header.imageBase + rva) length) :=
        virtualToFile_answeredBy hsegments
      cases hsegment : answeredBySegment image
          (image.header.imageBase + rva) length with
      | true =>
          obtain ⟨hnone, segment, hmem, hholds, hanswer⟩ :=
            virtualToFile_of_answeredBySegment hsegment
          obtain ⟨place, hplace⟩ := fileAddress_of_valid hbound
            (hsegments segment hmem) hholds 0xffffffff
          rw [← hanswer] at hplace
          rw [if_pos rfl]
          dsimp only
          rw [hplace]
          refine ⟨by simp, ?_⟩
          rintro - _ ⟨⟩
          exact hvirtual.otherwise hnone _ hplace
      | false =>
          rw [if_neg Bool.false_ne_true]
          cases hsection : virtualSection image
              (image.header.imageBase + rva) length with
          | none =>
              dsimp only
              rw [virtualToFile_of_unanswered hsegment hsection]
              exact hraw
          | some item =>
              obtain ⟨place, hplace, hinside⟩ := hvirtual.bySource item hsection
              dsimp only
              rw [hplace]
              refine ⟨?_, by simp⟩
              rintro _ ⟨⟩
              exact ⟨place, rfl, hinside⟩

/-! ## Exactly the unbacked sections without bits are the exception -/

theorem mem_of_virtualSection
    (hsection : virtualSection image address length = some item) :
    item ∈ image.sections :=
  List.mem_of_find?_eq_some (Option.filter_eq_some_iff.mp hsection).1

theorem mem_of_rvaSection (hsection : rvaSection image rva length = some item) :
    item ∈ image.sections := by
  have hraw : rawSection image rva length = some item → item ∈ image.sections :=
    fun h => List.mem_of_find?_eq_some (Option.filter_eq_some_iff.mp h).1
  unfold rvaSection at hsection
  split at hsection
  · exact hraw hsection
  · split at hsection
    · contradiction
    · split at hsection
      · contradiction
      · cases h : virtualSection image (image.header.imageBase + rva) length with
        | none =>
            rw [h] at hsection
            exact hraw hsection
        | some found =>
            rw [h] at hsection
            obtain rfl := Option.some.inj hsection
            exact mem_of_virtualSection h

theorem AnsweredBy.inside_iff {source : Option Section}
    {result : Option FileAddress}
    (hanswered : AnsweredBy data length source result)
    (hsource : ∀ item, source = some item → SectionValid data item) :
    (∀ place, result = some place → Inside data length place) ↔
      ∀ item, source = some item → Backed data item := by
  constructor
  · intro hall item hitem _
    obtain ⟨place, hplace, hinside⟩ := hanswered.bySource item hitem
    exact hinside.mp (hall place hplace)
  · intro hbacked place hplace
    cases hcase : source with
    | none => exact hanswered.otherwise hcase place hplace
    | some item =>
        obtain ⟨other, hother, hinside⟩ := hanswered.bySource item hcase
        obtain rfl := Option.some.inj (hplace.symm.trans hother)
        exact hinside.mpr ((hsource item hcase).range.elim
          (hbacked item hcase) id)

/-- For a valid image, what a translation returns lies inside the file exactly
when the section that answers is not one without bits that claims bytes beyond
the file. -/
theorem translation_inside_iff
    (hvalid : (validate limits image).valid = true)
    (hdata : image.fileData = some data) (address length : UInt64) :
    ((∀ place, virtualToFile image address length = some place →
        Inside data length place) ↔
      ∀ item, virtualSection image address length = some item →
        Backed data item) ∧
    ((∀ place, rvaToFile image address length = some place →
        Inside data length place) ↔
      ∀ item, rvaSection image address length = some item →
        Backed data item) := by
  obtain ⟨found, hfound, hvalid⟩ := validate_valid_iff.mp hvalid
  obtain rfl := Option.some.inj (hdata.symm.trans hfound)
  have hlimit := limits.maxFileSize.toNat_lt
  have hbound : data.length < 2 ^ 64 := by
    have hsize := hvalid.fileSize
    omega
  exact ⟨(virtualToFile_answeredBy hvalid.segments).inside_iff
      fun item hitem => hvalid.sections item (mem_of_virtualSection hitem),
    (rvaToFile_answeredBy hbound hvalid.segments).inside_iff
      fun item hitem => hvalid.sections item (mem_of_rvaSection hitem)⟩

/-- A section without bits that claims a megabyte of a four-byte file. -/
def unbackedImage : BinaryImage :=
  { sections := [{ kind := .noBits, fileSize := 0x100000,
                   virtualAddress := 0x1000, memorySize := 0x100000 }]
    fileData := some [1, 2, 3, 4] }

theorem translation_leaves_file :
    (validate {} unbackedImage).valid = true ∧
      ¬∀ address length place,
        (virtualToFile unbackedImage address length = some place ∨
          rvaToFile unbackedImage address length = some place) →
        Inside [1, 2, 3, 4] length place := by
  refine ⟨by decide +kernel, fun hall => ?_⟩
  have hplace : rvaToFile unbackedImage 0x1000 0x1000 =
      some { fileOffset := 0, available := 0x100000, sectionIndex := 0 } := by
    decide +kernel
  have hinside := (hall _ _ _ (Or.inr hplace)).1
  revert hinside
  decide

theorem translation_inside_iff_unbacked :
    ((∀ place, virtualToFile unbackedImage 0x1000 4 = some place →
        Inside [1, 2, 3, 4] 4 place) ↔
      ∀ item, virtualSection unbackedImage 0x1000 4 = some item →
        Backed [1, 2, 3, 4] item) ∧
    ((∀ place, rvaToFile unbackedImage 0x1000 4 = some place →
        Inside [1, 2, 3, 4] 4 place) ↔
      ∀ item, rvaSection unbackedImage 0x1000 4 = some item →
        Backed [1, 2, 3, 4] item) :=
  translation_inside_iff (by decide +kernel :
    (validate {} unbackedImage).valid = true) rfl 0x1000 4

end AddressTranslator
end BinForge
