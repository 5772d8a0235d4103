import BinForge.Image

/-!
# The model validator

`BinaryValidator` re-checks an image against the limits and collects every
error it finds.  An image is valid when there is none, which is a conjunction
of one condition for each check.
-/

namespace BinForge

structure ValidationReport where
  valid : Bool := false
  fileBytesReferenced : UInt64 := 0
  virtualBytesReferenced : UInt64 := 0
  errors : List Error := []
  warnings : List Bytes := []
  deriving DecidableEq, Repr

namespace BinaryValidator

/-- One check: the error it pushes when `bad` holds. -/
def check (bad : Prop) [Decidable bad] (code : ErrorCode) (offset : UInt64)
    (message : Bytes) : List Error :=
  if bad then [⟨code, offset, message⟩] else []

def checkLimits (limits : Limits) (image : BinaryImage) (data : Bytes) :
    List Error :=
  check (data.length > limits.maxFileSize.toNat) .resourceLimit 0
      "file size limit" ++
    (check (image.sections.length > limits.maxSections.toNat) .resourceLimit 0
      "section count limit" ++
    (check (image.segments.length > limits.maxSegments.toNat) .resourceLimit 0
      "segment count limit" ++
    (check (image.symbols.length > limits.maxSymbols.toNat) .resourceLimit 0
      "symbol count limit" ++
    check (image.relocations.length > limits.maxRelocations.toNat)
      .resourceLimit 0 "relocation count limit")))

/-- Zero or not a power of two. -/
def badAlignment (alignment : UInt64) : Prop :=
  alignment = 0 ∨ alignment &&& (alignment - 1) ≠ 0

instance (alignment : UInt64) : Decidable (badAlignment alignment) :=
  inferInstanceAs (Decidable (_ ∨ _))

def checkSection (data : Bytes) (item : Section × ℕ) : List Error :=
  check (item.1.index.toNat ≠ item.2) .invalidSection (UInt64.ofNat item.2)
      "section index mismatch" ++
    (check (item.1.kind ≠ .noBits ∧
        rangeInside item.1.fileOffset.toNat item.1.fileSize.toNat
          data.length = false) .fileRangeOverflow item.1.fileOffset
      "section file range invalid" ++
    check (badAlignment item.1.alignment) .invalidAlignment item.1.fileOffset
      "section alignment invalid")

def checkSegment (data : Bytes) (segment : Segment) : List Error :=
  check (segment.fileSize > segment.memorySize ∨
      rangeInside segment.fileOffset.toNat segment.fileSize.toNat
        data.length = false) .invalidSegment segment.fileOffset
      "segment range invalid" ++
    check (checkedAdd segment.virtualAddress segment.memorySize = none)
      .addressOverflow segment.virtualAddress "segment virtual range overflow"

def checkSymbol (item : Symbol × ℕ) : List Error :=
  check (item.1.index.toNat ≠ item.2) .invalidSymbol (UInt64.ofNat item.2)
    "symbol index mismatch"

def checkRelocation (symbolCount : ℕ) (relocation : Relocation) : List Error :=
  check (relocation.symbolIndex.toNat ≥ symbolCount ∧
      relocation.symbolIndex ≠ 0) .invalidSymbol relocation.offset
    "relocation symbol out of range"

/-- A `checked_add` into its own first operand. -/
def addReferenced (total amount : UInt64) : UInt64 :=
  (checkedAdd total amount).getD total

def checkImage (limits : Limits) (image : BinaryImage) (data : Bytes) :
    List Error :=
  checkLimits limits image data ++
    (image.sections.zipIdx.flatMap (checkSection data) ++
    (image.segments.flatMap (checkSegment data) ++
    (image.symbols.zipIdx.flatMap checkSymbol ++
    image.relocations.flatMap (checkRelocation image.symbols.length))))

def validate (limits : Limits) (image : BinaryImage) : ValidationReport :=
  match image.fileData with
  | none =>
      { errors := [⟨.invalidHeader, 0, "image does not retain file bytes"⟩] }
  | some data =>
      let errors := checkImage limits image data
      { valid := errors.isEmpty
        fileBytesReferenced := image.sections.foldl
          (fun total item => addReferenced total item.fileSize) 0
        virtualBytesReferenced := image.sections.foldl
          (fun total item => addReferenced total item.memorySize) 0
        errors }

/-! ## What a valid image satisfies -/

/-- The position of each item is the index it carries. -/
def Indexed {α : Type} (index : α → UInt32) (items : List α) : Prop :=
  ∀ position item, items[position]? = some item →
    (index item).toNat = position

structure SectionValid (data : Bytes) (item : Section) : Prop where
  range : item.kind = .noBits ∨
    item.fileOffset.toNat + item.fileSize.toNat ≤ data.length
  alignment : ¬badAlignment item.alignment

structure SegmentValid (data : Bytes) (segment : Segment) : Prop where
  size : segment.fileSize ≤ segment.memorySize
  range : segment.fileOffset.toNat + segment.fileSize.toNat ≤ data.length
  bounded : segment.virtualAddress.toNat + segment.memorySize.toNat < 2 ^ 64

def RelocationValid (symbolCount : ℕ) (relocation : Relocation) : Prop :=
  relocation.symbolIndex.toNat < symbolCount ∨ relocation.symbolIndex = 0

structure Valid (limits : Limits) (image : BinaryImage) (data : Bytes) :
    Prop where
  fileSize : data.length ≤ limits.maxFileSize.toNat
  sectionCount : image.sections.length ≤ limits.maxSections.toNat
  segmentCount : image.segments.length ≤ limits.maxSegments.toNat
  symbolCount : image.symbols.length ≤ limits.maxSymbols.toNat
  relocationCount : image.relocations.length ≤ limits.maxRelocations.toNat
  sectionIndex : Indexed Section.index image.sections
  sections : ∀ item ∈ image.sections, SectionValid data item
  segments : ∀ segment ∈ image.segments, SegmentValid data segment
  symbolIndex : Indexed Symbol.index image.symbols
  relocations : ∀ relocation ∈ image.relocations,
    RelocationValid image.symbols.length relocation

theorem indexed_nil {α : Type} {index : α → UInt32} :
    Indexed index ([] : List α) :=
  fun _ _ hfound => absurd hfound (by simp)

theorem indexed_append {α : Type} {index : α → UInt32} {items : List α}
    {item : α} (hitems : Indexed index items)
    (hitem : (index item).toNat = items.length) :
    Indexed index (items ++ [item]) := by
  intro position found hfound
  rw [List.getElem?_append] at hfound
  split at hfound
  · exact hitems position found hfound
  · next hbeyond =>
      rw [List.getElem?_singleton] at hfound
      split at hfound
      · next hzero =>
          obtain rfl := Option.some.inj hfound
          omega
      · contradiction

theorem indexed_of_ofNat {α : Type} {index : α → UInt32} {items : List α}
    (hlength : items.length ≤ 2 ^ 32)
    (hitems : ∀ position item, items[position]? = some item →
      index item = UInt32.ofNat position) : Indexed index items := by
  intro position item hitem
  have hposition := (List.getElem?_eq_some_iff.mp hitem).1
  rw [hitems position item hitem]
  exact UInt32.toNat_ofNat_of_lt' (Nat.lt_of_lt_of_le hposition hlength)

theorem indexed_mapIdx {α β : Type} {index : β → UInt32} {f : ℕ → α → β}
    {items : List α} (hlength : items.length ≤ 2 ^ 32)
    (hindex : ∀ position item,
      index (f position item) = UInt32.ofNat position) :
    Indexed index (items.mapIdx f) := by
  refine indexed_of_ofNat (by rwa [List.length_mapIdx]) ?_
  intro position item hitem
  rw [List.getElem?_mapIdx, Option.map_eq_some_iff] at hitem
  obtain ⟨source, _, rfl⟩ := hitem
  exact hindex position source

@[simp] theorem check_eq_nil {bad : Prop} [Decidable bad] {code : ErrorCode}
    {offset : UInt64} {message : Bytes} :
    check bad code offset message = [] ↔ ¬bad := by
  unfold check
  split <;> simp_all

theorem checkSection_eq_nil {data : Bytes} {item : Section × ℕ} :
    checkSection data item = [] ↔
      item.1.index.toNat = item.2 ∧ SectionValid data item.1 := by
  simp only [checkSection, List.append_eq_nil_iff, check_eq_nil, not_and,
    not_not, rangeInside_eq_false, ← or_iff_not_imp_left]
  exact and_congr_right fun _ => ⟨fun h => ⟨h.1, h.2⟩, fun h => ⟨h.1, h.2⟩⟩

theorem checkSegment_eq_nil {data : Bytes} {segment : Segment} :
    checkSegment data segment = [] ↔ SegmentValid data segment := by
  simp only [checkSegment, List.append_eq_nil_iff, check_eq_nil, not_or,
    rangeInside_eq_false, checkedAdd_eq_none, not_le, not_lt, gt_iff_lt]
  exact ⟨fun h => ⟨h.1.1, h.1.2, h.2⟩, fun h => ⟨⟨h.1, h.2⟩, h.3⟩⟩

theorem checkRelocation_eq_nil {symbolCount : ℕ} {relocation : Relocation} :
    checkRelocation symbolCount relocation = [] ↔
      RelocationValid symbolCount relocation := by
  simp only [checkRelocation, check_eq_nil, RelocationValid, not_and, not_not,
    ge_iff_le]
  rw [← not_lt, or_iff_not_imp_left]

theorem forall_mem_zipIdx {α : Type} {items : List α} {p : α × ℕ → Prop} :
    (∀ item ∈ items.zipIdx, p item) ↔
      ∀ position item, items[position]? = some item → p (item, position) := by
  constructor
  · intro hall position item hitem
    exact hall (item, position) (List.mem_zipIdx_iff_getElem?.mpr hitem)
  · rintro hall ⟨item, position⟩ hitem
    exact hall position item (List.mem_zipIdx_iff_getElem?.mp hitem)

theorem checkLimits_eq_nil {limits : Limits} {image : BinaryImage}
    {data : Bytes} :
    checkLimits limits image data = [] ↔
      data.length ≤ limits.maxFileSize.toNat ∧
        image.sections.length ≤ limits.maxSections.toNat ∧
        image.segments.length ≤ limits.maxSegments.toNat ∧
        image.symbols.length ≤ limits.maxSymbols.toNat ∧
        image.relocations.length ≤ limits.maxRelocations.toNat := by
  simp [checkLimits, List.append_eq_nil_iff]

/-- The validator accepts exactly the valid images. -/
theorem validate_valid_iff {limits : Limits} {image : BinaryImage} :
    (validate limits image).valid = true ↔
      ∃ data, image.fileData = some data ∧ Valid limits image data := by
  unfold validate
  cases image.fileData with
  | none => simp
  | some data =>
      simp only [List.isEmpty_iff, checkImage, List.append_eq_nil_iff,
        List.flatMap_eq_nil_iff, forall_mem_zipIdx, checkLimits_eq_nil,
        checkSection_eq_nil, checkSegment_eq_nil, checkRelocation_eq_nil,
        checkSymbol, check_eq_nil, not_not, Option.some.injEq, exists_eq_left']
      constructor
      · rintro ⟨⟨hfile, hsections, hsegments, hsymbols, hrelocations⟩, hsection,
          hsegment, hsymbol, hrelocation⟩
        refine ⟨hfile, hsections, hsegments, hsymbols, hrelocations,
          fun position item hitem => (hsection position item hitem).1, ?_,
          hsegment, hsymbol, hrelocation⟩
        intro item hitem
        obtain ⟨position, hposition⟩ := List.mem_iff_getElem?.mp hitem
        exact (hsection position item hposition).2
      · intro h
        exact ⟨⟨h.fileSize, h.sectionCount, h.segmentCount, h.symbolCount,
          h.relocationCount⟩, fun position item hitem =>
            ⟨h.sectionIndex position item hitem,
              h.sections item (List.mem_of_getElem? hitem)⟩,
          h.segments, h.symbolIndex, h.relocations⟩

end BinaryValidator
end BinForge
