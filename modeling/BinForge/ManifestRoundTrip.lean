import BinForge.Manifest

/-!
# Manifest round trip

Each record is read back by the same sequence of fields that wrote it, so the
tables, the body and the container are read back too.  What the decoder checks
on the way is exactly what a valid image within the limits satisfies.
-/

namespace BinForge

open StatefulExcept
open StreamCodec
open ListSplice
open ByteReader

namespace ImageManifestCodec

/-- A string the format has room for and the decoder accepts. -/
def TextFits (limits : Limits) (value : Bytes) : Prop :=
  value.length ≤ limits.maxStringBytes.toNat ∧ value.length < 2 ^ 32

instance (limits : Limits) (value : Bytes) : Decidable (TextFits limits value) :=
  inferInstanceAs (Decidable (_ ∧ _))

variable {limits : Limits}

/-! ## Fields -/

theorem readText_consumes {value : Bytes} (hfits : TextFits limits value) :
    Consumes LittleAhead 0 (readText limits.maxStringBytes) (text value)
      value := by
  have hsize : (UInt32.ofNat value.length).toNat = value.length :=
    UInt32.toNat_ofNat_of_lt' hfits.2
  refine (readU32_consumes _).bind (Consumes.rejectIf ?_ ?_)
  · rw [gt_iff_lt, UInt64.lt_iff_toNat_lt, UInt32.toNat_toUInt64, hsize]
    exact not_lt.mpr hfits.1
  · refine Consumes.rejectIf_state ?_ (by rw [hsize]; exact readBytes_consumes _)
    intro cursor tail _ hahead
    rw [hahead.remaining, hsize, List.length_append]
    omega

theorem flag_ne_zero (value : Bool) : (flag value != 0) = value := by
  cases value <;> rfl

theorem decodeHeader_consumes (header : FileHeader) :
    Consumes LittleAhead 0 decodeHeader (encodeHeader header) header := by
  have hformat : BinaryFormat.ofByte? header.format.toByte =
      some header.format := by
    cases header.format <;> rfl
  have hword : WordSize.ofByte? header.wordSize.toByte =
      some header.wordSize := by
    cases header.wordSize <;> rfl
  have horder : ByteOrder.ofByte? header.byteOrder.toByte =
      some header.byteOrder := by
    cases header.byteOrder <;> rfl
  refine (readU8_consumes _).bind ((readU8_consumes _).bind
    ((readU8_consumes _).bind ((readU8_consumes _).bind
    ((readU8_consumes _).bind ((readU64_consumes _).bind
    ((readU64_consumes _).bind ((readU64_consumes _).bind
    ((readU64_consumes _).bind ((readU32_consumes _).bind
    ((readU32_consumes _).bind ((readU32_consumes _).bind_last ?_)))))))))))
  rw [hformat, hword, horder, ByteCoded.ofByte_toByte, ByteCoded.ofByte_toByte]
  exact Consumes.pure header

/-! ## Records -/

theorem decodeSectionFields_consumes (options : ManifestOptions) (data : Bytes)
    {item : Section} (hname : TextFits limits item.name) :
    Consumes LittleAhead 0 (decodeSectionFields limits)
      (encodeSection options data item)
      (item, sectionChecksum options data item) := by
  refine (readU32_consumes _).bind ((readText_consumes hname).bind
    ((readU8_consumes _).bind ((readU64_consumes _).bind
    ((readU64_consumes _).bind ((readU64_consumes _).bind
    ((readU64_consumes _).bind ((readU64_consumes _).bind
    ((readU64_consumes _).bind ((readU32_consumes _).bind
    ((readU32_consumes _).bind ((readU8_consumes _).bind
    ((readU32_consumes _).bind_last ?_))))))))))))
  rw [ByteCoded.ofByte_toByte]
  exact Consumes.pure _

theorem decodeSection_consumes (options : ManifestOptions) (data : Bytes)
    {item : Section} (hname : TextFits limits item.name) :
    Consumes LittleAhead 0 (decodeSection limits data)
      (encodeSection options data item) item := by
  refine ((decodeSectionFields_consumes options data hname).adaptError
    _).bind_last (Consumes.rejectIf ?_ (Consumes.pure item))
  -- A nonzero stored checksum is the checksum of the section's file range.
  rintro ⟨hstored, hsize, hrange, hdiffers⟩
  unfold sectionChecksum at hstored hdiffers
  split at hstored
  · rename_i hsummed
    rw [if_pos hsummed] at hdiffers
    exact hdiffers rfl
  · exact hstored rfl

theorem decodeSectionReference_consumes {sectionCount : ℕ} {value : UInt32}
    (hvalue : value.toNat < sectionCount) :
    Consumes LittleAhead 0 (decodeSectionReference sectionCount)
      (u32Bytes value) value :=
  (readU32_consumes value).bind_last
    (Consumes.rejectIf (not_le.mpr hvalue) (Consumes.pure value))

/-- What the decoder requires of a segment's section list. -/
structure SegmentFits (limits : Limits) (sectionCount : ℕ) (segment : Segment) :
    Prop where
  count : segment.sections.length ≤ limits.maxSections.toNat
  inside : ∀ value ∈ segment.sections, value.toNat < sectionCount

theorem count_toNat {count : ℕ} {limit : UInt32} (hcount : count ≤ limit.toNat) :
    (UInt32.ofNat count).toNat = count := by
  have hlimit := limit.toNat_lt
  have hlt : count < 2 ^ 32 := by omega
  exact UInt32.toNat_ofNat_of_lt' hlt

theorem count_not_gt {count : ℕ} {limit : UInt32}
    (hcount : count ≤ limit.toNat) : ¬UInt32.ofNat count > limit := by
  rw [gt_iff_lt, UInt32.lt_iff_toNat_lt, count_toNat hcount]
  exact not_lt.mpr hcount

theorem decodeSegment_consumes {sectionCount : ℕ} {segment : Segment}
    (hfits : SegmentFits limits sectionCount segment) :
    Consumes LittleAhead 0 (decodeSegment limits sectionCount)
      (encodeSegment segment) segment := by
  have hsections := Consumes.collect id fun value hvalue =>
    decodeSectionReference_consumes (hfits.inside value hvalue)
  rw [List.map_id, ← count_toNat hfits.count] at hsections
  exact (readU32_consumes _).bind ((readU64_consumes _).bind
    ((readU64_consumes _).bind ((readU64_consumes _).bind
    ((readU64_consumes _).bind ((readU64_consumes _).bind
    ((readU8_consumes _).bind ((readU32_consumes _).bind
    (Consumes.rejectIf (count_not_gt hfits.count)
      (hsections.bind_last (Consumes.pure segment))))))))))

theorem decodeSymbol_consumes {symbol : Symbol}
    (hname : TextFits limits symbol.name)
    (hlibrary : TextFits limits symbol.library) :
    Consumes LittleAhead 0 (decodeSymbol limits) (encodeSymbol symbol)
      symbol := by
  refine (readU32_consumes _).bind ((readText_consumes hname).bind
    ((readU8_consumes _).bind ((readU8_consumes _).bind
    ((readU32_consumes _).bind ((readU64_consumes _).bind
    ((readU64_consumes _).bind ((readU8_consumes _).bind
    ((readText_consumes hlibrary).bind_last ?_))))))))
  rw [ByteCoded.ofByte_toByte, ByteCoded.ofByte_toByte]
  exact Consumes.pure symbol

theorem decodeRelocation_consumes (relocation : Relocation) :
    Consumes LittleAhead 0 decodeRelocation (encodeRelocation relocation)
      relocation := by
  refine (readU32_consumes _).bind ((readU8_consumes _).bind
    ((readU32_consumes _).bind ((readU32_consumes _).bind
    ((readU64_consumes _).bind ((readI64_consumes _).bind
    ((readU8_consumes _).bind_last ?_))))))
  rw [ByteCoded.ofByte_toByte]
  exact Consumes.pure relocation

theorem decodeImport_consumes {imported : Import}
    (hlibrary : TextFits limits imported.library)
    (hname : TextFits limits imported.name) :
    Consumes LittleAhead 0 (decodeImport limits) (encodeImport imported)
      imported := by
  refine (readText_consumes hlibrary).bind ((readText_consumes hname).bind
    ((readU64_consumes _).bind ((readU64_consumes _).bind
    ((readU8_consumes _).bind_last ?_))))
  rw [flag_ne_zero]
  exact Consumes.pure imported

theorem decodeExport_consumes {exported : Export}
    (hname : TextFits limits exported.name)
    (htarget : TextFits limits exported.forwardTarget) :
    Consumes LittleAhead 0 (decodeExport limits) (encodeExport exported)
      exported := by
  refine (readText_consumes hname).bind ((readU64_consumes _).bind
    ((readU64_consumes _).bind ((readU8_consumes _).bind
    ((readText_consumes htarget).bind_last ?_))))
  rw [flag_ne_zero]
  exact Consumes.pure exported

def debugSummary (unit : DebugUnit) : DebugUnit :=
  { offset := unit.offset
    length := unit.length
    version := unit.version
    addressSize := unit.addressSize }

theorem decodeDebugUnit_consumes (unit : DebugUnit) :
    Consumes LittleAhead 0 decodeDebugUnit (encodeDebugUnit unit)
      (debugSummary unit) := by
  refine (readU64_consumes _).bind ((readU64_consumes _).bind
    ((readU32_consumes _).bind ((readU8_consumes _).bind
    ((readU32_consumes _).bind ((readU32_consumes _).bind
    ((readU32_consumes _).bind_last ?_))))))
  rw [UInt16.toUInt16_toUInt32]
  exact Consumes.pure _

/-! ## Tables and the body -/

theorem decodeTable_consumes {α : Type} (view : α → α) {limit : UInt32}
    {record : DecodeCall α} {write : α → Bytes} {items : List α}
    (hcount : items.length ≤ limit.toNat)
    (hrecord : ∀ item ∈ items,
      Consumes LittleAhead 0 record (write item) (view item)) :
    Consumes LittleAhead 0 (decodeTable limit record)
      (encodeTable write items) (items.map view) := by
  have hitems := Consumes.collect view hrecord
  rw [← count_toNat hcount] at hitems
  refine Consumes.bind (Consumes.adaptError _ ?_) hitems
  exact (readU32_consumes _).bind_last
    (Consumes.rejectIf (count_not_gt hcount) (Consumes.pure _))

theorem decodeTable_consumes_id {α : Type} {limit : UInt32}
    {record : DecodeCall α} {write : α → Bytes} {items : List α}
    (hcount : items.length ≤ limit.toNat)
    (hrecord : ∀ item ∈ items,
      Consumes LittleAhead 0 record (write item) item) :
    Consumes LittleAhead 0 (decodeTable limit record)
      (encodeTable write items) items := by
  have htable := decodeTable_consumes id hcount hrecord
  rwa [List.map_id] at htable

theorem decodePreamble_consumes (options : ManifestOptions)
    (header : FileHeader) :
    Consumes LittleAhead 0 decodePreamble
      (u32Bytes 1 ++ (u32Bytes (optionFlags options) ++ encodeHeader header))
      header :=
  ((readU32_consumes 1).bind (Consumes.rejectIf (not_not.mpr rfl)
    ((readU32_consumes _).bind (decodeHeader_consumes header)))).adaptError _

theorem decodeFile_consumes {data : Bytes}
    (hsize : data.length ≤ limits.maxFileSize.toNat) :
    Consumes LittleAhead 0 (decodeFile limits)
      (u64Bytes (UInt64.ofNat data.length) ++ data) data := by
  have hlimit := limits.maxFileSize.toNat_lt
  have hlt : data.length < 2 ^ 64 := by omega
  have hlength : (UInt64.ofNat data.length).toNat = data.length :=
    UInt64.toNat_ofNat_of_lt' hlt
  have hbytes := (readBytes_consumes data).adaptError
    (fun _ _ => Failure.silent)
  rw [← hlength] at hbytes
  refine Consumes.bind_room data.length (Consumes.adaptError _ ?_) le_rfl hbytes
  rw [← List.append_nil (u64Bytes _)]
  refine (readU64_consumes _).bind (Consumes.rejectIf ?_
    (Consumes.rejectIf_state ?_ (Consumes.pure _)))
  · rw [gt_iff_lt, UInt64.lt_iff_toNat_lt, hlength]
    exact not_lt.mpr hsize
  · intro cursor tail htail hahead
    rw [hahead.remaining, hlength]
    exact not_lt.mpr htail

def imageTexts (image : BinaryImage) : List Bytes :=
  image.sections.map Section.name ++
    (image.symbols.flatMap fun symbol => [symbol.name, symbol.library]) ++
    (image.imports.flatMap fun imported => [imported.library, imported.name]) ++
    image.exports.flatMap fun exported =>
      [exported.name, exported.forwardTarget]

/-- The sizes the format and the decoder's limits have room for, beyond what
the validator checks. -/
structure Encodable (limits : Limits) (image : BinaryImage) : Prop where
  texts : ∀ value ∈ imageTexts image, TextFits limits value
  imports : image.imports.length ≤ limits.maxImports.toNat
  exports : image.exports.length ≤ limits.maxExports.toNat
  debugUnits : image.debugUnits.length ≤ limits.maxDebugUnits.toNat
  segments : ∀ segment ∈ image.segments,
    SegmentFits limits image.sections.length segment

/-- What a decoder makes of the image's manifest. -/
def manifestImage (image : BinaryImage) (data : Bytes) : BinaryImage :=
  { image with
    debugUnits := image.debugUnits.map debugSummary
    warnings := []
    fileData := some data }

/-- The image with the tables emptied that the options leave out. -/
def selectedImage (options : ManifestOptions) (image : BinaryImage) :
    BinaryImage :=
  { image with
    symbols := included options.includeSymbols image.symbols
    relocations := included options.includeRelocations image.relocations
    imports := included options.includeImports image.imports
    exports := included options.includeExports image.exports
    debugUnits := included options.includeDebugSummary image.debugUnits }

theorem mem_of_mem_included {α : Type} {selected : Bool} {items : List α}
    {item : α} (hitem : item ∈ included selected items) : item ∈ items := by
  cases selected
  · simp [included] at hitem
  · exact hitem

theorem included_length_le {α : Type} (selected : Bool) (items : List α) :
    (included selected items).length ≤ items.length := by
  cases selected <;> simp [included]

theorem decodeBody_consumes {image : BinaryImage} {data : Bytes}
    (options : ManifestOptions)
    (hvalid : BinaryValidator.Valid limits image data)
    (hfits : Encodable limits image) :
    Consumes LittleAhead 0 (decodeBody limits) (encodeBody options image data)
      (manifestImage (selectedImage options image) data) := by
  have htexts := hfits.texts
  simp only [imageTexts, List.forall_mem_append, List.forall_mem_map,
    List.forall_mem_flatMap, List.forall_mem_cons] at htexts
  obtain ⟨⟨⟨hsections, hsymbols⟩, himports⟩, hexports⟩ := htexts
  have hbody : encodeBody options image data =
      (u32Bytes 1 ++ (u32Bytes (optionFlags options) ++
        encodeHeader image.header)) ++
      ((u64Bytes (UInt64.ofNat data.length) ++ data) ++
      (encodeTable (encodeSection options data) image.sections ++
      (encodeTable encodeSegment image.segments ++
      (encodeTable encodeSymbol
        (included options.includeSymbols image.symbols) ++
      (encodeTable encodeRelocation
        (included options.includeRelocations image.relocations) ++
      (encodeTable encodeImport
        (included options.includeImports image.imports) ++
      (encodeTable encodeExport
        (included options.includeExports image.exports) ++
      encodeTable encodeDebugUnit
        (included options.includeDebugSummary image.debugUnits)))))))) := by
    simp only [encodeBody, List.append_assoc]
  rw [hbody]
  refine (decodePreamble_consumes options image.header).bind
    ((decodeFile_consumes hvalid.fileSize).bind
    ((decodeTable_consumes_id hvalid.sectionCount fun item hitem =>
      decodeSection_consumes options data (hsections item hitem)).bind
    ((decodeTable_consumes_id hvalid.segmentCount fun segment hsegment =>
      (decodeSegment_consumes (hfits.segments segment hsegment)).adaptError
        _).bind
    ((decodeTable_consumes_id
      ((included_length_le ..).trans hvalid.symbolCount)
      fun symbol hsymbol =>
        have htext := hsymbols symbol (mem_of_mem_included hsymbol)
        (decodeSymbol_consumes htext.1 htext.2.1).adaptError _).bind
    ((decodeTable_consumes_id
      ((included_length_le ..).trans hvalid.relocationCount)
      fun relocation _ =>
        (decodeRelocation_consumes relocation).adaptError _).bind
    ((decodeTable_consumes_id ((included_length_le ..).trans hfits.imports)
      fun imported himported =>
        have htext := himports imported (mem_of_mem_included himported)
        (decodeImport_consumes htext.1 htext.2.1).adaptError _).bind
    ((decodeTable_consumes_id ((included_length_le ..).trans hfits.exports)
      fun exported hexported =>
        have htext := hexports exported (mem_of_mem_included hexported)
        (decodeExport_consumes htext.1 htext.2.1).adaptError _).bind
    ((decodeTable_consumes debugSummary
      ((included_length_le ..).trans hfits.debugUnits)
      fun unit _ => (decodeDebugUnit_consumes unit).adaptError _).bind_last
        (Consumes.pure _)))))))))

/-! ## The container -/

theorem encode_ok {image : BinaryImage} {data : Bytes}
    (hdata : image.fileData = some data)
    (hvalid : BinaryValidator.Valid limits image data)
    (options : ManifestOptions) :
    encode limits image options =
      .ok (sealContainer "BFMF" (encodeBody options image data)) := by
  refine demand_except_bind_eq_ok.mpr ⟨data, hdata,
    rejectIf_except_bind_eq_ok.mpr ⟨?_, rfl⟩⟩
  simp only [gt_iff_lt, not_or, not_lt]
  exact ⟨hvalid.fileSize, hvalid.sectionCount, hvalid.segmentCount,
    hvalid.symbolCount, hvalid.relocationCount⟩

theorem encodeBody_length_ge (options : ManifestOptions) (image : BinaryImage)
    (data : Bytes) : 8 ≤ (encodeBody options image data).length := by
  simp only [encodeBody, List.length_append, u32Bytes_length]
  omega

/-- The manifest reads back up to the validator's verdict on the result. -/
theorem decode_sealContainer {image : BinaryImage} {data : Bytes}
    (options : ManifestOptions)
    (hvalid : BinaryValidator.Valid limits image data)
    (hfits : Encodable limits image)
    (hlength : (sealContainer "BFMF" (encodeBody options image data)).length ≤
      (limits.maxFileSize * 2).toNat) {decoded : BinaryImage} :
    decode limits (sealContainer "BFMF" (encodeBody options image data)) =
        .ok decoded ↔
      (BinaryValidator.validate limits
          (manifestImage (selectedImage options image) data)).valid = true ∧
        decoded = manifestImage (selectedImage options image) data := by
  have hsignature : (ascii "BFMF").length = 4 := rfl
  have hstart : LittleAhead { data := encodeBody options image data }
      (encodeBody options image data ++ []) :=
    ⟨rfl, Nat.zero_le _, (List.append_nil _).symm⟩
  obtain ⟨last, hrun, hlast⟩ :=
    decodeBody_consumes options hvalid hfits _ _ (Nat.zero_le _) hstart
  have hsize : ¬((sealContainer "BFMF" (encodeBody options image data)).length <
      16 ∨ (sealContainer "BFMF" (encodeBody options image data)).length >
        (limits.maxFileSize * 2).toNat) := by
    refine not_or.mpr ⟨?_, not_lt.mpr hlength⟩
    have hbody := encodeBody_length_ge options image data
    rw [sealContainer_length hsignature]
    omega
  have hbody : evaluate (do
      let image ← decodeBody limits
      let reader ← get
      rejectIf (reader.remaining ≠ 0)
        (failure .invalidHeader (UInt64.ofNat reader.position)
          "manifest contains trailing model data")
      return image)
      { data := slice (sealContainer "BFMF" (encodeBody options image data)) 4
          ((sealContainer "BFMF" (encodeBody options image data)).length -
            8) } = .ok (manifestImage (selectedImage options image) data) := by
    rw [sealContainer_body hsignature]
    refine evaluate_of_ok (?_ : _ = EStateM.Result.ok _ last)
    rw [bind_of_ok hrun, bind_of_ok (get_apply last),
      rejectIf_bind_of_not (by rw [hlast.remaining]; simp), pure_apply]
  constructor
  · intro hrun
    obtain ⟨-, hrun⟩ := rejectIf_except_bind_eq_ok.mp hrun
    obtain ⟨-, hrun⟩ := rejectIf_except_bind_eq_ok.mp hrun
    obtain ⟨-, hrun⟩ := rejectIf_except_bind_eq_ok.mp hrun
    rw [hbody] at hrun
    obtain ⟨haccepted, hsame⟩ := rejectIf_except_bind_eq_ok.mp hrun
    exact ⟨by simpa using haccepted, (Except.ok.inj hsame).symm⟩
  · rintro ⟨haccepted, rfl⟩
    refine rejectIf_except_bind_eq_ok.mpr ⟨hsize,
      rejectIf_except_bind_eq_ok.mpr ⟨?_, rejectIf_except_bind_eq_ok.mpr ⟨?_,
        except_bind_eq_ok.mpr ⟨_, hbody,
          rejectIf_except_bind_eq_ok.mpr ⟨?_, rfl⟩⟩⟩⟩⟩
    · exact not_not.mpr (sealContainer_signature hsignature)
    · exact not_not.mpr (sealContainer_checksum hsignature).symm
    · rw [haccepted]
      simp

/-- Of the validator's checks only the symbol references look across tables
that can be left out. -/
theorem validate_selectedImage {image : BinaryImage} {data : Bytes}
    (options : ManifestOptions)
    (hvalid : BinaryValidator.Valid limits image data) :
    (BinaryValidator.validate limits
        (manifestImage (selectedImage options image) data)).valid = true ↔
      ∀ relocation ∈ included options.includeRelocations image.relocations,
        BinaryValidator.RelocationValid
          (included options.includeSymbols image.symbols).length relocation := by
  rw [BinaryValidator.validate_valid_iff]
  constructor
  · rintro ⟨other, hother, hreduced⟩
    exact hreduced.relocations
  · intro hrelocations
    refine ⟨data, rfl, hvalid.fileSize, hvalid.sectionCount,
      hvalid.segmentCount, (included_length_le ..).trans hvalid.symbolCount,
      (included_length_le ..).trans hvalid.relocationCount, hvalid.sectionIndex,
      hvalid.sections, hvalid.segments, ?_, hrelocations⟩
    show BinaryValidator.Indexed Symbol.index
      (included options.includeSymbols image.symbols)
    cases options.includeSymbols with
    | true => exact hvalid.symbolIndex
    | false => exact BinaryValidator.indexed_nil

/-- A valid image survives its manifest; of a debug unit the manifest keeps
offset, length, version and address size. -/
theorem decode_encode {image : BinaryImage}
    (haccepted : (BinaryValidator.validate limits image).valid = true)
    (hfits : Encodable limits image)
    (hnowrap : limits.maxFileSize.toNat * 2 < 2 ^ 64)
    (hlength : ∀ encoded, encode limits image {} = .ok encoded →
      encoded.length ≤ limits.maxFileSize.toNat * 2) :
    ∃ encoded decoded, encode limits image {} = .ok encoded ∧
      decode limits encoded = .ok decoded ∧
      decoded.header = image.header ∧
      decoded.fileData = image.fileData ∧
      decoded.sections = image.sections ∧
      decoded.segments = image.segments ∧
      decoded.symbols = image.symbols ∧
      decoded.relocations = image.relocations ∧
      decoded.imports = image.imports ∧
      decoded.exports = image.exports ∧
      decoded.debugUnits.map (fun unit =>
          (unit.offset, unit.length, unit.version, unit.addressSize)) =
        image.debugUnits.map fun unit =>
          (unit.offset, unit.length, unit.version, unit.addressSize) := by
  obtain ⟨data, hdata, hvalid⟩ :=
    BinaryValidator.validate_valid_iff.mp haccepted
  have hencode := encode_ok hdata hvalid {}
  have hdouble : (limits.maxFileSize * 2).toNat =
      limits.maxFileSize.toNat * 2 := by
    rw [UInt64.toNat_mul]
    exact Nat.mod_eq_of_lt hnowrap
  have hsize := hlength _ hencode
  rw [← hdouble] at hsize
  have hdecode := (decode_sealContainer {} hvalid hfits hsize).mpr
    ⟨(validate_selectedImage {} hvalid).mpr hvalid.relocations, rfl⟩
  refine ⟨_, manifestImage image data, hencode, hdecode, rfl, hdata.symm, rfl,
    rfl, rfl, rfl, rfl, rfl, ?_⟩
  simp only [manifestImage, List.map_map]
  rfl

/-- One record in every table. -/
theorem decode_encode_one_each :
    let image : BinaryImage :=
      { header := { format := .elfLike, entryPoint := 0x401000 }
        sections := [{ name := ".text", kind := .programBits, fileSize := 4 }]
        segments := [{ fileSize := 4, memorySize := 8, sections := [0] }]
        symbols := [{ name := "main", kind := .function, library := "libc" }]
        relocations := [{ kind := .relative64, addend := -1, width := 8 }]
        imports := [{ library := "libc", name := "puts", weak := true }]
        exports := [{ name := "main", forwarded := true, forwardTarget := "m" }]
        debugUnits := [{ length := 7, version := 5, addressSize := 8 }]
        fileData := some [0x7f, 0x45, 0x4c, 0x46] }
    ∃ encoded decoded, encode {} image {} = .ok encoded ∧
      decode {} encoded = .ok decoded ∧
      decoded.sections = image.sections ∧
      decoded.relocations = image.relocations := by
  intro image
  have hsegments : ∀ segment ∈ image.segments,
      SegmentFits {} image.sections.length segment := by
    refine List.forall_mem_singleton.mpr ⟨by decide +kernel, ?_⟩
    exact List.forall_mem_singleton.mpr (by decide +kernel)
  obtain ⟨encoded, decoded, hencode, hdecode, _, _, hsections, _, _,
      hrelocations, _⟩ :=
    decode_encode
      (by decide +kernel : (BinaryValidator.validate {} image).valid = true)
      ⟨by decide +kernel, by decide +kernel, by decide +kernel,
        by decide +kernel, hsegments⟩ (by decide +kernel) (by
        intro encoded hencode
        have hsize : (encode {} image {}).toOption.all
            (fun encoded => encoded.length ≤ 2 ^ 20) = true := by
          decide +kernel
        rw [hencode] at hsize
        have hsmall : encoded.length ≤ 2 ^ 20 := by
          simpa [Except.toOption] using hsize
        exact hsmall.trans (by decide +kernel))
  exact ⟨encoded, decoded, hencode, hdecode, hsections, hrelocations⟩

end ImageManifestCodec
end BinForge
